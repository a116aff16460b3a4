import LicenseAudit.Proofs.Notice.RoundTrip
import LicenseAudit.Proofs.Text.Order
import Mathlib.Order.Bounds.Basic

/-!
# Notices merged by their holders

A merged list has one line for each holder, and that line is read back as the
holder with a single range over all the years of its notices:
`mergeLines_render`.  The range **spans** the years: it starts with the first
of them, it is open when one of the ranges is, and otherwise it ends with the
last year that is mentioned (`YearRange.spans_span`).  A range over one range
that is a span already is that range, so merged lines are merged to
themselves.
-/

namespace LicenseAudit

open Text

namespace YearRange

/-- The years that are written in a range. -/
def Mentions (r : YearRange) (n : Nat) : Prop :=
  n = r.start ∨ r.ending = some (.year n)

/-- A range is **open** when a word stands for its end. -/
def IsOpen (r : YearRange) : Prop :=
  ∃ w, r.ending = some (.word w)

/-- A range is **ordered** when it does not end before it starts. -/
def IsOrdered (r : YearRange) : Prop :=
  r.start ≤ r.lastYear

instance (r : YearRange) : Decidable r.IsOrdered :=
  inferInstanceAs (Decidable (_ ≤ _))

/-- A range **spans** others when it goes from the first year among them to
the last, and is open when one of them is. -/
structure Spans (r : YearRange) (rs : List YearRange) : Prop where
  start : IsLeast {n | ∃ s ∈ rs, s.start = n} r.start
  isOpen_iff : r.IsOpen ↔ ∃ s ∈ rs, s.IsOpen
  last : ¬ r.IsOpen → IsGreatest {n | ∃ s ∈ rs, s.Mentions n} r.lastYear

variable {r : YearRange} {rs : List YearRange} {n : Nat}

theorem openWord?_eq_some_iff {w : String} : r.openWord? = some w ↔ r.ending = some (.word w) := by
  obtain ⟨start, ending⟩ := r
  rcases ending with _ | (m | v) <;> simp [openWord?]

theorem mentions_lastYear (r : YearRange) : r.Mentions r.lastYear := by
  obtain ⟨start, ending⟩ := r
  rcases ending with _ | (m | v) <;> simp [Mentions, lastYear]

theorem le_lastYear (h : r.IsOrdered) (hn : r.Mentions n) : n ≤ r.lastYear := by
  rcases hn with rfl | hending
  · exact h
  · rw [lastYear, hending]

theorem isLeast_start (r : YearRange) (rs : List YearRange) :
    IsLeast {n | ∃ s ∈ r :: rs, s.start = n} (rs.foldl (fun n s => min n s.start) r.start) := by
  have hmin : ((r :: rs).map start).min? = some (rs.foldl (fun n s => min n s.start) r.start) := by
    rw [List.map_cons, List.min?_cons', List.foldl_map]
  obtain ⟨hmem, hle⟩ := List.min?_eq_some_iff.1 hmin
  refine ⟨List.mem_map.1 hmem, ?_⟩
  intro n hn
  exact hle n (List.mem_map.2 hn)

theorem isGreatest_lastYear (r : YearRange) (rs : List YearRange) :
    IsGreatest {n | ∃ s ∈ r :: rs, s.lastYear = n}
      (rs.foldl (fun n s => max n s.lastYear) r.lastYear) := by
  have hmax : ((r :: rs).map lastYear).max? =
      some (rs.foldl (fun n s => max n s.lastYear) r.lastYear) := by
    rw [List.map_cons, List.max?_cons', List.foldl_map]
  obtain ⟨hmem, hle⟩ := List.max?_eq_some_iff.1 hmax
  refine ⟨List.mem_map.1 hmem, ?_⟩
  intro n hn
  exact hle n (List.mem_map.2 hn)

/-- What the span of ranges can be: open at a word of one of them, or closed
with all of them closed. -/
theorem span_cases (r : YearRange) (rs : List YearRange) :
    ∃ start latest, IsLeast {n | ∃ s ∈ r :: rs, s.start = n} start ∧
      IsGreatest {n | ∃ s ∈ r :: rs, s.lastYear = n} latest ∧
      ((∃ w, (∃ s ∈ r :: rs, s.ending = some (.word w)) ∧
          r.span rs = ⟨start, some (.word w)⟩) ∨
        ((∀ s ∈ r :: rs, ¬ s.IsOpen) ∧
          r.span rs = ⟨start, if latest = start then none else some (.year latest)⟩)) := by
  refine ⟨_, _, isLeast_start r rs, isGreatest_lastYear r rs, ?_⟩
  rw [span]
  cases hword : (r :: rs).findSome? openWord? with
  | some w =>
      obtain ⟨s, hs, hopen⟩ := List.exists_of_findSome?_eq_some hword
      exact .inl ⟨w, ⟨s, hs, openWord?_eq_some_iff.1 hopen⟩, rfl⟩
  | none =>
      refine .inr ⟨?_, rfl⟩
      intro s hs ⟨w, hw⟩
      have hnone := List.findSome?_eq_none_iff.1 hword s hs
      rw [openWord?_eq_some_iff.2 hw] at hnone
      cases hnone

/-- The greatest year that ordered ranges mention is the greatest of their
last years. -/
theorem isGreatest_mentions (hordered : ∀ s ∈ rs, s.IsOrdered)
    (h : IsGreatest {n | ∃ s ∈ rs, s.lastYear = n} n) :
    IsGreatest {n | ∃ s ∈ rs, s.Mentions n} n := by
  obtain ⟨⟨s, hs, rfl⟩, hle⟩ := h
  refine ⟨⟨s, hs, mentions_lastYear s⟩, ?_⟩
  intro m ⟨t, ht, hm⟩
  exact (le_lastYear (hordered t ht) hm).trans (hle ⟨t, ht, rfl⟩)

/-- The span of ordered ranges spans them. -/
theorem spans_span (hordered : ∀ s ∈ r :: rs, s.IsOrdered) : (r.span rs).Spans (r :: rs) := by
  obtain ⟨start, latest, hstart, hlatest, ⟨w, ⟨s, hs, hw⟩, hspan⟩ | ⟨hclosed, hspan⟩⟩ :=
    span_cases r rs
  · rw [hspan]
    refine ⟨hstart, ⟨fun _ => ⟨s, hs, w, hw⟩, fun _ => ⟨w, rfl⟩⟩, ?_⟩
    intro hclosed
    exact absurd ⟨w, rfl⟩ hclosed
  · have hopen : ¬ (r.span rs).IsOpen := by
      rw [hspan]
      intro ⟨w, hw⟩
      simp only at hw
      split at hw <;> cases hw
    have hlast : (r.span rs).lastYear = latest := by
      rw [hspan, lastYear]
      split_ifs with heq
      · exact heq.symm
      · rfl
    refine ⟨?_, ?_, fun _ => ?_⟩
    · rw [hspan]
      exact hstart
    · refine ⟨fun h => absurd h hopen, ?_⟩
      intro ⟨s, hs, hsopen⟩
      exact absurd hsopen (hclosed s hs)
    · rw [hlast]
      exact isGreatest_mentions hordered hlatest

theorem IsProper.lastYear (h : r.IsProper) : IsYear r.lastYear := by
  obtain ⟨start, ending⟩ := r
  rcases ending with _ | (m | v)
  · exact h.start
  · exact h.ending _ rfl
  · exact h.start

/-- The span of proper ranges is proper. -/
theorem isProper_span (h : ∀ s ∈ r :: rs, s.IsProper) : (r.span rs).IsProper := by
  obtain ⟨start, latest, ⟨⟨s, hs, rfl⟩, -⟩, ⟨⟨t, ht, rfl⟩, -⟩, hcases⟩ := span_cases r rs
  rcases hcases with ⟨w, ⟨u, hu, hw⟩, hspan⟩ | ⟨-, hspan⟩
  · rw [hspan]
    refine ⟨(h s hs).start, ?_⟩
    intro e he
    cases he
    exact (h u hu).ending _ hw
  · rw [hspan]
    refine ⟨(h s hs).start, ?_⟩
    intro e he
    simp only at he
    split at he <;> cases he
    exact (h t ht).lastYear

/-- A span is its own span. -/
theorem span_span (r : YearRange) (rs : List YearRange) : (r.span rs).span [] = r.span rs := by
  obtain ⟨start, latest, -, -, ⟨w, -, hspan⟩ | ⟨-, hspan⟩⟩ := span_cases r rs
  · rw [hspan]
    rfl
  · rw [hspan]
    split_ifs with heq
    · simp [span, openWord?, lastYear]
    · simp [span, openWord?, lastYear, heq]

end YearRange

namespace Notice

variable {ns : List Notice} {holder line : String}

/-- The ranges of the notices of a holder. -/
def yearsOf (ns : List Notice) (holder : String) : List YearRange :=
  (ns.filter (·.holder = holder)).flatMap Notice.years

theorem mem_yearsOf {r : YearRange} :
    r ∈ yearsOf ns holder ↔ ∃ n ∈ ns, n.holder = holder ∧ r ∈ n.years := by
  simp [yearsOf, and_assoc]

/-- The notice of a holder with the span of some ranges. -/
def summary (holder : String) : List YearRange → Notice
  | [] => ⟨[], holder⟩
  | r :: rs => ⟨[r.span rs], holder⟩

@[simp] theorem summary_holder (holder : String) (rs : List YearRange) :
    (summary holder rs).holder = holder := by
  cases rs <;> rfl

theorem merged_eq_render (holder : String) (rs : List YearRange) :
    merged holder rs = (summary holder rs).render := by
  cases rs with
  | nil => exact (render_nil holder).symm
  | cons r rs => rfl

/-- A notice **sums up** ranges when it has no years if there are none, and
otherwise the one range that spans them. -/
structure SumsUp (n : Notice) (rs : List YearRange) : Prop where
  undated : rs = [] → n.years = []
  dated : rs ≠ [] → ∃ r, n.years = [r] ∧ r.Spans rs

theorem sumsUp_summary {rs : List YearRange} (h : ∀ r ∈ rs, r.IsOrdered) :
    (summary holder rs).SumsUp rs := by
  cases rs with
  | nil => exact ⟨fun _ => rfl, fun hne => absurd rfl hne⟩
  | cons r rs => exact ⟨nofun, fun _ => ⟨r.span rs, rfl, YearRange.spans_span h⟩⟩

/-- A summary is the summary of its own years. -/
theorem summary_summary (holder : String) (rs : List YearRange) :
    summary holder (summary holder rs).years = summary holder rs := by
  cases rs with
  | nil => rfl
  | cons r rs => simp [summary, YearRange.span_span]

/-- What is merged are the summaries of the holders, in ascending order of
their lines. -/
theorem isListing_mergeLines (lines : List String) :
    IsListing Before
      (fun line => ∃ n ∈ lines.map parse,
        (summary n.holder (yearsOf (lines.map parse) n.holder)).render = line)
      (mergeLines lines) := by
  apply (isListing_sortedUnique _).congr
  intro line
  simp [yearsOf, merged_eq_render]

/-- A notice can be **merged** when it is canonical, announces no other notice
and has no range that ends before it starts. -/
structure IsMergeable (n : Notice) : Prop extends IsCanonical n where
  plain : dropAnnouncement? n.holder.toList = none
  ordered : ∀ r ∈ n.years, r.IsOrdered

instance (n : Notice) : Decidable n.IsMergeable :=
  decidable_of_iff (n.IsCanonical ∧ dropAnnouncement? n.holder.toList = none ∧
      ∀ r ∈ n.years, r.IsOrdered)
    ⟨fun ⟨hcanonical, hplain, hordered⟩ => ⟨hcanonical, hplain, hordered⟩,
      fun ⟨hcanonical, hplain, hordered⟩ => ⟨hcanonical, hplain, hordered⟩⟩

/-- Some lines are a **merge** of notices when no holder has two lines, the
holders are those of the notices, and each line sums up the years of its
holder. -/
structure IsMergeOf (lines : List String) (ns : List Notice) : Prop where
  nodup : (lines.map fun line => (parse line).holder).Nodup
  holders : ∀ holder, (∃ line ∈ lines, (parse line).holder = holder) ↔
    ∃ n ∈ ns, n.holder = holder
  years : ∀ line ∈ lines, (parse line).SumsUp (yearsOf ns (parse line).holder)

section
variable (h : ∀ n ∈ ns, n.IsMergeable)
include h

theorem map_parse_render : (ns.map render).map parse = ns := by
  rw [List.map_map]
  refine (List.map_congr_left fun n hn => ?_).trans (List.map_id ns)
  exact parse_render_of_isLegible (h n hn).isLegible

/-- The summary of a holder is read back from its line. -/
theorem parse_render_summary {n : Notice} (hn : n ∈ ns) :
    parse (summary n.holder (yearsOf ns n.holder)).render =
      summary n.holder (yearsOf ns n.holder) := by
  obtain ⟨hcanonical, hplain, -⟩ := h n hn
  have hproper : ∀ r ∈ yearsOf ns n.holder, r.IsProper := by
    intro r hr
    obtain ⟨m, hm, -, hrm⟩ := mem_yearsOf.1 hr
    exact (h m hm).proper r hrm
  apply parse_render_of_isLegible
  apply IsCanonical.isLegible
  cases hyears : yearsOf ns n.holder with
  | nil =>
      exact ⟨List.forall_mem_nil _, hcanonical.trimmed, hcanonical.apart, hcanonical.undated,
        fun _ => hplain⟩
  | cons r rs =>
      rw [hyears] at hproper
      refine ⟨?_, hcanonical.trimmed, hcanonical.apart, hcanonical.undated, nofun⟩
      simpa [summary] using YearRange.isProper_span hproper

/-- A merged line is read as the summary of a holder. -/
theorem exists_of_mem_mergeLines (hline : line ∈ mergeLines (ns.map render)) :
    ∃ n ∈ ns, parse line = summary n.holder (yearsOf ns n.holder) ∧
      (parse line).render = line := by
  rw [(isListing_mergeLines _).mem_iff, map_parse_render h] at hline
  obtain ⟨n, hn, rfl⟩ := hline
  have hread := parse_render_summary h hn
  exact ⟨n, hn, hread, congrArg render hread⟩

/-- Every holder has a merged line. -/
theorem exists_mem_mergeLines {n : Notice} (hn : n ∈ ns) :
    ∃ line ∈ mergeLines (ns.map render), (parse line).holder = n.holder := by
  refine ⟨_, ?_, (congrArg Notice.holder (parse_render_summary h hn)).trans (summary_holder _ _)⟩
  rw [(isListing_mergeLines _).mem_iff, map_parse_render h]
  exact ⟨n, hn, rfl⟩

/-- The merged lines of canonical notices are a merge of them. -/
theorem isMergeOf_mergeLines : IsMergeOf (mergeLines (ns.map render)) ns := by
  constructor
  · apply List.Nodup.map_on _ ((isListing_mergeLines _).nodup fun _ _ hab => hab.asymm)
    intro line hline other hother heq
    obtain ⟨n, -, hn, hrender⟩ := exists_of_mem_mergeLines h hline
    obtain ⟨m, -, hm, hrender'⟩ := exists_of_mem_mergeLines h hother
    rw [hn, hm, summary_holder, summary_holder] at heq
    rw [← hrender, ← hrender', hn, hm, heq]
  · intro holder
    constructor
    · rintro ⟨line, hline, rfl⟩
      obtain ⟨n, hn, hread, -⟩ := exists_of_mem_mergeLines h hline
      exact ⟨n, hn, by rw [hread, summary_holder]⟩
    · rintro ⟨n, hn, rfl⟩
      exact exists_mem_mergeLines h hn
  · intro line hline
    obtain ⟨n, -, hread, -⟩ := exists_of_mem_mergeLines h hline
    rw [hread, summary_holder]
    apply sumsUp_summary
    intro r hr
    obtain ⟨m, hm, -, hrm⟩ := mem_yearsOf.1 hr
    exact (h m hm).ordered r hrm

end

/-- When no two notices have one holder, the ranges of a holder are those of
its notice. -/
theorem yearsOf_of_nodup (hnodup : (ns.map Notice.holder).Nodup) {n : Notice} (hn : n ∈ ns) :
    yearsOf ns n.holder = n.years := by
  induction ns with
  | nil => cases hn
  | cons m ms ih =>
      rw [List.map_cons, List.nodup_cons] at hnodup
      obtain ⟨hm, hms⟩ := hnodup
      rcases List.mem_cons.1 hn with rfl | hn
      · have hnone : ms.filter (·.holder = n.holder) = [] := by
          apply List.filter_eq_nil_iff.2
          intro k hk heq
          exact hm (List.mem_map.2 ⟨k, hk, by simpa using heq⟩)
        simp [yearsOf, hnone]
      · have hne : m.holder ≠ n.holder := fun heq => hm (List.mem_map.2 ⟨n, hn, heq.symm⟩)
        have hrest := ih hms hn
        rw [yearsOf] at hrest ⊢
        rw [List.filter_cons_of_neg (by simpa using hne), hrest]

/-- Ascending lines of different holders that are the summaries of their own
years are merged to themselves. -/
theorem mergeLines_eq_self {lines : List String} (hascending : lines.Pairwise Before)
    (hnodup : (lines.map fun line => (parse line).holder).Nodup)
    (hsummary : ∀ line ∈ lines, (summary (parse line).holder (parse line).years).render = line) :
    mergeLines lines = lines := by
  have hholders : ((lines.map parse).map Notice.holder).Nodup := by rwa [List.map_map]
  have hlines : IsListing Before (· ∈ lines) lines := ⟨hascending, fun _ => Iff.rfl⟩
  have hyears (other : String) (hother : other ∈ lines) :
      (summary (parse other).holder (yearsOf (lines.map parse) (parse other).holder)).render =
        other := by
    rw [yearsOf_of_nodup hholders (List.mem_map_of_mem hother), hsummary other hother]
  refine ((isListing_mergeLines lines).congr fun line => ?_).unique
    (fun _ _ hab => hab.asymm) hlines
  constructor
  · rintro ⟨n, hn, rfl⟩
    obtain ⟨other, hother, rfl⟩ := List.mem_map.1 hn
    rwa [hyears other hother]
  · intro hline
    exact ⟨parse line, List.mem_map_of_mem hline, hyears line hline⟩

/-- **Merging**: of the lines of canonical notices one is left for each holder,
which sums up the years of its notices, and merging the lines that are left
changes nothing. -/
theorem mergeLines_render {ns : List Notice} (h : ∀ n ∈ ns, n.IsMergeable) :
    IsMergeOf (mergeLines (ns.map render)) ns ∧
      mergeLines (mergeLines (ns.map render)) = mergeLines (ns.map render) := by
  have hmerge := isMergeOf_mergeLines h
  refine ⟨hmerge, ?_⟩
  apply mergeLines_eq_self (isListing_mergeLines _).ascending hmerge.nodup
  intro line hline
  obtain ⟨n, -, hread, hrender⟩ := exists_of_mem_mergeLines h hline
  rw [hread] at hrender ⊢
  rw [summary_holder, summary_summary, hrender]

/-- Notices of four holders: with dates more than once, open, without a name
and without a date. -/
def several : List Notice :=
  [⟨[⟨2017, none⟩], "Jane Doe"⟩, ⟨[], "John Doe"⟩, ⟨[⟨2020, none⟩], ""⟩,
    ⟨[⟨2018, some (.word "Present")⟩, ⟨2016, some (.year 2022)⟩], "Example Corp"⟩,
    ⟨[⟨2019, none⟩, ⟨1999, some (.year 2001)⟩], "Jane Doe"⟩, ⟨[], "Jane Doe"⟩]

theorem mergeLines_render_several :
    (∀ n ∈ several, n.IsMergeable) ∧
      IsMergeOf ["1999-2019 Jane Doe", "2016-Present Example Corp", "2020", "John Doe"] several ∧
      mergeLines ["1999-2019 Jane Doe", "2016-Present Example Corp", "2020", "John Doe"] =
        ["1999-2019 Jane Doe", "2016-Present Example Corp", "2020", "John Doe"] := by
  have hmergeable : ∀ n ∈ several, n.IsMergeable := by decide +kernel
  have hlines : mergeLines (several.map render) =
      ["1999-2019 Jane Doe", "2016-Present Example Corp", "2020", "John Doe"] := by
    decide +kernel
  have hmerge := mergeLines_render hmergeable
  rw [hlines] at hmerge
  exact ⟨hmergeable, hmerge⟩

end Notice

end LicenseAudit
