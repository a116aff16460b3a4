import LicenseAudit.Proofs.Notice.Merge
import LicenseAudit.Proofs.Notice.Stability

/-!
# The order of merged lines

A span takes the least and the greatest of its years, which no order changes;
only the word that leaves it open is that of the first open range.  So lines
in another order are merged to the same lines but for such words
(`areAlike_mergeLines`), and to the very same when every holder's first word
is the same (`mergeLines_eq_of_perm`).  A holder whose notices are all left
open with one word has that word in any order (`openWord?_eq_of_perm`).
-/

namespace LicenseAudit

open Text

namespace YearRange

variable {r s : YearRange} {rs ss : List YearRange}

/-- Two ranges are **alike** when they are the same but for the words that
leave them open. -/
structure IsAlike (r s : YearRange) : Prop where
  start_eq : r.start = s.start
  ending : r.ending = s.ending ∨ ∃ w ∈ openWords, ∃ v ∈ openWords,
    r.ending = some (.word w) ∧ s.ending = some (.word v)

theorem isAlike_refl (r : YearRange) : r.IsAlike r :=
  ⟨rfl, .inl rfl⟩

theorem foldl_start_eq_of_perm (h : (r :: rs).Perm (s :: ss)) :
    rs.foldl (fun n t => min n t.start) r.start = ss.foldl (fun n t => min n t.start) s.start := by
  have hleast := isLeast_start s ss
  simp only [← h.mem_iff] at hleast
  exact (isLeast_start r rs).unique hleast

theorem foldl_lastYear_eq_of_perm (h : (r :: rs).Perm (s :: ss)) :
    rs.foldl (fun n t => max n t.lastYear) r.lastYear =
      ss.foldl (fun n t => max n t.lastYear) s.lastYear := by
  have hgreatest := isGreatest_lastYear s ss
  simp only [← h.mem_iff] at hgreatest
  exact (isGreatest_lastYear r rs).unique hgreatest

/-- The order of ranges matters to their span only where it matters which of
them is the first open one. -/
theorem span_eq_of_perm (h : (r :: rs).Perm (s :: ss))
    (hword : (r :: rs).findSome? openWord? = (s :: ss).findSome? openWord?) :
    r.span rs = s.span ss := by
  rw [span, span, foldl_start_eq_of_perm h, foldl_lastYear_eq_of_perm h, hword]

/-- In any order some range is open, or none is. -/
theorem findSome?_openWord?_eq_none_of_perm (h : rs.Perm ss)
    (hnone : rs.findSome? openWord? = none) : ss.findSome? openWord? = none := by
  rw [List.findSome?_eq_none_iff] at hnone ⊢
  exact fun t ht => hnone t (h.mem_iff.2 ht)

theorem mem_openWords_of_findSome? {w : String} (h : ∀ r ∈ rs, r.IsBounded)
    (hword : rs.findSome? openWord? = some w) : w ∈ openWords := by
  obtain ⟨r, hr, hopen⟩ := List.exists_of_findSome?_eq_some hword
  exact (h r hr).ending _ (openWord?_eq_some_iff.1 hopen)

/-- The spans of ranges in two orders are alike. -/
theorem isAlike_span_of_perm (h : (r :: rs).Perm (s :: ss))
    (hbounded : ∀ t ∈ r :: rs, t.IsBounded) : (r.span rs).IsAlike (s.span ss) := by
  have hbounded' : ∀ t ∈ s :: ss, t.IsBounded := fun t ht => hbounded t (h.mem_iff.2 ht)
  cases hword : (r :: rs).findSome? openWord? with
  | none =>
      have hword' := findSome?_openWord?_eq_none_of_perm h hword
      rw [span_eq_of_perm h (hword.trans hword'.symm)]
      exact isAlike_refl _
  | some w =>
      cases hword' : (s :: ss).findSome? openWord? with
      | none =>
          rw [findSome?_openWord?_eq_none_of_perm h.symm hword'] at hword
          cases hword
      | some v =>
          rw [span, span, hword, hword']
          exact ⟨foldl_start_eq_of_perm h, .inr ⟨w, mem_openWords_of_findSome? hbounded hword, v,
            mem_openWords_of_findSome? hbounded' hword', rfl, rfl⟩⟩

end YearRange

namespace Notice

variable {ns ms : List Notice} {lines lines' : List String} {holder : String}

/-- Two notices are **alike** when they have one holder and their ranges are
alike. -/
structure IsAlike (n m : Notice) : Prop where
  holder_eq : n.holder = m.holder
  years : List.Forall₂ YearRange.IsAlike n.years m.years

theorem isAlike_refl (n : Notice) : n.IsAlike n :=
  ⟨rfl, List.forall₂_same.2 fun r _ => r.isAlike_refl⟩

/-- Lines are **alike** when each of them is the stored form of a notice like
one whose stored form is among the others, and the other way round. -/
structure AreAlike (lines lines' : List String) : Prop where
  left : ∀ line ∈ lines, ∃ n m : Notice, n.IsAlike m ∧ n.render = line ∧ m.render ∈ lines'
  right : ∀ line ∈ lines', ∃ n m : Notice, n.IsAlike m ∧ n.render = line ∧ m.render ∈ lines

/-- The word that leaves the years of a holder open: that of the first of the
holder's open ranges. -/
def openWord? (lines : List String) (holder : String) : Option String :=
  (yearsOf (lines.map parse) holder).findSome? YearRange.openWord?

theorem perm_yearsOf (h : ns.Perm ms) (holder : String) :
    (yearsOf ns holder).Perm (yearsOf ms holder) :=
  (h.filter _).flatMap_right _

theorem isBounded_of_mem_yearsOf {r : YearRange} (hr : r ∈ yearsOf (lines.map parse) holder) :
    r.IsBounded := by
  obtain ⟨n, hn, -, hr⟩ := mem_yearsOf.1 hr
  obtain ⟨line, -, rfl⟩ := List.mem_map.1 hn
  exact (isRead_parse line).1.bounded r hr

theorem summary_eq_of_perm {rs ss : List YearRange} (h : rs.Perm ss)
    (hword : rs.findSome? YearRange.openWord? = ss.findSome? YearRange.openWord?) :
    summary holder rs = summary holder ss := by
  cases rs with
  | nil => rw [h.nil_eq]
  | cons r rs =>
      cases ss with
      | nil => cases h.eq_nil
      | cons s ss => rw [summary, summary, YearRange.span_eq_of_perm h hword]

theorem isAlike_summary_of_perm {rs ss : List YearRange} (h : rs.Perm ss)
    (hbounded : ∀ r ∈ rs, r.IsBounded) : (summary holder rs).IsAlike (summary holder ss) := by
  cases rs with
  | nil =>
      rw [← h.nil_eq]
      exact isAlike_refl _
  | cons r rs =>
      cases ss with
      | nil => cases h.eq_nil
      | cons s ss =>
          exact ⟨rfl, .cons (YearRange.isAlike_span_of_perm h hbounded) .nil⟩

/-- A merged line has a line like it among the same lines merged in another
order. -/
theorem exists_isAlike_of_mem_mergeLines (h : lines.Perm lines') {line : String}
    (hline : line ∈ mergeLines lines) :
    ∃ n m : Notice, n.IsAlike m ∧ n.render = line ∧ m.render ∈ mergeLines lines' := by
  have hparse := h.map parse
  obtain ⟨n, hn, rfl⟩ := ((isListing_mergeLines lines).mem_iff line).1 hline
  refine ⟨_, _, isAlike_summary_of_perm (perm_yearsOf hparse n.holder) ?_, rfl, ?_⟩
  · exact fun r hr => isBounded_of_mem_yearsOf hr
  · rw [(isListing_mergeLines lines').mem_iff]
    exact ⟨n, hparse.mem_iff.1 hn, rfl⟩

/-- Lines in another order are merged to lines that are alike. -/
theorem areAlike_mergeLines (h : lines.Perm lines') :
    AreAlike (mergeLines lines) (mergeLines lines') :=
  ⟨fun _ => exists_isAlike_of_mem_mergeLines h, fun _ => exists_isAlike_of_mem_mergeLines h.symm⟩

/-- Lines in another order are merged to the same lines when the years of every
holder are left open with the same word. -/
theorem mergeLines_eq_of_perm (h : lines.Perm lines')
    (hword : ∀ holder, openWord? lines holder = openWord? lines' holder) :
    mergeLines lines = mergeLines lines' := by
  have hparse := h.map parse
  refine ((isListing_mergeLines lines).congr fun line => ?_).unique (fun _ _ hab => hab.asymm)
    (isListing_mergeLines lines')
  have hsummary (holder : String) : summary holder (yearsOf (lines.map parse) holder) =
      summary holder (yearsOf (lines'.map parse) holder) :=
    summary_eq_of_perm (perm_yearsOf hparse holder) (hword holder)
  simp only [hsummary, hparse.mem_iff]

/-- Lines are **unanimous** when no two of them leave the years of one holder
open with different words. -/
def AreUnanimous (lines : List String) : Prop :=
  ∀ n ∈ lines.map parse, ∀ m ∈ lines.map parse, n.holder = m.holder →
    ∀ r ∈ n.years, ∀ s ∈ m.years, ∀ w ∈ r.openWord?, ∀ v ∈ s.openWord?, w = v

instance (lines : List String) : Decidable (AreUnanimous lines) :=
  inferInstanceAs (Decidable (∀ n ∈ _, ∀ m ∈ _, _))

/-- Unanimous lines have the same words in any order. -/
theorem openWord?_eq_of_perm (h : lines.Perm lines') (hsame : AreUnanimous lines)
    (holder : String) : openWord? lines holder = openWord? lines' holder := by
  have hyears := perm_yearsOf (h.map parse) holder
  cases hword : openWord? lines holder with
  | none => exact (YearRange.findSome?_openWord?_eq_none_of_perm hyears hword).symm
  | some w =>
      cases hword' : openWord? lines' holder with
      | none =>
          rw [openWord?, YearRange.findSome?_openWord?_eq_none_of_perm hyears.symm hword'] at hword
          cases hword
      | some v =>
          obtain ⟨r, hr, hrw⟩ := List.exists_of_findSome?_eq_some hword
          obtain ⟨s, hs, hsv⟩ := List.exists_of_findSome?_eq_some hword'
          obtain ⟨n, hn, hholder, hrn⟩ := mem_yearsOf.1 hr
          obtain ⟨m, hm, hholder', hsm⟩ := mem_yearsOf.1 (hyears.mem_iff.2 hs)
          rw [hsame n hn m hm (hholder.trans hholder'.symm) r hrn s hsm w hrw v hsv]

end Notice

end LicenseAudit
