import LicenseAudit.Proofs.Notice.Year
import LicenseAudit.Proofs.Text.Blank

/-!
# Notices read back as they are written

The stored form of a notice is its years, a space and its holder.  It is read
back as that notice when nothing of it can be taken for something else: when
the notice is **legible**.  Its years have four digits; its holder is trimmed,
and goes on neither with a year nor with the end of the last one
(`parse_render_of_isLegible`).  A **canonical** notice, which can be told from
the first characters of its holder, is legible: `parse_render`.
-/

namespace LicenseAudit

open Text

variable {c : Char} {cs rest : List Char}

/-- A holder as it is written after years. -/
def spaced : List Char → List Char
  | [] => []
  | c :: cs => ' ' :: c :: cs

theorem dropGap_spaced (cs : List Char) : dropGap (spaced cs) = dropGap cs := by
  cases cs with
  | nil => rfl
  | cons c cs => rfl

theorem endsYear_spaced (cs : List Char) : endsYear (spaced cs) = true := by
  cases cs <;> rfl

theorem takeRangeEnd?_spaced (cs : List Char) : takeRangeEnd? (spaced cs) = takeRangeEnd? cs := by
  cases cs <;> rfl

namespace Notice

theorem toList_intercalate_years (r : YearRange) (rs : List YearRange) :
    (", ".intercalate ((r :: rs).map YearRange.render)).toList =
      r.render.toList ++ listed rs := by
  induction rs generalizing r with
  | nil => simp [listed]
  | cons s rs ih =>
      have hs := ih s
      simp only [List.map_cons, String.intercalate_cons_cons, String.toList_append] at hs ⊢
      rw [hs]
      simp [listed]

/-- A notice without years is written as its holder. -/
theorem render_nil (holder : String) : render ⟨[], holder⟩ = holder := by
  simp [render]

theorem toList_render_cons (r : YearRange) (rs : List YearRange) (holder : String) :
    (render ⟨r :: rs, holder⟩).toList =
      r.render.toList ++ (listed rs ++ spaced holder.toList) := by
  have hyears := toList_intercalate_years r rs
  obtain ⟨d, ds, hds, -⟩ := exists_toDigits_eq_cons r.start
  have hne : (", ".intercalate ((r :: rs).map YearRange.render)).isEmpty = false := by
    rw [Bool.eq_false_iff, Ne, String.isEmpty_iff, ← String.toList_eq_nil_iff, hyears,
      YearRange.toList_render, hds]
    exact List.cons_ne_nil _ _
  simp only [render]
  generalize ", ".intercalate ((r :: rs).map YearRange.render) = years at hyears hne
  cases hholder : holder.toList with
  | nil =>
      have hempty : holder.isEmpty = true := by
        rwa [String.isEmpty_iff, ← String.toList_eq_nil_iff]
      simp [hne, hempty, hyears, spaced]
  | cons c cs =>
      have hempty : holder.isEmpty = false := by
        rw [Bool.eq_false_iff, Ne, String.isEmpty_iff, ← String.toList_eq_nil_iff, hholder]
        exact List.cons_ne_nil c cs
      simp [hne, hempty, hyears, spaced, hholder]

/-- No announcement starts with a digit. -/
theorem dropAnnouncement?_cons_of_isDigit (h : c.isDigit = true) (cs : List Char) :
    dropAnnouncement? (c :: cs) = none := by
  have hletter : c ≠ 'C' := ne_of_isDigit h rfl
  have hsign : c ≠ '©' := ne_of_isDigit h rfl
  have hparenthesis : c ≠ '(' := ne_of_isDigit h rfl
  have hword : dropStart? copyrightWord (c :: cs) = none := if_neg hletter.symm
  rw [dropAnnouncement?, hword]
  simp [dropSign?, hsign, hparenthesis]

/-- A notice is read from the years and the holder of its trimmed text. -/
theorem parse_of_takeYears {text : String} {years : List YearRange}
    (htrimmed : IsTrimmed text.toList) (hplain : dropAnnouncement? text.toList = none)
    (hyears : takeYears text.toList = (years, rest)) :
    parse text =
      ⟨years, String.ofList (trim (if years.isEmpty then rest else dropGap rest))⟩ := by
  rw [parse, trim_eq_self_iff.2 htrimmed, dropAnnouncement, hplain, hyears]

/-- A written range ends with no blank. -/
theorem exists_render_eq_append {r : YearRange} (h : r.IsBounded) :
    ∃ front last, r.render.toList = front ++ [last] ∧ isBlank last = false := by
  obtain ⟨front, last, hlast⟩ := (List.eq_nil_or_concat' r.render.toList).resolve_left (by
    obtain ⟨d, ds, hds, -⟩ := exists_toDigits_eq_cons r.start
    rw [YearRange.toList_render, hds]
    exact List.cons_ne_nil _ _)
  refine ⟨front, last, hlast, isBlank_eq_false_of_mem_render h ?_⟩
  simp [hlast]

theorem exists_written_eq_append {r : YearRange} {rs : List YearRange}
    (h : ∀ s ∈ r :: rs, s.IsBounded) :
    ∃ front last, r.render.toList ++ listed rs = front ++ [last] ∧ isBlank last = false := by
  induction rs generalizing r with
  | nil =>
      obtain ⟨front, last, hr, hlast⟩ := exists_render_eq_append (h r List.mem_cons_self)
      exact ⟨front, last, by simp [listed, hr], hlast⟩
  | cons s rs ih =>
      obtain ⟨front, last, hs, hlast⟩ := ih fun t ht => h t (List.mem_cons_of_mem r ht)
      refine ⟨r.render.toList ++ ',' :: ' ' :: front, last, ?_, hlast⟩
      have hlisted := listed_cons_append s rs []
      rw [List.append_nil, List.append_nil, hs] at hlisted
      simp [hlisted]

/-- Years and a trimmed holder are written as a trimmed text. -/
theorem isTrimmed_render {r : YearRange} {rs : List YearRange} {holder : String}
    (hyears : ∀ s ∈ r :: rs, s.IsBounded) (hholder : IsTrimmed holder.toList) :
    IsTrimmed (render ⟨r :: rs, holder⟩).toList := by
  constructor
  · obtain ⟨d, ds, hds, hd⟩ := exists_toDigits_eq_cons r.start
    rw [toList_render_cons, YearRange.toList_render, hds]
    simpa using isBlank_eq_false_of_isDigit hd
  · obtain ⟨front, last, hfront, hlast⟩ := exists_written_eq_append hyears
    rw [toList_render_cons, ← List.append_assoc, hfront]
    cases hcs : holder.toList with
    | nil => simpa [spaced] using hlast
    | cons c cs =>
        intro e he
        apply hholder.last e
        rw [hcs]
        simpa [spaced] using he

/-- What stands first in a text that starts with a range is a digit. -/
theorem dropAnnouncement?_render (r : YearRange) (more : List Char) :
    dropAnnouncement? (r.render.toList ++ more) = none := by
  obtain ⟨d, ds, hds, hd⟩ := exists_toDigits_eq_cons r.start
  rw [YearRange.toList_render, hds]
  exact dropAnnouncement?_cons_of_isDigit hd _

/-- A notice that starts with proper ranges has these for its years and what
follows them for its holder. -/
theorem parse_written {text : String} {r : YearRange} {rs : List YearRange}
    (htrimmed : IsTrimmed text.toList)
    (htext : text.toList = r.render.toList ++ (listed rs ++ rest))
    (hproper : ∀ s ∈ r :: rs, s.IsProper)
    (hfollows : ∀ last ∈ (r :: rs).getLast?, Follows last rest)
    (hnone : takeYearRange? (dropGap rest) = none) :
    parse text = ⟨r :: rs, String.ofList (trim (dropGap rest))⟩ := by
  have hplain : dropAnnouncement? text.toList = none := htext ▸ dropAnnouncement?_render r _
  have hyears : takeYears text.toList = (r :: rs, rest) := by
    rw [htext, ← List.nil_append (r.render.toList ++ _)]
    exact takeYears_written hproper (List.forall_mem_nil _) hfollows hnone
  exact parse_of_takeYears htrimmed hplain hyears

/-- A notice is **legible** when nothing of its stored form can be taken for
something else. -/
structure IsLegible (n : Notice) : Prop where
  proper : ∀ r ∈ n.years, r.IsProper
  trimmed : trimmed n.holder = n.holder
  unannounced : n.years = [] → dropAnnouncement? n.holder.toList = none
  ungapped : n.years ≠ [] → dropGap n.holder.toList = n.holder.toList
  undated : takeYearRange? (dropGap n.holder.toList) = none
  apart : ∀ r ∈ n.years.getLast?, r.ending = none → takeRangeEnd? n.holder.toList = none

theorem trim_toList_of_trimmed {holder : String} (h : trimmed holder = holder) :
    trim holder.toList = holder.toList := by
  simpa [trimmed] using congrArg String.toList h

/-- A legible notice is read back from its stored form. -/
theorem parse_render_of_isLegible {n : Notice} (h : n.IsLegible) : parse n.render = n := by
  obtain ⟨years, holder⟩ := n
  have htrim : trim holder.toList = holder.toList := trim_toList_of_trimmed h.trimmed
  have hholder : IsTrimmed holder.toList := trim_eq_self_iff.1 htrim
  cases years with
  | nil =>
      rw [render_nil, parse_of_takeYears hholder (h.unannounced rfl) (takeYears_nil h.undated)]
      simp [htrim]
  | cons r rs =>
      have hbounded : ∀ s ∈ r :: rs, s.IsBounded := fun s hs => (h.proper s hs).isBounded
      have hnone : takeYearRange? (dropGap (spaced holder.toList)) = none := by
        rw [dropGap_spaced]
        exact h.undated
      have hfollows : ∀ last ∈ (r :: rs).getLast?, Follows last (spaced holder.toList) := by
        intro last hlast
        refine ⟨endsYear_spaced _, fun hending => ?_⟩
        rw [takeRangeEnd?_spaced]
        exact h.apart last hlast hending
      rw [parse_written (isTrimmed_render hbounded hholder) (toList_render_cons r rs holder)
        h.proper hfollows hnone, dropGap_spaced, h.ungapped (List.cons_ne_nil r rs), htrim,
        String.ofList_toList]

/-- A notice is **canonical** when its years have four digits, or are a word
for an open range, and the first characters of its trimmed holder are neither
a separator of years nor a year, nor announce a notice in front of it. -/
structure IsCanonical (n : Notice) : Prop where
  proper : ∀ r ∈ n.years, r.IsProper
  trimmed : trimmed n.holder = n.holder
  apart : ∀ c ∈ n.holder.toList.head?, c ≠ ',' ∧ c ≠ '-' ∧ c ≠ '–'
  undated : takeYearRange? n.holder.toList = none
  unannounced : n.years = [] → dropAnnouncement? n.holder.toList = none

-- The first character is tested, so that no search over all characters decides this.
theorem isCanonical_iff {n : Notice} :
    n.IsCanonical ↔
      (∀ r ∈ n.years, r.IsProper) ∧ Text.trimmed n.holder = n.holder ∧
        (n.holder.toList.head?.all fun c => c ≠ ',' ∧ c ≠ '-' ∧ c ≠ '–') = true ∧
        takeYearRange? n.holder.toList = none ∧
        (n.years = [] → dropAnnouncement? n.holder.toList = none) := by
  rw [Option.all_eq_true]
  simp only [decide_eq_true_eq]
  constructor
  · intro ⟨hproper, htrimmed, hapart, hundated, hplain⟩
    exact ⟨hproper, htrimmed, hapart, hundated, hplain⟩
  · intro ⟨hproper, htrimmed, hapart, hundated, hplain⟩
    exact ⟨hproper, htrimmed, hapart, hundated, hplain⟩

instance (n : Notice) : Decidable n.IsCanonical :=
  decidable_of_iff' _ isCanonical_iff

theorem IsCanonical.isLegible {n : Notice} (h : n.IsCanonical) : n.IsLegible := by
  have hholder : IsTrimmed n.holder.toList :=
    trim_eq_self_iff.1 (trim_toList_of_trimmed h.trimmed)
  have hgap : dropGap n.holder.toList = n.holder.toList := by
    cases hcs : n.holder.toList with
    | nil => rfl
    | cons c cs =>
        have hblank : isBlank c = false := hholder.head c (by simp [hcs])
        have hcomma : c ≠ ',' := (h.apart c (by simp [hcs])).1
        exact List.dropWhile_cons_of_neg (by simp [isYearGap, hblank, hcomma])
  have hdash : takeRangeEnd? n.holder.toList = none := by
    rw [takeRangeEnd?, trimLeft_eq_self hholder.head]
    cases hcs : n.holder.toList with
    | nil => rfl
    | cons c cs =>
        obtain ⟨-, hhyphen, hrule⟩ := h.apart c (by simp [hcs])
        simp [dropDash?, hhyphen, hrule]
  have hundated : takeYearRange? (dropGap n.holder.toList) = none := by
    rw [hgap]
    exact h.undated
  exact ⟨h.proper, h.trimmed, h.unannounced, fun _ => hgap, hundated, fun _ _ _ => hdash⟩

/-- **Reading undoes writing**: a canonical notice, with any number of years,
is what is read from its stored form. -/
theorem parse_render {n : Notice} (h : n.IsCanonical) : parse n.render = n :=
  parse_render_of_isLegible h.isLegible

/-- A notice with ranges of every kind, whose holder looks like a notice of
its own. -/
def mixed : Notice :=
  ⟨[⟨2017, none⟩, ⟨1999, some (.year 1000)⟩, ⟨2020, some (.word "Now")⟩, ⟨9999, none⟩],
    "© (C) 2021 Jane Doe, 20-21"⟩

theorem parse_render_mixed :
    mixed.IsCanonical ∧
      parse "2017, 1999-1000, 2020-Now, 9999 © (C) 2021 Jane Doe, 20-21" = mixed := by
  have hcanonical : mixed.IsCanonical := by decide +kernel
  have hrender : mixed.render = "2017, 1999-1000, 2020-Now, 9999 © (C) 2021 Jane Doe, 20-21" := by
    decide +kernel
  have hparse := parse_render hcanonical
  rw [hrender] at hparse
  exact ⟨hcanonical, hparse⟩

end Notice

end LicenseAudit
