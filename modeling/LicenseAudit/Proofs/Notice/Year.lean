import LicenseAudit.Notice
import LicenseAudit.Proofs.Text.Search
import Mathlib.Data.List.Basic

/-!
# Years as they are written

A year of four digits is read back as it is written, and a year with fewer
digits is no year to a reader.  The same holds for ranges: one whose years all
have four digits is **proper** and is read back whole
(`takeYearRange?_render`), another is not read at all
(`takeYearRange?_render_eq_none`).  Proper ranges with commas between them are
read one after the other, up to the text that follows the last:
`takeYears_written`.
-/

namespace LicenseAudit

open Text

variable {c d : Char} {cs rest : List Char} {n : Nat}

theorem isBlank_eq_false_of_isDigit (h : c.isDigit = true) : isBlank c = false := by
  obtain ⟨hlow, hhigh⟩ := Char.isDigit_iff_toNat.1 h
  have hzero : '0'.toNat = 48 := rfl
  have hnine : '9'.toNat = 57 := rfl
  simp only [isBlank, Bool.or_eq_false_iff, Bool.and_eq_false_iff, decide_eq_false_iff_not,
    beq_eq_false_iff_ne]
  omega

theorem ne_of_isDigit (h : c.isDigit = true) (hd : d.isDigit = false) : c ≠ d := by
  intro hcd
  rw [hcd, hd] at h
  cases h

theorem isYearGap_eq_false_of_isDigit (h : c.isDigit = true) : isYearGap c = false := by
  have hcomma : c ≠ ',' := ne_of_isDigit h rfl
  simp [isYearGap, isBlank_eq_false_of_isDigit h, hcomma]

theorem dropGap_cons_of_isDigit (h : c.isDigit = true) (cs : List Char) :
    dropGap (c :: cs) = c :: cs :=
  List.dropWhile_cons_of_neg (by simp [isYearGap_eq_false_of_isDigit h])

theorem dropGap_append_of_gap {gap : List Char} (hgap : ∀ c ∈ gap, isYearGap c = true)
    (cs : List Char) : dropGap (gap ++ cs) = dropGap cs :=
  List.dropWhile_append_of_pos hgap

/-- A number is written with digits. -/
theorem exists_toDigits_eq_cons (n : Nat) :
    ∃ c cs, Nat.toDigits 10 n = c :: cs ∧ c.isDigit = true := by
  obtain ⟨c, cs, h⟩ := List.exists_cons_of_ne_nil (Nat.toDigits_ne_nil (n := n) (b := 10))
  have hc : c ∈ Nat.toDigits 10 n := h ▸ List.mem_cons_self
  exact ⟨c, cs, h, Nat.isDigit_of_mem_toDigits (by decide) (by decide) hc⟩

/-- A year has four digits. -/
def IsYear (n : Nat) : Prop :=
  1000 ≤ n ∧ n ≤ 9999

instance (n : Nat) : Decidable (IsYear n) :=
  inferInstanceAs (Decidable (_ ∧ _))

/-- What is read as a year are four digits, and their number. -/
theorem takeYear?_eq_some_iff :
    takeYear? cs = some (n, rest) ↔
      ∃ ds, ds.length = 4 ∧ (∀ d ∈ ds, d.isDigit = true) ∧ cs = ds ++ rest ∧
        Nat.ofDigitChars 10 ds 0 = n := by
  constructor
  · intro h
    unfold takeYear? at h
    split at h
    · next a b c d rest' =>
        split at h
        · next hdigits =>
            cases h
            simp only [Bool.and_eq_true] at hdigits
            obtain ⟨⟨⟨ha, hb⟩, hc⟩, hd⟩ := hdigits
            refine ⟨[a, b, c, d], rfl, by simp [ha, hb, hc, hd], rfl, ?_⟩
            rw [Nat.ofDigitChars_eq_foldl, numberOf]
        · cases h
    · cases h
  · rintro ⟨ds, hlength, hdigits, rfl, rfl⟩
    obtain ⟨a, b, c, d, rfl⟩ := List.length_eq_four.1 hlength
    have hall : (a.isDigit && b.isDigit && c.isDigit && d.isDigit) = true := by
      simp [hdigits]
    simp only [List.cons_append, List.nil_append, takeYear?]
    rw [if_pos hall, Nat.ofDigitChars_eq_foldl, numberOf]

/-- No year is above four nines. -/
theorem le_of_takeYear? (h : takeYear? cs = some (n, rest)) : n ≤ 9999 := by
  obtain ⟨ds, hlength, hdigits, -, rfl⟩ := takeYear?_eq_some_iff.1 h
  obtain ⟨a, b, c, d, rfl⟩ := List.length_eq_four.1 hlength
  have hbound (e : Char) (he : e ∈ [a, b, c, d]) : e.toNat - '0'.toNat ≤ 9 := by
    have hdigit := Char.isDigit_iff_toNat.1 (hdigits e he)
    have hzero : '0'.toNat = 48 := rfl
    have hnine : '9'.toNat = 57 := rfl
    omega
  have ha := hbound a (by simp)
  have hb := hbound b (by simp)
  have hc := hbound c (by simp)
  have hd := hbound d (by simp)
  simp only [Nat.ofDigitChars_cons, Nat.ofDigitChars_nil]
  omega

/-- A year with four digits is read back. -/
theorem takeYear?_toDigits (h : IsYear n) (rest : List Char) :
    takeYear? (Nat.toDigits 10 n ++ rest) = some (n, rest) := by
  obtain ⟨hlow, hhigh⟩ := h
  have hle : (Nat.toDigits 10 n).length ≤ 4 :=
    (Nat.length_toDigits_le_iff (by decide) (by decide)).2 (by omega)
  have hge : ¬ (Nat.toDigits 10 n).length ≤ 3 := by
    rw [Nat.length_toDigits_le_iff (by decide) (by decide)]
    omega
  refine takeYear?_eq_some_iff.2 ⟨Nat.toDigits 10 n, by omega, ?_, rfl, ?_⟩
  · intro d hd
    exact Nat.isDigit_of_mem_toDigits (by decide) (by decide) hd
  · exact Nat.ofDigitChars_ten_toDigits

/-- Fewer than four digits are no year. -/
theorem takeYear?_toDigits_eq_none (h : n < 1000)
    (hrest : ∀ c ∈ rest.head?, c.isDigit = false) :
    takeYear? (Nat.toDigits 10 n ++ rest) = none := by
  rw [Option.eq_none_iff_forall_ne_some]
  rintro ⟨m, rest'⟩ hsome
  obtain ⟨ds, hlength, hdigits, hsplit, -⟩ := takeYear?_eq_some_iff.1 hsome
  have hle : (Nat.toDigits 10 n).length ≤ 3 :=
    (Nat.length_toDigits_le_iff (by decide) (by decide)).2 (by omega)
  rcases List.append_eq_append_iff.1 hsplit with ⟨t, rfl, hr⟩ | ⟨t, ht, -⟩
  · -- The fourth digit is what follows the number.
    cases t with
    | nil =>
        rw [List.append_nil] at hlength
        omega
    | cons c t =>
        have hdigit : c.isDigit = true := hdigits c (by simp)
        rw [hrest c (by simp [hr])] at hdigit
        cases hdigit
  · have := congrArg List.length ht
    rw [List.length_append] at this
    omega

theorem takeYear?_cons_of_not_isDigit (h : c.isDigit = false) (cs : List Char) :
    takeYear? (c :: cs) = none := by
  rw [Option.eq_none_iff_forall_ne_some]
  rintro ⟨m, rest'⟩ hsome
  obtain ⟨ds, hlength, hdigits, hsplit, -⟩ := takeYear?_eq_some_iff.1 hsome
  cases ds with
  | nil => cases hlength
  | cons d ds =>
      obtain ⟨rfl, -⟩ := List.cons.inj hsplit
      rw [hdigits c (by simp)] at h
      cases h

/-- The end of a range is **proper** when it is a year or a word for an open
range. -/
def YearEnd.IsProper : YearEnd → Prop
  | .year n => IsYear n
  | .word w => w ∈ openWords

instance (e : YearEnd) : Decidable e.IsProper :=
  match e with
  | .year n => inferInstanceAs (Decidable (IsYear n))
  | .word w => inferInstanceAs (Decidable (w ∈ openWords))

/-- The end of a range as it is written. -/
def YearEnd.written : YearEnd → List Char
  | .year n => Nat.toDigits 10 n
  | .word w => w.toList

/-- An end starts with a digit or a letter. -/
theorem YearEnd.exists_written_eq_cons {e : YearEnd} (h : e.IsProper) :
    ∃ c cs, e.written = c :: cs ∧ isYearGap c = false ∧ c ≠ '-' := by
  cases e with
  | year m =>
      obtain ⟨c, cs, hcs, hc⟩ := exists_toDigits_eq_cons m
      exact ⟨c, cs, hcs, isYearGap_eq_false_of_isDigit hc, ne_of_isDigit hc rfl⟩
  | word w =>
      have hall : ∀ w ∈ openWords, ∃ c cs, w.toList = c :: cs ∧ isYearGap c = false ∧ c ≠ '-' := by
        simp [openWords, isYearGap, isBlank]
      exact hall w h

/-- A proper end is read back. -/
theorem takeYearEnd?_written {e : YearEnd} (h : e.IsProper) (rest : List Char) :
    takeYearEnd? (e.written ++ rest) = some (e, rest) := by
  cases e with
  | year m => rw [takeYearEnd?, YearEnd.written, takeYear?_toDigits h]
  | word w =>
      have hall : ∀ w ∈ openWords, takeYearEnd? (w.toList ++ rest) = some (.word w, rest) := by
        simp [openWords, takeYearEnd?, takeYear?_cons_of_not_isDigit, dropStart?]
      exact hall w h

/-- A number with fewer than four digits is no end. -/
theorem takeYearEnd?_toDigits_eq_none (h : n < 1000)
    (hrest : ∀ c ∈ rest.head?, c.isDigit = false) :
    takeYearEnd? (Nat.toDigits 10 n ++ rest) = none := by
  obtain ⟨d, ds, hds, hd⟩ := exists_toDigits_eq_cons n
  rw [takeYearEnd?, takeYear?_toDigits_eq_none h hrest, hds]
  have hletter (c : Char) (hc : c.isDigit = false) : c ≠ d := (ne_of_isDigit hd hc).symm
  simp [openWords, dropStart?, hletter]

/-- A dash directly before something else is one dash. -/
theorem takeRangeEnd?_dash (hc : isYearGap c = false) (hdash : c ≠ '-') (cs : List Char) :
    takeRangeEnd? ('-' :: c :: cs) =
      match takeYearEnd? (c :: cs) with
      | some (e, rest) => if endsYear rest then some (some e, rest) else none
      | none => none := by
  have hblank : isBlank c = false := by
    simp only [isYearGap, Bool.or_eq_false_iff] at hc
    exact hc.1
  have hafter : dropDash? ('-' :: c :: cs) = some (c :: cs) := by
    simp [dropDash?, hdash]
  have htrim : trimLeft (c :: cs) = c :: cs := List.dropWhile_cons_of_neg (by simp [hblank])
  have hends : endsYear (c :: cs) = false := hc
  rw [takeRangeEnd?, show trimLeft ('-' :: c :: cs) = '-' :: c :: cs from rfl, hafter]
  simp only [htrim, hends]
  cases takeYearEnd? (c :: cs) <;> rfl

/-- A range is **proper** when its years have four digits. -/
structure YearRange.IsProper (r : YearRange) : Prop where
  start : IsYear r.start
  ending : ∀ e ∈ r.ending, e.IsProper

instance (r : YearRange) : Decidable r.IsProper :=
  decidable_of_iff (IsYear r.start ∧ ∀ e ∈ r.ending, e.IsProper)
    ⟨fun ⟨hstart, hending⟩ => ⟨hstart, hending⟩, fun ⟨hstart, hending⟩ => ⟨hstart, hending⟩⟩

/-- The end of a range as it is written after its start. -/
def YearRange.tail (r : YearRange) : List Char :=
  match r.ending with
  | none => []
  | some e => '-' :: e.written

theorem YearRange.toList_render (r : YearRange) :
    r.render.toList = Nat.toDigits 10 r.start ++ r.tail := by
  obtain ⟨start, ending⟩ := r
  cases ending with
  | none => simp [render, tail]
  | some e => cases e <;> simp [render, tail, YearEnd.written]

/-- A proper range is read back whole before a text that ends a year and, when
the range has no end, does not give it one. -/
theorem takeYearRange?_render {r : YearRange} (h : r.IsProper) (hends : endsYear rest = true)
    (hopen : r.ending = none → takeRangeEnd? rest = none) :
    takeYearRange? (r.render.toList ++ rest) = some (r, rest) := by
  obtain ⟨start, ending⟩ := r
  rw [YearRange.toList_render, List.append_assoc, takeYearRange?, takeYear?_toDigits h.start]
  cases ending with
  | none => simp [YearRange.tail, hopen rfl, hends]
  | some e =>
      have he := h.ending e rfl
      obtain ⟨c, cs, hcs, hgap, hdash⟩ := e.exists_written_eq_cons he
      have hread := takeYearEnd?_written he rest
      simp only [YearRange.tail, hcs, List.cons_append] at hread ⊢
      rw [takeRangeEnd?_dash hgap hdash, hread]
      simp [hends]

/-- The end of a range that was read: a number of four digits at most, or a
word for an open range. -/
def YearEnd.IsBounded : YearEnd → Prop
  | .year n => n ≤ 9999
  | .word w => w ∈ openWords

/-- A range that was read has no number with more than four digits. -/
structure YearRange.IsBounded (r : YearRange) : Prop where
  start : r.start ≤ 9999
  ending : ∀ e ∈ r.ending, e.IsBounded

theorem YearEnd.IsProper.isBounded {e : YearEnd} (h : e.IsProper) : e.IsBounded := by
  cases e with
  | year n => exact And.right h
  | word w => exact h

theorem YearRange.IsProper.isBounded {r : YearRange} (h : r.IsProper) : r.IsBounded :=
  ⟨h.start.2, fun e he => (h.ending e he).isBounded⟩

theorem isSuffix_of_takeYear? (h : takeYear? cs = some (n, rest)) : rest <:+ cs := by
  obtain ⟨ds, -, -, rfl, -⟩ := takeYear?_eq_some_iff.1 h
  exact List.suffix_append ds rest

/-- The dashes between two years. -/
def dashes : List (List Char) :=
  [['-', '-'], ['-'], ['–']]

theorem dash_ne_nil {dash : List Char} (h : dash ∈ dashes) : dash ≠ [] := by
  rintro rfl
  simp [dashes] at h

theorem exists_append_of_dropDash? (h : dropDash? cs = some rest) :
    ∃ dash ∈ dashes, cs = dash ++ rest := by
  unfold dropDash? at h
  split at h <;> cases h
  · exact ⟨['-', '-'], by simp [dashes], rfl⟩
  · exact ⟨['-'], by simp [dashes], rfl⟩
  · exact ⟨['–'], by simp [dashes], rfl⟩

/-- An end that was read is bounded, and it is taken off the start. -/
theorem isBounded_of_takeYearEnd? {e : YearEnd} (h : takeYearEnd? cs = some (e, rest)) :
    e.IsBounded ∧ rest <:+ cs := by
  rw [takeYearEnd?] at h
  split at h
  · next hyear =>
      cases h
      exact ⟨le_of_takeYear? hyear, isSuffix_of_takeYear? hyear⟩
  · obtain ⟨w, hw, hread⟩ := List.exists_of_findSome?_eq_some h
    obtain ⟨rest', hdrop, hpair⟩ := Option.map_eq_some_iff.1 hread
    cases hpair
    rw [dropStart?_eq_some_iff] at hdrop
    exact ⟨hw, hdrop ▸ List.suffix_append _ rest⟩

/-- The end of a range is bounded, and it is taken off the start with a
dash. -/
theorem isBounded_of_takeRangeEnd? {ending : Option YearEnd}
    (h : takeRangeEnd? cs = some (ending, rest)) :
    (∀ e ∈ ending, e.IsBounded) ∧ ∃ c front, cs = c :: front ++ rest := by
  rw [takeRangeEnd?] at h
  split at h
  · cases h
  · next after hdash =>
      have happend (hsuffix : rest <:+ after) : ∃ c front, cs = c :: front ++ rest := by
        obtain ⟨blanks, hblanks⟩ := List.dropWhile_suffix isBlank (l := cs)
        obtain ⟨dash, hmem, hfront⟩ := exists_append_of_dropDash? hdash
        obtain ⟨c, front, rfl⟩ := List.exists_cons_of_ne_nil (dash_ne_nil hmem)
        obtain ⟨middle, rfl⟩ := hsuffix
        rw [trimLeft] at hfront
        rw [← hblanks, hfront]
        cases blanks with
        | nil => exact ⟨c, front ++ middle, by simp⟩
        | cons b blanks => exact ⟨b, blanks ++ c :: front ++ middle, by simp⟩
      split at h
      · next hread =>
          obtain ⟨hbounded, hsuffix⟩ := isBounded_of_takeYearEnd? hread
          split at h
          · cases h
            refine ⟨fun e he => ?_, happend (hsuffix.trans (List.dropWhile_suffix isBlank))⟩
            cases he
            exact hbounded
          · split at h <;> cases h
            exact ⟨nofun, happend List.suffix_rfl⟩
      · split at h <;> cases h
        exact ⟨nofun, happend List.suffix_rfl⟩

/-- A range that was read is bounded, and it is taken off the start. -/
theorem isBounded_of_takeYearRange? {r : YearRange} (h : takeYearRange? cs = some (r, rest)) :
    r.IsBounded ∧ rest <:+ cs := by
  rw [takeYearRange?] at h
  split at h
  · cases h
  · next hstart =>
      have hbound := le_of_takeYear? hstart
      have hafter := isSuffix_of_takeYear? hstart
      split at h
      · next hread =>
          cases h
          obtain ⟨hending, c, front, rfl⟩ := isBounded_of_takeRangeEnd? hread
          exact ⟨⟨hbound, hending⟩, (List.suffix_append (c :: front) _).trans hafter⟩
      · split at h <;> cases h
        exact ⟨⟨hbound, nofun⟩, hafter⟩

/-- There is no blank in a range as it is written. -/
theorem isBlank_eq_false_of_mem_render {r : YearRange} (h : r.IsBounded)
    (hc : c ∈ r.render.toList) : isBlank c = false := by
  have hdigits (n : Nat) (hn : c ∈ Nat.toDigits 10 n) : isBlank c = false :=
    isBlank_eq_false_of_isDigit (Nat.isDigit_of_mem_toDigits (by decide) (by decide) hn)
  obtain ⟨start, ending⟩ := r
  rw [YearRange.toList_render, List.mem_append] at hc
  rcases hc with hc | hc
  · exact hdigits start hc
  · cases ending with
    | none => cases hc
    | some e =>
        rcases List.mem_cons.1 hc with rfl | hc
        · rfl
        · cases e with
          | year n => exact hdigits n hc
          | word w =>
              have hall : ∀ w ∈ openWords, ∀ c ∈ w.toList, isBlank c = false := by
                simp [openWords, isBlank]
              exact hall w (h.ending _ rfl) c hc

/-- A range with a number of fewer than four digits is not read as one. -/
theorem takeYearRange?_render_eq_none {r : YearRange} (hb : r.IsBounded) (h : ¬ r.IsProper)
    (hrest : ∀ c ∈ rest.head?, c.isDigit = false) :
    takeYearRange? (r.render.toList ++ rest) = none := by
  obtain ⟨start, ending⟩ := r
  rw [YearRange.toList_render, List.append_assoc, takeYearRange?]
  by_cases hstart : 1000 ≤ start
  · have hyear : IsYear start := ⟨hstart, hb.start⟩
    rw [takeYear?_toDigits hyear]
    cases ending with
    | none => exact absurd ⟨hyear, nofun⟩ h
    | some e =>
        cases e with
        | word w =>
            have hword : w ∈ openWords := hb.ending _ rfl
            exact absurd ⟨hyear, by simpa [YearEnd.IsProper] using hword⟩ h
        | year m =>
            have hbound : m ≤ 9999 := hb.ending _ rfl
            have hm : m < 1000 := by
              by_contra hge
              exact h ⟨hyear, by simpa [YearEnd.IsProper, IsYear, hbound] using hge⟩
            obtain ⟨d, ds, hds, hd⟩ := exists_toDigits_eq_cons m
            have hnone := takeYearEnd?_toDigits_eq_none hm hrest
            simp only [YearRange.tail, YearEnd.written, hds, List.cons_append] at hnone ⊢
            rw [takeRangeEnd?_dash (isYearGap_eq_false_of_isDigit hd) (ne_of_isDigit hd rfl), hnone]
            rfl
  · have hhead : ∀ c ∈ ((⟨start, ending⟩ : YearRange).tail ++ rest).head?, c.isDigit = false := by
      cases ending with
      | none => exact hrest
      | some e => simp [YearRange.tail]
    rw [takeYear?_toDigits_eq_none (Nat.lt_of_not_le hstart) hhead]

theorem takeYears_cons {r : YearRange} {rs : List YearRange} {mid : List Char}
    (hread : takeYearRange? (dropGap cs) = some (r, mid)) (hrest : takeYears mid = (rs, rest)) :
    takeYears cs = (r :: rs, rest) := by
  rw [takeYears]
  split
  · next hnone => rw [hread] at hnone; cases hnone
  · next hsome =>
      rw [hread] at hsome
      cases hsome
      rw [hrest]

theorem takeYears_nil (hread : takeYearRange? (dropGap cs) = none) : takeYears cs = ([], cs) := by
  rw [takeYears]
  split
  · rfl
  · next hsome => rw [hread] at hsome; cases hsome

/-- Ranges with a comma before each. -/
def listed (rs : List YearRange) : List Char :=
  rs.flatMap fun r => ',' :: ' ' :: r.render.toList

theorem listed_cons_append (r : YearRange) (rs : List YearRange) (rest : List Char) :
    listed (r :: rs) ++ rest = ',' :: ' ' :: (r.render.toList ++ (listed rs ++ rest)) := by
  simp [listed]

/-- A text **follows** a range when it ends the range and, when the range has
no end, does not give it one. -/
structure Follows (r : YearRange) (rest : List Char) : Prop where
  ends : endsYear rest = true
  stays : r.ending = none → takeRangeEnd? rest = none

theorem follows_listed (r s : YearRange) (rs : List YearRange) (rest : List Char) :
    Follows r (listed (s :: rs) ++ rest) := by
  constructor
  · rfl
  · intro _
    rfl

/-- The gap before a range is dropped, and nothing of the range. -/
theorem dropGap_render (r : YearRange) {gap : List Char} (hgap : ∀ c ∈ gap, isYearGap c = true)
    (more : List Char) : dropGap (gap ++ (r.render.toList ++ more)) = r.render.toList ++ more := by
  obtain ⟨d, ds, hds, hd⟩ := exists_toDigits_eq_cons r.start
  rw [dropGap_append_of_gap hgap, YearRange.toList_render, hds, List.cons_append,
    List.cons_append, dropGap_cons_of_isDigit hd]

theorem dropGap_render_append (r : YearRange) (more : List Char) :
    dropGap (r.render.toList ++ more) = r.render.toList ++ more :=
  dropGap_render r (List.forall_mem_nil _) more

theorem dropGap_comma_render (r : YearRange) (more : List Char) :
    dropGap (',' :: ' ' :: (r.render.toList ++ more)) = r.render.toList ++ more := by
  have hgap : ∀ c ∈ [',', ' '], isYearGap c = true := by simp [isYearGap, isBlank]
  exact dropGap_render r hgap more

/-- Proper ranges are read one after the other, up to a text that follows the
last of them and goes on with no range. -/
theorem takeYears_written {r : YearRange} {rs : List YearRange} {gap : List Char}
    (hproper : ∀ s ∈ r :: rs, s.IsProper) (hgap : ∀ c ∈ gap, isYearGap c = true)
    (hfollows : ∀ last ∈ (r :: rs).getLast?, Follows last rest)
    (hnone : takeYearRange? (dropGap rest) = none) :
    takeYears (gap ++ (r.render.toList ++ (listed rs ++ rest))) = (r :: rs, rest) := by
  induction rs generalizing r gap with
  | nil =>
      have hr : r.IsProper := hproper r List.mem_cons_self
      obtain ⟨hends, hstays⟩ := hfollows r rfl
      apply takeYears_cons _ (takeYears_nil hnone)
      rw [dropGap_render r hgap]
      exact takeYearRange?_render hr hends hstays
  | cons s rs ih =>
      have hr : r.IsProper := hproper r List.mem_cons_self
      obtain ⟨hends, hstays⟩ := follows_listed r s rs rest
      have hmore : listed (s :: rs) ++ rest =
          [',', ' '] ++ (s.render.toList ++ (listed rs ++ rest)) := listed_cons_append s rs rest
      have hseparator : ∀ c ∈ [',', ' '], isYearGap c = true := by simp [isYearGap, isBlank]
      have hrest : takeYears (listed (s :: rs) ++ rest) = (s :: rs, rest) := by
        rw [hmore]
        apply ih (fun t ht => hproper t (List.mem_cons_of_mem r ht)) hseparator
        simpa using hfollows
      apply takeYears_cons _ hrest
      rw [dropGap_render r hgap]
      exact takeYearRange?_render hr hends hstays

end LicenseAudit
