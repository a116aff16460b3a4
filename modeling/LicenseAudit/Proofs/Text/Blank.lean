import LicenseAudit.Text.Blank
import Mathlib.Data.List.DropRight

/-!
# Trimmed texts

A text is **trimmed** when it neither starts nor ends with a blank; these are
the texts that trimming leaves as they are (`trim_eq_self_iff`), and the
texts that it gives (`isTrimmed_trim`).  What is left of a trimmed text when
something is taken off its start is trimmed on the right.
-/

namespace LicenseAudit.Text

variable {c : Char} {cs rest : List Char}

theorem any_eq_false_iff {p : Char → Bool} : cs.any p = false ↔ ∀ c ∈ cs, p c = false := by
  simp

/-- Letters are no blanks. -/
theorem isBlank_eq_false_of_isAlpha (h : c.isAlpha = true) : isBlank c = false := by
  change (decide (65 ≤ c.val ∧ c.val ≤ 90) || decide (97 ≤ c.val) && decide (c.val ≤ 122)) =
    true at h
  simp only [Bool.or_eq_true, Bool.and_eq_true, decide_eq_true_eq, UInt32.le_iff_toNat_le] at h
  change (65 ≤ c.toNat ∧ c.toNat ≤ 90) ∨ 97 ≤ c.toNat ∧ c.toNat ≤ 122 at h
  simp only [isBlank, Bool.or_eq_false_iff, Bool.and_eq_false_iff, decide_eq_false_iff_not,
    beq_eq_false_iff_ne]
  omega

/-- A text that neither starts nor ends with a blank. -/
structure IsTrimmed (cs : List Char) : Prop where
  head : ∀ c ∈ cs.head?, isBlank c = false
  last : ∀ c ∈ cs.getLast?, isBlank c = false

theorem trimLeft_eq_self (h : ∀ c ∈ cs.head?, isBlank c = false) : trimLeft cs = cs := by
  cases cs with
  | nil => rfl
  | cons c cs => exact List.dropWhile_cons_of_neg (by simp [h c rfl])

theorem trimRight_eq_self (h : ∀ c ∈ cs.getLast?, isBlank c = false) : trimRight cs = cs := by
  apply List.rdropWhile_eq_self_iff.2
  intro hne
  simp [h (cs.getLast hne) (List.getLast?_eq_some_getLast hne)]

theorem head?_trimLeft (cs : List Char) : ∀ c ∈ (trimLeft cs).head?, isBlank c = false := by
  intro c hc
  have hnot := List.head?_dropWhile_not isBlank cs
  rw [trimLeft] at hc
  rwa [Option.mem_def.1 hc] at hnot

theorem getLast?_trimRight (cs : List Char) :
    ∀ c ∈ (trimRight cs).getLast?, isBlank c = false := by
  intro c hc
  rw [trimRight, List.getLast?_reverse] at hc
  exact head?_trimLeft cs.reverse c hc

/-- What trimming gives is trimmed. -/
theorem isTrimmed_trim (cs : List Char) : IsTrimmed (trim cs) := by
  constructor
  · intro c hc
    have hprefix : trim cs <+: trimLeft cs := List.rdropWhile_prefix isBlank (trimLeft cs)
    have hstart := List.singleton_prefix_iff_head?_eq_some.2 hc
    exact head?_trimLeft cs c (List.singleton_prefix_iff_head?_eq_some.1 (hstart.trans hprefix))
  · exact getLast?_trimRight (trimLeft cs)

/-- The blanks that are trimmed off the start of a text. -/
theorem exists_append_trimLeft (cs : List Char) :
    ∃ blanks, (∀ c ∈ blanks, isBlank c = true) ∧ cs = blanks ++ trimLeft cs :=
  ⟨cs.takeWhile isBlank, fun _ => List.mem_takeWhile_imp, List.takeWhile_append_dropWhile.symm⟩

/-- The blanks that are trimmed off the end of a text. -/
theorem exists_trimRight_append (cs : List Char) :
    ∃ blanks, (∀ c ∈ blanks, isBlank c = true) ∧ cs = trimRight cs ++ blanks :=
  ⟨cs.rtakeWhile isBlank, fun _ => List.mem_rtakeWhile_imp,
    List.rdropWhile_append_rtakeWhile.symm⟩

theorem length_trim_le (cs : List Char) : (trim cs).length ≤ cs.length := by
  have hright : trim cs <+: trimLeft cs := List.rdropWhile_prefix isBlank (trimLeft cs)
  have hleft : trimLeft cs <:+ cs := List.dropWhile_suffix isBlank
  exact hright.length_le.trans hleft.length_le

/-- Trimming leaves the trimmed texts as they are, and no others. -/
theorem trim_eq_self_iff : trim cs = cs ↔ IsTrimmed cs := by
  constructor
  · intro h
    exact h ▸ isTrimmed_trim cs
  · intro h
    rw [trim, trimLeft_eq_self h.head, trimRight_eq_self h.last]

/-- Nothing is left exactly of the texts without anything but blanks. -/
theorem trim_eq_nil_iff : trim cs = [] ↔ ∀ c ∈ cs, isBlank c = true := by
  constructor
  · intro h
    have hall : ∀ c ∈ trimLeft cs, isBlank c = true := List.rdropWhile_eq_nil_iff.1 h
    cases hleft : trimLeft cs with
    | nil => exact List.dropWhile_eq_nil_iff.1 hleft
    | cons c rest =>
        have hblank := hall c (by simp [hleft])
        rw [head?_trimLeft cs c (by simp [hleft])] at hblank
        cases hblank
  · intro h
    rw [trim, trimLeft, List.dropWhile_eq_nil_iff.2 h]
    rfl

theorem trim_cons_of_isBlank (hc : isBlank c = true) (cs : List Char) :
    trim (c :: cs) = trim cs := by
  rw [trim, trimLeft, List.dropWhile_cons_of_pos hc, trim, trimLeft]

theorem trim_cons_ne_nil (hc : isBlank c = false) (cs : List Char) : trim (c :: cs) ≠ [] := by
  intro h
  rw [trim_eq_nil_iff.1 h c List.mem_cons_self] at hc
  cases hc

/-- The end of a trimmed text is trimmed when it does not start with a blank. -/
theorem IsTrimmed.of_isSuffix (h : IsTrimmed cs) (hsuffix : rest <:+ cs)
    (hhead : ∀ c ∈ rest.head?, isBlank c = false) : IsTrimmed rest := by
  refine ⟨hhead, fun c hc => h.last c ?_⟩
  have hend := List.singleton_suffix_iff_getLast?_eq_some.2 hc
  exact List.singleton_suffix_iff_getLast?_eq_some.1 (hend.trans hsuffix)

/-- What stands between two trimmed texts is not at an end. -/
theorem IsTrimmed.append {front back : List Char} (hfront : IsTrimmed front)
    (hback : IsTrimmed back) (hne : front ≠ []) (hne' : back ≠ []) (middle : List Char) :
    IsTrimmed (front ++ (middle ++ back)) := by
  constructor
  · rw [List.head?_append_of_ne_nil _ hne]
    exact hfront.head
  · rw [← List.append_assoc, List.getLast?_append_of_ne_nil _ hne']
    exact hback.last

/-- A character stays as it is but before the line feed that it belongs to. -/
theorem unixText_cons (h : c = '\r' → cs.head? ≠ some '\n') :
    unixText (c :: cs) = c :: unixText cs := by
  refine unixText.eq_3 c cs fun rest hc hcs => ?_
  exact h hc (by rw [hcs]; rfl)

theorem unixText_of_not_mem (h : '\n' ∉ cs) : unixText cs = cs := by
  induction cs with
  | nil => rfl
  | cons c cs ih =>
      have hcs : '\n' ∉ cs := fun hmem => h (List.mem_cons_of_mem c hmem)
      rw [unixText_cons fun _ hhead => hcs (List.mem_of_head? hhead), ih hcs]

end LicenseAudit.Text
