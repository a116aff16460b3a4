import LicenseAudit.Proofs.Text.Search
import LicenseAudit.Tag.Closer
import Mathlib.Data.List.TakeWhile

/-!
# Closers at the end of a value

No closer is the end of another closer, so a text ends with one closer at
most and it makes no difference in which order the closers are tried
(`dropCloser?_eq_some_iff`).  As no closer has a blank in it either, closers
and blanks in any number and any order are taken off the end of a value as
they were put there: `stripClosers_append`.
-/

namespace LicenseAudit.Tag

open Text

/-- Text that only **closes** comments: closers and blanks, one after the
other. -/
inductive IsClosing : List Char → Prop
  | nil : IsClosing []
  | blank {cs : List Char} {c : Char} (h : IsClosing cs) (hc : isBlank c = true) :
      IsClosing (cs ++ [c])
  | closer {cs closer : List Char} (h : IsClosing cs) (hcloser : closer ∈ commentClosers) :
      IsClosing (cs ++ closer)

variable {cs rest closer : List Char}

theorem isBlank_of_mem_closer :
    ∀ closer ∈ commentClosers, ∀ c ∈ closer, isBlank c = false := by
  simp [commentClosers, isBlank]

theorem closer_ne_nil (h : closer ∈ commentClosers) : closer ≠ [] := by
  rintro rfl
  simp [commentClosers] at h

/-- No closer is the end of another. -/
theorem eq_of_closer_isSuffix :
    ∀ a ∈ commentClosers, ∀ b ∈ commentClosers, a <:+ b → a = b := by
  decide +kernel

/-- The characters of closing text. -/
theorem IsClosing.forall_mem {P : Char → Prop} (h : IsClosing cs)
    (hblank : ∀ c, isBlank c = true → P c)
    (hcloser : ∀ closer ∈ commentClosers, ∀ c ∈ closer, P c) : ∀ c ∈ cs, P c := by
  induction h with
  | nil => exact List.forall_mem_nil P
  | blank h hc ih =>
      intro d hd
      rcases List.mem_append.1 hd with hd | hd
      · exact ih d hd
      · exact hblank d (List.mem_singleton.1 hd ▸ hc)
  | closer h hmem ih =>
      intro d hd
      rcases List.mem_append.1 hd with hd | hd
      · exact ih d hd
      · exact hcloser _ hmem d hd

/-- One closer is taken off, whichever the text ends with. -/
theorem dropCloser?_eq_some_iff :
    dropCloser? cs = some rest ↔ ∃ closer ∈ commentClosers, cs = rest ++ closer := by
  constructor
  · intro h
    obtain ⟨closer, hcloser, hdrop⟩ := List.exists_of_findSome?_eq_some h
    exact ⟨closer, hcloser, dropEnd?_eq_some_iff.1 hdrop⟩
  · rintro ⟨closer, hcloser, hcs⟩
    have hsome : (dropCloser? cs).isSome = true :=
      List.findSome?_isSome_iff.2 ⟨closer, hcloser, isSome_dropEnd?_iff.2 ⟨rest, hcs⟩⟩
    obtain ⟨rest', hrest'⟩ := Option.isSome_iff_exists.1 hsome
    obtain ⟨closer', hcloser', hdrop⟩ := List.exists_of_findSome?_eq_some hrest'
    have hcs' := dropEnd?_eq_some_iff.1 hdrop
    -- Of two closers at one end the shorter is the end of the longer.
    have heq : closer = closer' := by
      rcases List.suffix_or_suffix_of_suffix ⟨rest, hcs.symm⟩ ⟨rest', hcs'.symm⟩ with h | h
      · exact eq_of_closer_isSuffix closer hcloser closer' hcloser' h
      · exact (eq_of_closer_isSuffix closer' hcloser' closer hcloser h).symm
    subst heq
    rw [hrest', List.append_cancel_right (hcs'.symm.trans hcs)]

theorem dropCloser?_eq_none_iff :
    dropCloser? cs = none ↔ ∀ closer ∈ commentClosers, ¬ closer <:+ cs := by
  rw [Option.eq_none_iff_forall_ne_some]
  constructor
  · rintro h closer hcloser ⟨rest, hcs⟩
    exact h rest (dropCloser?_eq_some_iff.2 ⟨closer, hcloser, hcs.symm⟩)
  · intro h rest hrest
    obtain ⟨closer, hcloser, hcs⟩ := dropCloser?_eq_some_iff.1 hrest
    exact h closer hcloser ⟨rest, hcs.symm⟩

theorem dropClosers_of_none (h : dropCloser? cs = none) : dropClosers cs = cs := by
  rw [dropClosers]
  split
  · rfl
  · next hsome => rw [h] at hsome; cases hsome

theorem dropClosers_of_some (h : dropCloser? cs = some rest) :
    dropClosers cs = dropClosers (trimRight rest) := by
  rw [dropClosers]
  split
  · next hnone => rw [h] at hnone; cases hnone
  · next hsome =>
      rw [h] at hsome
      cases hsome
      rfl

theorem trimLeft_append_of_blank {gap : List Char} (hgap : ∀ c ∈ gap, isBlank c = true)
    (cs : List Char) : trimLeft (gap ++ cs) = trimLeft cs :=
  List.dropWhile_append_of_pos hgap

theorem trimRight_append_singleton {c : Char} (hc : isBlank c = true) (cs : List Char) :
    trimRight (cs ++ [c]) = trimRight cs := by
  simp [trimRight, hc]

/-- A blank at the end is trimmed. -/
theorem trim_append_singleton {c : Char} (hc : isBlank c = true) (cs : List Char) :
    trim (cs ++ [c]) = trim cs := by
  cases hleft : trimLeft cs with
  | nil =>
      have hcs : ∀ d ∈ cs, isBlank d = true := List.dropWhile_eq_nil_iff.1 hleft
      rw [trim, trimLeft_append_of_blank hcs, trim, hleft]
      simp [trimLeft, trimRight, hc]
  | cons d ds =>
      have hsplit : trimLeft (cs ++ [c]) = trimLeft cs ++ [c] := by
        rw [trimLeft, List.dropWhile_append, ← trimLeft, hleft]
        rfl
      rw [trim, hsplit, trimRight_append_singleton hc, trim]

/-- A closer at the end of a text ends the trimmed text as well. -/
theorem trim_append_closer (h : closer ∈ commentClosers) (cs : List Char) :
    trim (cs ++ closer) = trimLeft cs ++ closer := by
  have hblank := isBlank_of_mem_closer closer h
  obtain ⟨others, last, rfl⟩ := (List.eq_nil_or_concat' closer).resolve_left (closer_ne_nil h)
  have hlast : isBlank last = false := hblank last (by simp)
  have hleft : trimLeft (cs ++ (others ++ [last])) = trimLeft cs ++ (others ++ [last]) := by
    have hkeep : trimLeft (others ++ [last]) = others ++ [last] := by
      cases others with
      | nil => simp [trimLeft, hlast]
      | cons d ds => simp [trimLeft, hblank d (by simp)]
    rw [trimLeft, List.dropWhile_append, ← trimLeft, ← trimLeft, hkeep]
    split
    · next hnil => simp [List.isEmpty_iff.1 hnil]
    · rfl
  rw [trim, hleft, trimRight]
  simp [hlast]

/-- Closing text at the end of a value makes no difference to what is left
of the value. -/
theorem stripClosers_append (cs : List Char) {ending : List Char} (h : IsClosing ending) :
    stripClosers (cs ++ ending) = stripClosers cs := by
  induction h with
  | nil => rw [List.append_nil]
  | blank h hc ih =>
      rw [← List.append_assoc, stripClosers, trim_append_singleton hc, ← stripClosers, ih]
  | @closer ending closer h hcloser ih =>
      have hdrop : dropCloser? (trimLeft (cs ++ ending) ++ closer) =
          some (trimLeft (cs ++ ending)) :=
        dropCloser?_eq_some_iff.2 ⟨closer, hcloser, rfl⟩
      rw [← List.append_assoc, stripClosers, trim_append_closer hcloser, dropClosers_of_some hdrop,
        ← trim, ← stripClosers, ih]

end LicenseAudit.Tag
