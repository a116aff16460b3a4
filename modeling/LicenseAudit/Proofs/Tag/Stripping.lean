import LicenseAudit.Proofs.Tag.Closer
import LicenseAudit.Proofs.Text.Blank

/-!
# What is left of a value

A value is **stripped** to the start of it that ends with neither a blank nor
a closer and is followed by these alone.  There is one such start, however many
closers are stacked at the end of the value, and `stripClosers` finds it:
`isStripped_iff`.  So it makes no difference in which order the closers are
tried, from the first cut to the last, and nothing is left to be cut on a
second pass: `stripClosers_determined`.
-/

namespace LicenseAudit.Tag

open Text

variable {cs rest : List Char}

/-- A value is **stripped** to a start of it that ends with neither a blank nor
a closer, when closing text is all that follows. -/
structure IsStripped (cs rest : List Char) : Prop where
  closed : ∃ ending, IsClosing ending ∧ trim cs = rest ++ ending
  last : ∀ c ∈ rest.getLast?, isBlank c = false
  bare : ∀ closer ∈ commentClosers, ¬ closer <:+ rest

/-- Cutting a text, with the closers tried in the order of a list: the first
that the text ends with is taken off with the blanks before it, until there is
none. -/
inductive Strips (closers : List (List Char)) : List Char → List Char → Prop
  | done {cs : List Char} (h : closers.findSome? (dropEnd? · cs) = none) : Strips closers cs cs
  | cut {cs before rest : List Char} (h : closers.findSome? (dropEnd? · cs) = some before)
      (hmore : Strips closers (trimRight before) rest) : Strips closers cs rest

theorem IsClosing.append {a b : List Char} (ha : IsClosing a) (hb : IsClosing b) :
    IsClosing (a ++ b) := by
  induction hb with
  | nil => rwa [List.append_nil]
  | blank _ hc ih =>
      rw [← List.append_assoc]
      exact ih.blank hc
  | closer _ hcloser ih =>
      rw [← List.append_assoc]
      exact ih.closer hcloser

theorem isClosing_of_blanks {gap : List Char} (h : ∀ c ∈ gap, isBlank c = true) :
    IsClosing gap := by
  induction gap using List.reverseRecOn with
  | nil => exact .nil
  | append_singleton gap c ih =>
      have hgap : IsClosing gap := ih fun d hd => h d (List.mem_append_left _ hd)
      exact hgap.blank (h c (by simp))

theorem isClosing_closer {closer : List Char} (h : closer ∈ commentClosers) :
    IsClosing closer :=
  IsClosing.nil.closer h

/-- Closing text is all that is cut off a text, and none of it is left. -/
theorem dropClosers_spec (h : ∀ c ∈ cs.getLast?, isBlank c = false) :
    (∃ ending, IsClosing ending ∧ cs = dropClosers cs ++ ending) ∧
      (∀ c ∈ (dropClosers cs).getLast?, isBlank c = false) ∧
      ∀ closer ∈ commentClosers, ¬ closer <:+ dropClosers cs := by
  fun_induction dropClosers cs with
  | case1 cs hnone =>
      exact ⟨⟨[], .nil, (List.append_nil cs).symm⟩, h, dropCloser?_eq_none_iff.1 hnone⟩
  | case2 cs before hsome ih =>
      obtain ⟨⟨ending, hending, hbefore⟩, hlast, hbare⟩ := ih (getLast?_trimRight before)
      obtain ⟨closer, hcloser, hcs⟩ := dropCloser?_eq_some_iff.1 hsome
      obtain ⟨gap, hgap, hsplit⟩ := exists_trimRight_append before
      refine ⟨⟨ending ++ gap ++ closer, ?_, ?_⟩, hlast, hbare⟩
      · exact (hending.append (isClosing_of_blanks hgap)).append (isClosing_closer hcloser)
      · calc cs = trimRight before ++ gap ++ closer := by rw [hcs, ← hsplit]
          _ = dropClosers (trimRight before) ++ ending ++ gap ++ closer := by rw [← hbefore]
          _ = dropClosers (trimRight before) ++ (ending ++ gap ++ closer) := by
              simp only [List.append_assoc]

theorem isStripped_stripClosers (cs : List Char) : IsStripped cs (stripClosers cs) := by
  obtain ⟨hclosed, hlast, hbare⟩ := dropClosers_spec (isTrimmed_trim cs).last
  exact ⟨hclosed, hlast, hbare⟩

/-- What is left has no blanks around it. -/
theorem IsStripped.trim_eq_self (h : IsStripped cs rest) : trim rest = rest := by
  obtain ⟨⟨ending, -, hsplit⟩, hlast, -⟩ := h
  refine trim_eq_self_iff.2 ⟨fun c hc => ?_, hlast⟩
  apply (isTrimmed_trim cs).head c
  have hstart : [c] <+: rest := List.singleton_prefix_iff_head?_eq_some.2 hc
  rw [hsplit]
  exact List.singleton_prefix_iff_head?_eq_some.1 (hstart.trans (List.prefix_append rest ending))

/-- Nothing is taken off what is left. -/
theorem IsStripped.stripClosers_eq_self (h : IsStripped cs rest) : stripClosers rest = rest := by
  rw [stripClosers, h.trim_eq_self]
  exact dropClosers_of_none (dropCloser?_eq_none_iff.2 h.bare)

/-- There is one start that a value is stripped to. -/
theorem isStripped_iff : IsStripped cs rest ↔ rest = stripClosers cs := by
  constructor
  · intro h
    obtain ⟨ending, hending, hsplit⟩ := h.closed
    have htrim : trim (trim cs) = trim cs := trim_eq_self_iff.2 (isTrimmed_trim cs)
    calc rest = stripClosers rest := h.stripClosers_eq_self.symm
      _ = stripClosers (rest ++ ending) := (stripClosers_append rest hending).symm
      _ = stripClosers (trim cs) := by rw [hsplit]
      _ = stripClosers cs := by rw [stripClosers, htrim, stripClosers]
  · rintro rfl
    exact isStripped_stripClosers cs

/-- Whichever closer is tried first, the same one is found. -/
theorem findSome?_dropEnd?_eq {closers : List (List Char)} (h : closers.Perm commentClosers)
    (cs : List Char) : closers.findSome? (dropEnd? · cs) = dropCloser? cs := by
  cases hfound : closers.findSome? (dropEnd? · cs) with
  | some before =>
      obtain ⟨closer, hcloser, hdrop⟩ := List.exists_of_findSome?_eq_some hfound
      exact (dropCloser?_eq_some_iff.2
        ⟨closer, h.mem_iff.1 hcloser, dropEnd?_eq_some_iff.1 hdrop⟩).symm
  | none =>
      rw [List.findSome?_eq_none_iff] at hfound
      refine (dropCloser?_eq_none_iff.2 fun closer hcloser hsuffix => ?_).symm
      obtain ⟨before, hcs⟩ := hsuffix
      have hdrop : dropEnd? closer cs = some before := dropEnd?_eq_some_iff.2 hcs.symm
      rw [hfound closer (h.mem_iff.2 hcloser)] at hdrop
      cases hdrop

/-- Every order of the closers cuts a text to the same rest. -/
theorem strips_iff {closers : List (List Char)} (h : closers.Perm commentClosers) :
    Strips closers cs rest ↔ rest = dropClosers cs := by
  constructor
  · intro hstrips
    induction hstrips with
    | done hnone =>
        rw [findSome?_dropEnd?_eq h] at hnone
        exact (dropClosers_of_none hnone).symm
    | cut hsome _ ih =>
        rw [findSome?_dropEnd?_eq h] at hsome
        rw [ih, dropClosers_of_some hsome]
  · rintro rfl
    fun_induction dropClosers cs with
    | case1 cs hnone => exact .done (by rw [findSome?_dropEnd?_eq h, hnone])
    | case2 cs before hsome ih => exact .cut (by rw [findSome?_dropEnd?_eq h, hsome]) ih

/-- **What is left of a value is determined**: it is the only start of the
trimmed value that ends with neither a blank nor a closer and that closing text
alone follows; it is what cutting leaves in every order of the closers; and it
is left as it is. -/
theorem stripClosers_determined (cs : List Char) :
    (∀ rest, IsStripped cs rest ↔ rest = stripClosers cs) ∧
      (∀ closers, closers.Perm commentClosers →
        ∀ rest, Strips closers (trim cs) rest ↔ rest = stripClosers cs) ∧
      stripClosers (stripClosers cs) = stripClosers cs := by
  refine ⟨fun rest => isStripped_iff, fun closers h rest => ?_, ?_⟩
  · exact strips_iff h
  · exact (isStripped_stripClosers cs).stripClosers_eq_self

/-- Stacked closers that share their characters, tried from the last to the
first. -/
theorem strips_reverse_stacked :
    commentClosers.reverse.Perm commentClosers ∧
      stripClosers "\tMIT **/ *) *--> ".toList = "MIT".toList ∧
      Strips commentClosers.reverse (trim "\tMIT **/ *) *--> ".toList) "MIT".toList := by
  have hperm : commentClosers.reverse.Perm commentClosers := List.reverse_perm commentClosers
  have hrest : stripClosers "\tMIT **/ *) *--> ".toList = "MIT".toList := by decide +kernel
  obtain ⟨-, horder, -⟩ := stripClosers_determined "\tMIT **/ *) *--> ".toList
  exact ⟨hperm, hrest, (horder commentClosers.reverse hperm "MIT".toList).2 hrest.symm⟩

end LicenseAudit.Tag
