import LicenseAudit.Text.Order

/-!
# Fields

The three kinds of lines that licensing information consists of.  `Fields`
holds the lines of all three, `lines` those of one, and `only` forgets the
other two.
-/

namespace LicenseAudit

open Text

/-- A kind of lines. -/
inductive Field where
  | copyrights
  | licenses
  | contributors
  deriving DecidableEq, Repr

/-- The kinds of lines, in their order. -/
def Field.all : List Field :=
  [.copyrights, .licenses, .contributors]

/-- The copyright, license and contributor lines that belong together. -/
structure Fields where
  copyrights : List String
  licenses : List String
  contributors : List String
  deriving DecidableEq, Repr

namespace Fields

/-- No lines at all. -/
def none : Fields :=
  ⟨[], [], []⟩

/-- The lines of one kind. -/
def lines (f : Fields) : Field → List String
  | .copyrights => f.copyrights
  | .licenses => f.licenses
  | .contributors => f.contributors

/-- Whether there are lines of a kind. -/
def has (f : Fields) (kind : Field) : Bool :=
  !(f.lines kind).isEmpty

/-- Whether there is any line. -/
def any (f : Fields) : Bool :=
  !f.copyrights.isEmpty || !f.licenses.isEmpty || !f.contributors.isEmpty

/-- The lines of one kind alone. -/
def only (f : Fields) : Field → Fields
  | .copyrights => { none with copyrights := f.copyrights }
  | .licenses => { none with licenses := f.licenses }
  | .contributors => { none with contributors := f.contributors }

/-- Every list in ascending order without repetitions. -/
def sorted (f : Fields) : Fields :=
  ⟨sortedUnique f.copyrights, sortedUnique f.licenses, sortedUnique f.contributors⟩

/-- The lines of several fields, kind by kind and in order, each line
once. -/
def union (fs : List Fields) : Fields :=
  ⟨(fs.flatMap copyrights).eraseDups, (fs.flatMap licenses).eraseDups,
    (fs.flatMap contributors).eraseDups⟩

/-- There is a line exactly if there is one of some kind. -/
theorem any_iff_exists_has {f : Fields} : f.any = true ↔ ∃ kind, f.has kind = true := by
  constructor
  · intro h
    simp only [any, Bool.or_eq_true] at h
    rcases h with (h | h) | h
    · exact ⟨.copyrights, h⟩
    · exact ⟨.licenses, h⟩
    · exact ⟨.contributors, h⟩
  · rintro ⟨kind, h⟩
    cases kind <;> simp_all [any, has, lines]

end Fields

end LicenseAudit
