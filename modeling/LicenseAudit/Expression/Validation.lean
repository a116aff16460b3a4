import LicenseAudit.Catalog
import LicenseAudit.Expression.Reading
import LicenseAudit.Text.Order

/-!
# Validating expressions

A **validation** says whether a text is an expression and, if so, which
identifiers it mentions and what the catalog knows about each.  Every pair
of a role and an identifier is reported once, in the order of identifiers
with exceptions before licenses of the same name.

A **validator** remembers the validations it has made, so that a text that
many files carry is read once; what it answers is always what `validate`
says.
-/

namespace LicenseAudit

open Text

/-- What the catalog says about an atom. -/
inductive Standing where
  | valid
  | deprecated
  | unrecognized
  deriving DecidableEq, Repr

/-- An identifier of an expression in one role, with its standing. -/
structure AtomDetail where
  id : String
  role : Role
  standing : Standing
  deriving DecidableEq, Repr

/-- The findings about one text: an error, or the form and the atoms of
the expression it spells. -/
structure Validation where
  text : String
  error : Option Expression.SyntaxError
  isCompound : Bool
  details : List AtomDetail
  deriving DecidableEq, Repr

/-- Whether the text is an expression. -/
def Validation.parsed (v : Validation) : Bool :=
  v.error.isNone

/-- The identifiers that occur, in ascending order. -/
def Validation.atoms (v : Validation) : List String :=
  sortedUnique (v.details.map (·.id))

/-- The standing of an atom.  A license that admits later versions is
deprecated also when its identifier with a plus sign is. -/
def Catalog.standing (catalog : Catalog) (a : Atom) : Standing :=
  match a.role with
  | .exception => if catalog.isException a.id then .valid else .unrecognized
  | .license =>
    if isReference a.id then .valid
    else if catalog.isDeprecated a.id || (a.orLater && catalog.isDeprecated (a.id ++ "+")) then
      .deprecated
    else if catalog.isLicense a.id then .valid
    else .unrecognized

/-- The order of details: by identifier, exceptions first. -/
def AtomDetail.order (a b : AtomDetail) : Ordering :=
  (unitOrder a.id b.id).then <|
    match a.role, b.role with
    | .exception, .license => .lt
    | .license, .exception => .gt
    | _, _ => .eq

/-- Puts a detail at its place, replacing one for the same identifier and
role. -/
def AtomDetail.insert (d : AtomDetail) : List AtomDetail → List AtomDetail
  | [] => [d]
  | e :: es =>
    match d.order e with
    | .lt => d :: e :: es
    | .eq => d :: es
    | .gt => e :: d.insert es

/-- The details of a list of atoms: of several atoms for one identifier
and role the first decides. -/
def Catalog.details (catalog : Catalog) (atoms : List Atom) : List AtomDetail :=
  atoms.foldr (fun a ds => AtomDetail.insert ⟨a.id, a.role, catalog.standing a⟩ ds) []

/-- The validation of a text. -/
def Catalog.validate (catalog : Catalog) (text : String) : Validation :=
  match Expression.parse text with
  | .error e => ⟨text, some e, false, []⟩
  | .ok e => ⟨text, none, e.isCompound, catalog.details e.atoms⟩

/-- A catalog and the validations made with it so far. -/
structure Validator where
  catalog : Catalog
  memory : List (String × Validation)

namespace Validator

/-- A validator that has made no validation. -/
def new (catalog : Catalog) : Validator :=
  ⟨catalog, []⟩

/-- The validation remembered for a text. -/
def remembered? (v : Validator) (text : String) : Option Validation :=
  v.memory.lookup text

/-- The validation of a text, and the validator that remembers it. -/
def validate (v : Validator) (text : String) : Validation × Validator :=
  match v.remembered? text with
  | some known => (known, v)
  | none =>
    let found := v.catalog.validate text
    (found, { v with memory := (text, found) :: v.memory })

end Validator

end LicenseAudit
