/-!
# License expressions

An expression combines licenses: a single license, perhaps in any later
version too; a license with an exception attached; a conjunction, all of
whose parts apply; or a disjunction, of which one may be chosen.  The
**atoms** of an expression are the identifiers it mentions, each with the
part it plays.
-/

namespace LicenseAudit

/-- A single license; `orLater` admits later versions as well. -/
structure License where
  id : String
  orLater : Bool
  deriving DecidableEq, Repr

/-- A license expression. -/
inductive Expression where
  | license (license : License)
  | withException (license : License) (exception : String)
  | both (left right : Expression)
  | either (left right : Expression)
  deriving DecidableEq, Repr

/-- What an identifier names in an expression. -/
inductive Role where
  | license
  | exception
  deriving DecidableEq, Repr

/-- One occurrence of an identifier in an expression. -/
structure Atom where
  id : String
  role : Role
  orLater : Bool
  deriving DecidableEq, Repr

/-- The atom of a single license. -/
def License.atom (l : License) : Atom :=
  ⟨l.id, .license, l.orLater⟩

namespace Expression

/-- The license of an expression that is a single license. -/
def single? : Expression → Option License
  | .license l => some l
  | _ => none

/-- Anything but a single license is compound. -/
def isCompound (e : Expression) : Bool :=
  e.single?.isNone

/-- The occurrences of identifiers, from left to right. -/
def atoms : Expression → List Atom
  | .license l => [l.atom]
  | .withException l exception => [l.atom, ⟨exception, .exception, false⟩]
  | .both left right => left.atoms ++ right.atoms
  | .either left right => left.atoms ++ right.atoms

end Expression

end LicenseAudit
