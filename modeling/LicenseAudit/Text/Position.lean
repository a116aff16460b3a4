import LicenseAudit.Text.Units

/-!
# Places in a text

A place is told by its line and its column, both counted from one, the
column in 16-bit units.  A carriage return and the line feed after it end
one line.
-/

namespace LicenseAudit.Text

/-- A place in a text: its line, and its column in the line, both counted
from one. -/
structure Position where
  line : Nat
  column : Nat
  deriving DecidableEq, Repr

/-- The place after one more character. -/
def Position.after (p : Position) (c : Char) : Position :=
  if c = '\n' ∨ c = '\r' then ⟨p.line + 1, 1⟩ else ⟨p.line, p.column + width c⟩

/-- The place at the end of a text. -/
def Position.atEnd (p : Position) : List Char → Position
  | [] => p
  | '\r' :: '\n' :: cs => (p.after '\n').atEnd cs
  | c :: cs => (p.after c).atEnd cs

end LicenseAudit.Text
