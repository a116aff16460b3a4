import LicenseAudit.Text.Units

/-!
# The order of texts

Texts are sorted by their 16-bit units, so a character outside the first
plane comes before the characters from U+E000 to U+FFFF.  `unitOrder`
compares two texts that way without splitting any character, and
`sortedUnique` is the strictly ascending list of the values of a list.
-/

namespace LicenseAudit.Text

/-- The place of a character among characters sorted by their first unit
and then their second: the surrogate range stands before U+E000. -/
def unitRank (c : Char) : Nat :=
  if c.toNat < 0xE000 then c.toNat
  else if c.toNat < 0x10000 then c.toNat + 0x110000
  else c.toNat

/-- The order of two texts by their units. -/
def unitOrder (a b : String) : Ordering :=
  List.compareLex (compareOn unitRank) a.toList b.toList

/-- `a` comes strictly before `b`. -/
def Before (a b : String) : Prop :=
  unitOrder a b = .lt

instance : DecidableRel Before :=
  fun a b => inferInstanceAs (Decidable (unitOrder a b = .lt))

/-- Whether `a` comes before `b` or is the same. -/
def isAtMost (a b : String) : Bool :=
  unitOrder a b != .gt

/-- The list in the order of a text that goes with each value; values with
the same text keep their order. -/
def sortedOn (key : α → String) (values : List α) : List α :=
  values.mergeSort fun a b => isAtMost (key a) (key b)

/-- Puts `x` at its place in an ascending list, unless it is there. -/
def insertUnique (x : String) : List String → List String
  | [] => [x]
  | y :: ys =>
    match unitOrder x y with
    | .lt => x :: y :: ys
    | .eq => y :: ys
    | .gt => y :: insertUnique x ys

/-- The values of a list, each once, in ascending order. -/
def sortedUnique (values : List String) : List String :=
  values.foldr insertUnique []

end LicenseAudit.Text
