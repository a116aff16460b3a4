/-!
# Measuring text in 16-bit units

Positions in a text, and the wildcard for a single character in the older
manifests, count 16-bit units: one for a character of the first plane, two
for any other.
-/

namespace LicenseAudit.Text

/-- The 16-bit units of a character: itself in the first plane, a high and
a low surrogate beyond it. -/
def units (c : Char) : List Nat :=
  if c.toNat < 0x10000 then [c.toNat]
  else [0xD800 + (c.toNat - 0x10000) / 0x400, 0xDC00 + (c.toNat - 0x10000) % 0x400]

/-- How many units a character takes. -/
def width (c : Char) : Nat :=
  if c.toNat < 0x10000 then 1 else 2

/-- How many units a text takes. -/
def size : List Char → Nat
  | [] => 0
  | c :: cs => width c + size cs

/-- The units of a whole text. -/
def unitsOf (cs : List Char) : List Nat :=
  cs.flatMap units

/-- The text of some units; a surrogate without its partner is read as the
replacement character. -/
def ofUnits : List Nat → List Char
  | [] => []
  | [u] => [Char.ofNat (if u.isValidChar then u else 0xFFFD)]
  | u :: v :: us =>
    if 0xD800 ≤ u ∧ u < 0xDC00 ∧ 0xDC00 ≤ v ∧ v < 0xE000 then
      Char.ofNat (0x10000 + (u - 0xD800) * 0x400 + (v - 0xDC00)) :: ofUnits us
    else Char.ofNat (if u.isValidChar then u else 0xFFFD) :: ofUnits (v :: us)

/-- No character is a surrogate. -/
theorem not_surrogate (c : Char) : ¬(0xD800 ≤ c.toNat ∧ c.toNat < 0xE000) := by
  have h : c.toNat < 0xD800 ∨ 0xDFFF < c.toNat ∧ c.toNat < 0x110000 := c.valid
  omega

end LicenseAudit.Text
