/-!
# Digits

The value of a digit in the bases up to sixteen, and the number that a row
of digits spells.
-/

namespace LicenseAudit.Text

/-- The value of a digit in bases up to sixteen; sixteen for any other
character. -/
def digitValue (c : Char) : Nat :=
  if c.isDigit then c.toNat - '0'.toNat
  else if 'a' ≤ c ∧ c ≤ 'f' then c.toNat - 'a'.toNat + 10
  else if 'A' ≤ c ∧ c ≤ 'F' then c.toNat - 'A'.toNat + 10
  else 16

/-- The number that digits spell in a base. -/
def numberOfDigits (base : Nat) (ds : List Char) : Nat :=
  ds.foldl (fun n d => base * n + digitValue d) 0

end LicenseAudit.Text
