/-!
# Double-precision numbers

A finite number of double precision is `m · 2 ^ e` with `m < 2 ^ 53` and
`-1074 ≤ e`; it is kept with `2 ^ 52 ≤ m` unless `e = -1074`, so that each
number has one form.  `ofRatio` rounds an exact ratio to the nearest such
number, a tie to the even mantissa, and `ofDecimal` does so for a decimal
numeral.
-/

namespace LicenseAudit.Decimal

/-- A number of double precision. -/
inductive Double where
  | finite (negative : Bool) (mantissa : Nat) (exponent : Int)
  | infinite (negative : Bool)
  | nan
  deriving DecidableEq, Repr

/-- The least exponent. -/
def minExponent : Int :=
  -1074

/-- The greatest exponent. -/
def maxExponent : Int :=
  971

/-- The quotient rounded to the nearest integer, a tie to the even one. -/
def roundDiv (num den : Nat) : Nat :=
  let q := num / den
  let r := num % den
  if 2 * r < den then q
  else if den < 2 * r then q + 1
  else if q % 2 = 0 then q else q + 1

/-- The ratio `num / den` over `2 ^ e`, as a ratio. -/
def overPower (num den : Nat) (e : Int) : Nat × Nat :=
  if e < 0 then (num * Nat.pow 2 (-e).toNat, den) else (num, den * Nat.pow 2 e.toNat)

/-- The exponent at which `num / den` has 53 binary digits, or the least
one. -/
def exponentFor (num den : Nat) : Int :=
  let e := max ((num.log2 : Int) - den.log2 - 53) minExponent
  let (n, d) := overPower num den e
  if n / d < Nat.pow 2 53 then e else e + 1

namespace Double

/-- Zero. -/
def zero : Double :=
  .finite false 0 minExponent

/-- The number nearest to `num / den`, with a sign. -/
def ofRatio (negative : Bool) (num den : Nat) : Double :=
  if num = 0 then .finite negative 0 minExponent
  else
    let e := exponentFor num den
    let (n, d) := overPower num den e
    let m := roundDiv n d
    let (m, e) := if m = Nat.pow 2 53 then (Nat.pow 2 52, e + 1) else (m, e)
    if maxExponent < e then .infinite negative else .finite negative m e

/-- How many decimal digits `n` has. -/
def digitCount (n : Nat) : Nat :=
  (Nat.toDigits 10 n).length

/-- The number nearest to `digits · 10 ^ exponent`, with a sign.  Numerals
far outside the range are decided by their size alone. -/
def ofDecimal (negative : Bool) (digits : Nat) (exponent : Int) : Double :=
  if digits = 0 then .finite negative 0 minExponent
  else if (digitCount digits : Int) + exponent > 400 then .infinite negative
  else if (digitCount digits : Int) + exponent < -400 then .finite negative 0 minExponent
  else if exponent < 0 then ofRatio negative digits (Nat.pow 10 (-exponent).toNat)
  else ofRatio negative (digits * Nat.pow 10 exponent.toNat) 1

/-- The number nearest to an integer. -/
def ofInt (n : Int) : Double :=
  ofRatio (n < 0) n.natAbs 1

/-- The integer that a number is, if it is one. -/
def toInt? : Double → Option Int
  | .finite negative m e =>
    let sign (n : Nat) : Int := if negative then -n else n
    if 0 ≤ e then some (sign (m * Nat.pow 2 e.toNat))
    else
      let d := Nat.pow 2 (-e).toNat
      if m % d = 0 then some (sign (m / d)) else none
  | _ => none

/-- Whether a number is greater than zero. -/
def isPositive : Double → Bool
  | .finite negative m _ => !negative && m != 0
  | .infinite negative => !negative
  | .nan => false

end Double

end LicenseAudit.Decimal
