import LicenseAudit.Decimal.Double

/-!
# The shortest numeral of a number

Among the decimal numerals that read back as a given number, the one with
the fewest digits is written, and of several the nearest.  A numeral of
`n` digits reads back when it lies between the midpoints to the two
neighbouring numbers; the midpoints count when the mantissa is even.  On
the grid of numerals with `n` digits only the two neighbours of the number
need to be looked at.

A numeral is written positionally when its point stands at most 21 digits
to the right of its first digit or 5 zeros before it, and with a power of
ten otherwise.
-/

namespace LicenseAudit.Decimal

/-- A positive number as a ratio, with the distances down and up to the
midpoints of its neighbours over the same denominator. -/
structure Surroundings where
  value : Nat
  down : Nat
  up : Nat
  den : Nat
  inclusive : Bool

/-- The surroundings of `m · 2 ^ e`. -/
def surroundings (m : Nat) (e : Int) : Surroundings :=
  let narrow := m = Nat.pow 2 52 ∧ minExponent < e
  let scale := if e < 2 then (1, Nat.pow 2 (2 - e).toNat) else (Nat.pow 2 (e - 2).toNat, 1)
  { value := 4 * m * scale.1
    down := (if narrow then 1 else 2) * scale.1
    up := 2 * scale.1
    den := scale.2
    inclusive := m % 2 = 0 }

/-- Whether `n / d` reads back as the number in the middle. -/
def Surroundings.admits (s : Surroundings) (n d : Nat) : Bool :=
  let low := (s.value - s.down) * d
  let high := (s.value + s.up) * d
  let x := n * s.den
  if s.inclusive then low ≤ x && x ≤ high else low < x && x < high

/-- How far `n / d` lies from the number, over a common denominator. -/
def Surroundings.distance (s : Surroundings) (n d : Nat) : Nat :=
  let a := n * s.den
  let b := s.value * d
  if a ≤ b then b - a else a - b

/-- The number `10 ^ k` as a ratio. -/
def powerOfTen (k : Int) : Nat × Nat :=
  if k < 0 then (1, Nat.pow 10 (-k).toNat) else (Nat.pow 10 k.toNat, 1)

/-- Where the decimal point of `num / den` stands, counted from its first
digit: the least `p` at or after `start` with `num / den < 10 ^ p`. -/
def pointFrom (num den : Nat) : Nat → Int → Int
  | 0, p => p
  | fuel + 1, p =>
    let (n, d) := powerOfTen p
    if num * d < n * den then p else pointFrom num den fuel (p + 1)

/-- A numeral with one digit less than `n` when it ends in a zero. -/
def dropZeros : Nat → Nat → Nat
  | 0, n => n
  | fuel + 1, n => if n ≠ 0 ∧ n % 10 = 0 then dropZeros fuel (n / 10) else n

/-- The grid numeral that reads back, among those with unit `10 ^ k`. -/
def onGrid? (s : Surroundings) (k : Int) : Option Nat :=
  let (un, ud) := powerOfTen k
  let below := s.value * ud / (s.den * un)
  let above := below + 1
  let fits (n : Nat) := s.admits (n * un) ud
  match fits below && below != 0, fits above with
  | false, false => none
  | true, false => some below
  | false, true => some above
  | true, true =>
    let db := s.distance (below * un) ud
    let da := s.distance (above * un) ud
    if db < da then some below
    else if da < db then some above
    else if below % 2 = 0 then some below else some above

/-- The digits of the shortest numeral, the point of the number being at
`p`: grids with more and more digits are tried. -/
def shortestFrom (s : Surroundings) (p : Int) : Nat → Nat → Nat × Int
  | 0, n => (0, p - n)
  | fuel + 1, n =>
    match onGrid? s (p - n) with
    | some digits => (digits, p - n)
    | none => shortestFrom s p fuel (n + 1)

/-- The shortest numeral `digits · 10 ^ k` of `m · 2 ^ e`. -/
def shortest (m : Nat) (e : Int) : Nat × Int :=
  let s := surroundings m e
  let estimate := ((m.log2 : Int) + e) * 30103 / 100000 - 1
  shortestFrom s (pointFrom s.value s.den 8 estimate) 17 1

/-- The digits of a numeral, most significant first. -/
def digitsOf (n : Nat) : List Char :=
  Nat.toDigits 10 n

/-- The text of a positive numeral whose digits are `ds` and whose point
stands `p` digits after the first. -/
def numeralText (ds : List Char) (p : Int) : List Char :=
  let n : Int := ds.length
  if n ≤ p ∧ p ≤ 21 then ds ++ List.replicate (p - n).toNat '0'
  else if 0 < p ∧ p ≤ 21 then ds.take p.toNat ++ ('.' :: ds.drop p.toNat)
  else if -6 < p ∧ p ≤ 0 then '0' :: '.' :: (List.replicate (-p).toNat '0' ++ ds)
  else
    let power := p - 1
    let sign := if power < 0 then '-' else '+'
    let mantissa :=
      match ds with
      | [] => []
      | [d] => [d]
      | d :: rest => d :: '.' :: rest
    mantissa ++ ('e' :: sign :: digitsOf power.natAbs)

/-- The text of a number; zero has no sign. -/
def Double.text : Double → String
  | .nan => "NaN"
  | .infinite negative => if negative then "-Infinity" else "Infinity"
  | .finite negative m e =>
    if m = 0 then "0"
    else
      let (digits, k) := shortest m e
      let short := dropZeros 400 digits
      let ds := digitsOf short
      let p := k + (digitsOf digits).length
      String.ofList (if negative then '-' :: numeralText ds p else numeralText ds p)

end LicenseAudit.Decimal
