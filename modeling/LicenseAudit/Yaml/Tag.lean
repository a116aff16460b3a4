import LicenseAudit.Text.Digits
import LicenseAudit.Yaml

/-!
# Tags and the values they give

A tag says how a node is meant.  A plain scalar without a tag means the
first of these that its text spells: nothing, a truth value, an integer, a
number, or a moment; otherwise it is a text.  With a tag a node means that
or is refused.
-/

namespace LicenseAudit.Yaml

open Decimal Text

/-- How a node is written: as a scalar, a list or an object. -/
inductive Kind where
  | scalar
  | list
  | object
  deriving DecidableEq, Repr

/-- The tags that are known. -/
inductive Tag where
  | text
  | list
  | object
  | null
  | bool
  | integer
  | float
  | moment
  | merge
  | bytes
  | orderedMap
  | pairs
  | set
  deriving DecidableEq, Repr

/-- What the known tags begin with. -/
def tagStart : String :=
  "tag:yaml.org,2002:"

/-- The known tag of a name. -/
def Tag.ofName? (name : String) : Option Tag :=
  [("str", Tag.text), ("seq", .list), ("map", .object), ("null", .null), ("bool", .bool),
    ("int", .integer), ("float", .float), ("timestamp", .moment), ("merge", .merge),
    ("binary", .bytes), ("omap", .orderedMap), ("pairs", .pairs), ("set", .set)].findSome?
    fun (ending, tag) => if tagStart ++ ending = name then some tag else none

/-- The kind of node that a tag is for. -/
def Tag.kind : Tag → Kind
  | .list => .list
  | .orderedMap => .list
  | .pairs => .list
  | .object => .object
  | .set => .object
  | _ => .scalar

/-- Whether a text spells nothing. -/
def spellsNull (s : String) : Bool :=
  ["~", "null", "Null", "NULL"].contains s

/-- The truth value that a text spells. -/
def boolOf? (s : String) : Option Bool :=
  if ["true", "True", "TRUE"].contains s then some true
  else if ["false", "False", "FALSE"].contains s then some false
  else none

/-- A text without a sign at its start, and whether the sign is minus. -/
def takeSign : List Char → Bool × List Char
  | '-' :: cs => (true, cs)
  | '+' :: cs => (false, cs)
  | cs => (false, cs)

/-- The number that a text spells in a base; it has a digit at least. -/
def wholeIn? (base : Nat) (cs : List Char) : Option Nat :=
  if !cs.isEmpty && cs.all (digitValue · < base) then some (numberOfDigits base cs) else none

/-- The integer that a text spells. -/
def integerOf? (s : String) : Option Double :=
  let (negative, cs) := takeSign s.toList
  let n? :=
    match cs with
    | '0' :: 'b' :: ds => wholeIn? 2 ds
    | '0' :: 'o' :: ds => wholeIn? 8 ds
    | '0' :: 'x' :: ds => wholeIn? 16 ds
    | ds => wholeIn? 10 ds
  n?.map fun n => .ofRatio negative n 1

/-- The power of ten at the end of a number: nothing, or a letter and an
integer. -/
def exponentOf? : List Char → Option Int
  | [] => some 0
  | e :: cs =>
    if e = 'e' ∨ e = 'E' then
      let (negative, ds) := takeSign cs
      (wholeIn? 10 ds).map fun n => if negative then -(n : Int) else n
    else none

/-- The number that a text spells, with a fraction or without.  A number
that begins with its point has no sign. -/
def floatOf? (s : String) : Option Double :=
  let (negative, cs) := takeSign s.toList
  if [".inf", ".Inf", ".INF"].contains (String.ofList cs) then some (.infinite negative)
  else if [".nan", ".NaN", ".NAN"].contains s then some .nan
  else
    let whole := cs.takeWhile Char.isDigit
    let (fraction, rest) :=
      match cs.dropWhile Char.isDigit with
      | '.' :: rest => (rest.takeWhile Char.isDigit, rest.dropWhile Char.isDigit)
      | rest => ([], rest)
    let signed := s.toList.length != cs.length
    if whole.isEmpty && (fraction.isEmpty || signed) then none
    else
      (exponentOf? rest).map fun p =>
        .ofDecimal negative (numberOfDigits 10 (whole ++ fraction)) (p - fraction.length)

/-- The number of `least` to `greatest` digits at the start of a text, and
what follows. -/
def takeNumber? (least greatest : Nat) (cs : List Char) : Option (Nat × List Char) :=
  let ds := (cs.take greatest).takeWhile Char.isDigit
  if least ≤ ds.length then some (numberOfDigits 10 ds, cs.drop ds.length) else none

/-- What follows a character at the start of a text. -/
def after? (mark : Char) : List Char → Option (List Char)
  | c :: cs => if c = mark then some cs else none
  | [] => none

/-- The blanks within a line. -/
private def isGap (c : Char) : Bool :=
  c == ' ' || c == '\t'

/-- The minutes by which a zone is ahead of universal time. -/
def zoneOf? (cs : List Char) : Option Int :=
  match cs.dropWhile isGap with
  | [] => if cs.isEmpty then some 0 else none
  | ['Z'] => some 0
  | sign :: cs =>
    if sign = '+' ∨ sign = '-' then do
      let (hours, cs) ← takeNumber? 1 2 cs
      let minutes ←
        match cs with
        | [] => some 0
        | cs => do
          let (minutes, rest) ← takeNumber? 2 2 (← after? ':' cs)
          if rest.isEmpty then some minutes else none
      let ahead : Int := 60 * hours + minutes
      return if sign = '-' then -ahead else ahead
    else none

/-- The first milliseconds of a day; months and days beyond their ends run
on, and a year of at most two digits is one of the last century. -/
def dayStart (year month day : Nat) : Int :=
  let year := if year < 100 then 1900 + year else year
  let months : Int := month - 1
  let first := Calendar.dayNumber (year + months / 12) (months % 12 + 1) 1
  (first + day - 1) * Calendar.dayLength

/-- The moment that a text spells: a date, or a date and a time. -/
def momentOf? (s : String) : Option Int := do
  let (year, cs) ← takeNumber? 4 4 s.toList
  let (month, cs) ← takeNumber? 1 2 (← after? '-' cs)
  let (day, rest) ← takeNumber? 1 2 (← after? '-' cs)
  let start := dayStart year month day
  if rest.isEmpty then if s.length = 10 then some start else none
  else
    let cs ←
      match rest with
      | 'T' :: cs => some cs
      | 't' :: cs => some cs
      | c :: cs => if isGap c then some (cs.dropWhile isGap) else none
      | [] => none
    let (hour, cs) ← takeNumber? 1 2 cs
    let (minute, cs) ← takeNumber? 2 2 (← after? ':' cs)
    let (second, cs) ← takeNumber? 2 2 (← after? ':' cs)
    let (fraction, cs) :=
      match cs with
      | '.' :: cs => (cs.takeWhile Char.isDigit, cs.dropWhile Char.isDigit)
      | cs => ([], cs)
    let zone ← zoneOf? cs
    let thousandths := numberOfDigits 10 ((fraction ++ ['0', '0', '0']).take 3)
    let seconds : Int := 60 * (60 * hour + minute) + second
    return start + seconds * 1000 + thousandths - zone * 60000

/-- The value of a digit in base 64. -/
def digit64? (c : Char) : Option Nat :=
  let n := c.toNat
  if 'A' ≤ c ∧ c ≤ 'Z' then some (n - 'A'.toNat)
  else if 'a' ≤ c ∧ c ≤ 'z' then some (n - 'a'.toNat + 26)
  else if c.isDigit then some (n - '0'.toNat + 52)
  else if c = '+' then some 62
  else if c = '/' then some 63
  else none

/-- The bytes of digits in base 64, four digits for three bytes. -/
def bytesOfDigits : List Nat → List Nat
  | a :: b :: c :: d :: rest =>
    (4 * a + b / 16) :: (b % 16 * 16 + c / 4) :: (c % 4 * 64 + d) :: bytesOfDigits rest
  | [a, b, c] => [4 * a + b / 16, b % 16 * 16 + c / 4]
  | [a, b] => [4 * a + b / 16]
  | _ => []

/-- The bytes that a text spells in base 64; line ends do not count, and
no digits at all are three zero bytes. -/
def bytesOf? (s : String) : Option (List Nat) := do
  let cs := s.toList.filter fun c => !(c == '\n' || c == '\r')
  if cs.length % 4 != 0 then none
  else
    let digits ← (cs.filter (· != '=')).mapM digit64?
    return if digits.isEmpty then [0, 0, 0] else bytesOfDigits digits

/-- The meaning of a plain scalar without a tag. -/
def meaning (s : String) : Yaml :=
  if spellsNull s then .null
  else
    match boolOf? s, integerOf? s, floatOf? s, momentOf? s with
    | some b, _, _, _ => .bool b
    | _, some n, _, _ => .number n
    | _, _, some n, _ => .number n
    | _, _, _, some instant => .moment instant
    | _, _, _, _ => .text s

/-- The fields of an object, one for each item of a list, when every item
has exactly one field. -/
def singleFields? (items : List Yaml) : Option (List (String × Yaml)) :=
  items.mapM fun
    | .object [field] => some field
    | _ => none

/-- Whether no two fields have one name. -/
def distinctNames : List (String × Yaml) → Bool
  | [] => true
  | (name, _) :: rest => rest.all (·.1 != name) && distinctNames rest

/-- Whether a value is nothing. -/
def isNull : Yaml → Bool
  | .null => true
  | _ => false

/-- What a node of some value means with a tag, if it can have that
tag. -/
def Tag.read? : Tag → Yaml → Option Yaml
  | .text, .null => some (.text "")
  | .text, v => some v
  | .list, .null => some (.list [])
  | .list, v => some v
  | .object, .null => some (.object [])
  | .object, v => some v
  | .null, .null => some .null
  | .null, .text s => if spellsNull s then some .null else none
  | .bool, .text s => (boolOf? s).map .bool
  | .integer, .text s => (integerOf? s).map .number
  | .float, .text s => (floatOf? s).map .number
  | .moment, .text s => (momentOf? s).map .moment
  | .merge, .null => some .null
  | .merge, .text s => if s = "<<" then some (.text s) else none
  | .bytes, .text s => (bytesOf? s).map .bytes
  | .orderedMap, .null => some (.list [])
  | .orderedMap, .list items => do
    if distinctNames (← singleFields? items) then some (.list items) else none
  | .pairs, .null => some (.list [])
  | .pairs, .list items => do
    return .list ((← singleFields? items).map fun (name, v) => .list [.text name, v])
  | .set, .null => some (.object [])
  | .set, .object fields => if fields.all (isNull ·.2) then some (.object fields) else none
  | _, _ => none

end LicenseAudit.Yaml
