import LicenseAudit.Calendar
import LicenseAudit.Decimal.Shortest
import LicenseAudit.Json
import LicenseAudit.Text.Digits

/-!
# TOML values

The values of a TOML document, and how the ones that are written without
quotes or brackets are read: truth values, integers, floating-point
numbers, dates and times.
-/

namespace LicenseAudit.Toml

open Decimal Text

/-- A TOML value; a date or time is kept as its standard text. -/
inductive Value where
  | text (s : String)
  | number (n : Double)
  | bool (b : Bool)
  | moment (text : String)
  | array (items : List Value)
  | table (fields : List (String × Value))
  deriving Repr, Inhabited

mutual

/-- The JSON value that a value is shown as. -/
def Value.json : Value → Json
  | .text s => .text s
  | .number n => .number n
  | .bool b => .bool b
  | .moment text => .text text
  | .array items => .list (jsonItems items)
  | .table fields => .object (jsonFields fields)

/-- The items of an array as JSON values. -/
def jsonItems : List Value → List Json
  | [] => []
  | v :: rest => v.json :: jsonItems rest

/-- The fields of a table as JSON values. -/
def jsonFields : List (String × Value) → List (String × Json)
  | [] => []
  | (name, v) :: rest => (name, v.json) :: jsonFields rest

end

/-- The digits at the start of a text, in a base, single underscores
between them left out; and what follows. -/
def takeDigits (base : Nat) : List Char → List Char × List Char
  | c :: '_' :: d :: cs =>
    if digitValue c < base then
      if digitValue d < base then
        let (ds, rest) := takeDigits base (d :: cs)
        (c :: ds, rest)
      else ([c], '_' :: d :: cs)
    else ([], c :: '_' :: d :: cs)
  | c :: cs =>
    if digitValue c < base then
      let (ds, rest) := takeDigits base cs
      (c :: ds, rest)
    else ([], c :: cs)
  | [] => ([], [])

/-- The greatest integer up to which every one has its own number, which is
`2 ^ 53 - 1`. -/
def safeLimit : Nat :=
  9007199254740991

/-- An integer that can be told from its neighbours. -/
def integer? (negative : Bool) (n : Nat) : Option Value :=
  if n ≤ safeLimit then some (.number (.ofRatio (negative && n != 0) n 1)) else none

/-- The power of ten at the end of a number: nothing, or a letter and an
integer. -/
def power? : List Char → Option Int
  | [] => some 0
  | e :: cs =>
    if e = 'e' ∨ e = 'E' then
      let (negative, cs) :=
        match cs with
        | '-' :: cs => (true, cs)
        | '+' :: cs => (false, cs)
        | cs => (false, cs)
      match takeDigits 10 cs with
      | ([], _) => none
      | (ds, []) =>
        let n := numberOfDigits 10 ds
        some (if negative then -(n : Int) else n)
      | _ => none
    else none

/-- The decimal number that a text spells after its sign. -/
def decimal? (negative : Bool) (cs : List Char) : Option Value :=
  match takeDigits 10 cs with
  | ([], _) => none
  | (whole, rest) =>
    if whole.length > 1 ∧ whole.head? = some '0' then none
    else
      match rest with
      | [] => integer? negative (numberOfDigits 10 whole)
      | '.' :: rest =>
        match takeDigits 10 rest with
        | ([], _) => none
        | (fraction, rest) =>
          (power? rest).map fun p =>
            .number (.ofDecimal negative (numberOfDigits 10 (whole ++ fraction))
              (p - fraction.length))
      | rest =>
        (power? rest).map fun p => .number (.ofDecimal negative (numberOfDigits 10 whole) p)

/-- The integer that a text spells after a base mark. -/
def based? (base : Nat) (cs : List Char) : Option Value :=
  match takeDigits base cs with
  | ([], _) => none
  | (ds, []) => integer? false (numberOfDigits base ds)
  | _ => none

/-- The number that a text spells. -/
def number? (cs : List Char) : Option Value :=
  match cs with
  | '0' :: 'x' :: cs => based? 16 cs
  | '0' :: 'o' :: cs => based? 8 cs
  | '0' :: 'b' :: cs => based? 2 cs
  | '+' :: cs => decimal? false cs
  | '-' :: cs => decimal? true cs
  | cs => decimal? false cs

/-- A number of exactly two digits within bounds, and what follows. -/
def twoDigits? (least greatest : Nat) : List Char → Option (Nat × List Char)
  | a :: b :: rest =>
    if a.isDigit && b.isDigit then
      let n := 10 * digitValue a + digitValue b
      if least ≤ n ∧ n ≤ greatest then some (n, rest) else none
    else none
  | _ => none

/-- The character `c`, and what follows. -/
def expect? (c : Char) : List Char → Option (List Char)
  | d :: rest => if c = d then some rest else none
  | [] => none

/-- The day number of the date at the start of a text. -/
def date? (cs : List Char) : Option (Int × List Char) := do
  let (century, cs) ← twoDigits? 0 99 cs
  let (year, cs) ← twoDigits? 0 99 cs
  let cs ← expect? '-' cs
  let (month, cs) ← twoDigits? 1 12 cs
  let cs ← expect? '-' cs
  let (day, cs) ← twoDigits? 1 31 cs
  return (Calendar.dayNumber (100 * century + year) month day, cs)

/-- The milliseconds of the seconds and their fraction at the start of a
text, of which no more than thousandths count. -/
def seconds? (cs : List Char) : Option (Int × List Char) := do
  let (second, cs) ← twoDigits? 0 59 cs
  match cs with
  | '.' :: cs =>
    let fraction := cs.takeWhile Char.isDigit
    if fraction.isEmpty then none
    else
      let thousandths := (fraction ++ ['0', '0']).take 3
      some (second * 1000 + numberOfDigits 10 thousandths, cs.dropWhile Char.isDigit)
  | cs => some (second * 1000, cs)

/-- The milliseconds of the time of day at the start of a text; the
seconds may be left out. -/
def time? (cs : List Char) : Option (Int × List Char) := do
  let (hour, cs) ← twoDigits? 0 23 cs
  let cs ← expect? ':' cs
  let (minute, cs) ← twoDigits? 0 59 cs
  let whole : Int := (60 * hour + minute) * 60000
  match cs with
  | ':' :: cs => do
    let (part, cs) ← seconds? cs
    some (whole + part, cs)
  | cs => some (whole, cs)

/-- The minutes of a distance from universal time. -/
def offset? : List Char → Option Int
  | sign :: cs => do
    let (hour, cs) ← twoDigits? 0 23 cs
    let cs ← expect? ':' cs
    let (minute, cs) ← twoDigits? 0 59 cs
    if cs.isEmpty && (sign == '+' || sign == '-') then
      let minutes : Int := 60 * hour + minute
      some (if sign == '-' then -minutes else minutes)
    else none
  | [] => none

/-- The date or time that a text spells, as its standard text. -/
def moment? (cs : List Char) : Option String :=
  match date? cs with
  | none =>
    match time? cs with
    | some (t, []) => some (Calendar.timeText t)
    | _ => none
  | some (day, []) => some (Calendar.dateText day)
  | some (day, separator :: cs) =>
    if separator = 'T' ∨ separator = 't' ∨ separator = ' ' then
      match time? cs with
      | none => none
      | some (t, zone) =>
        let written := Calendar.text (day * Calendar.dayLength + t)
        match zone with
        | [] => some written
        | [z] => if z = 'Z' ∨ z = 'z' then some (written ++ "Z") else none
        | zone => (offset? zone).map fun _ => written ++ String.ofList zone
    else none

/-- The value that a text without quotes and brackets spells. -/
def scalar? (cs : List Char) : Option Value :=
  match String.ofList cs with
  | "true" => some (.bool true)
  | "false" => some (.bool false)
  | "inf" => some (.number (.infinite false))
  | "+inf" => some (.number (.infinite false))
  | "-inf" => some (.number (.infinite true))
  | "nan" => some (.number .nan)
  | "+nan" => some (.number .nan)
  | "-nan" => some (.number .nan)
  | _ =>
    match number? cs with
    | some v => some v
    | none => (moment? cs).map .moment

end LicenseAudit.Toml
