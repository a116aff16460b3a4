import LicenseAudit.Decimal.Shortest

/-!
# JSON values and their text

The values of JSON, with the fields of an object in order, and two ways to
write them: on one line, and with two spaces of indentation for every
level.  A field whose name is a plain numeral stands before the others, in
numerical order; the rest keep their order.
-/

namespace LicenseAudit

open Decimal

/-- A JSON value. -/
inductive Json where
  | null
  | bool (b : Bool)
  | number (n : Double)
  | text (s : String)
  | list (items : List Json)
  | object (fields : List (String × Json))
  deriving Repr, Inhabited

namespace Json

/-- The value of a natural number. -/
def nat (n : Nat) : Json :=
  .number (.ofInt n)

/-- The list of some texts. -/
def texts (xs : List String) : Json :=
  .list (xs.map .text)

/-- The fields with one set: at its place, or at the end. -/
def setField (fields : List (String × α)) (name : String) (value : α) :
    List (String × α) :=
  match fields with
  | [] => [(name, value)]
  | (n, v) :: rest => if n = name then (n, value) :: rest else (n, v) :: setField rest name value

/-- The value of a field of an object. -/
def field? (name : String) : Json → Option Json
  | .object fields => fields.lookup name
  | _ => none

/-- The digit of a number below sixteen. -/
def hexDigit (n : Nat) : Char :=
  (Nat.toDigits 16 n).headD '0'

/-- A character as it stands in a quoted text. -/
def escape (c : Char) : List Char :=
  if c = '"' then ['\\', '"']
  else if c = '\\' then ['\\', '\\']
  else if c = '\n' then ['\\', 'n']
  else if c = '\r' then ['\\', 'r']
  else if c = '\t' then ['\\', 't']
  else if c.toNat = 8 then ['\\', 'b']
  else if c.toNat = 12 then ['\\', 'f']
  else if c.toNat < 0x20 then
    ['\\', 'u', '0', '0', hexDigit (c.toNat / 16), hexDigit (c.toNat % 16)]
  else [c]

/-- A text in quotes. -/
def quoted (s : String) : String :=
  String.ofList ('"' :: (s.toList.flatMap escape ++ ['"']))

/-- The number that a field name spells as a plain numeral below
`2 ^ 32 - 1`, without a leading zero. -/
def numeral? (name : String) : Option Nat :=
  let cs := name.toList
  if cs.isEmpty || !cs.all Char.isDigit || cs.length > 10 then none
  else
    let n := cs.foldl (fun n c => 10 * n + (c.toNat - '0'.toNat)) 0
    if Nat.toDigits 10 n = cs ∧ n < 4294967295 then some n else none

/-- Puts a field with a numeral name at its place among such fields. -/
def insertNumeral (n : Nat) (value : α) : List (Nat × α) → List (Nat × α)
  | [] => [(n, value)]
  | (m, v) :: rest =>
    if n < m then (n, value) :: (m, v) :: rest else (m, v) :: insertNumeral n value rest

/-- The fields in the order in which they are written. -/
def fieldOrder (fields : List (String × α)) : List (String × α) :=
  let numerals := fields.filterMap fun (name, value) =>
    (numeral? name).map fun n => (n, (name, value))
  let sorted := numerals.foldl (fun acc (n, f) => insertNumeral n f acc) []
  sorted.map (·.2) ++ fields.filter fun (name, _) => (numeral? name).isNone

mutual

/-- A value on one line. -/
def compact : Json → String
  | .null => "null"
  | .bool b => if b then "true" else "false"
  | .number n =>
    match n with
    | .finite .. => n.text
    | _ => "null"
  | .text s => quoted s
  | .list items => "[" ++ ",".intercalate (compactItems items) ++ "]"
  | .object fields =>
    let written := (fieldOrder (compactFields fields)).map fun (name, value) =>
      quoted name ++ ":" ++ value
    String.singleton '{' ++ ",".intercalate written ++ String.singleton '}'

/-- The items of a list, each on one line. -/
def compactItems : List Json → List String
  | [] => []
  | value :: rest => compact value :: compactItems rest

/-- The fields of an object, each value on one line. -/
def compactFields : List (String × Json) → List (String × String)
  | [] => []
  | (name, value) :: rest => (name, compact value) :: compactFields rest

end

/-- Lines between two brackets, each on its own line and indented two
spaces further than `indent`. -/
def block (indent opening closing : String) (lines : List String) : String :=
  if lines.isEmpty then opening ++ closing
  else
    let inner := "\n" ++ indent ++ "  "
    opening ++ inner ++ ("," ++ inner).intercalate lines ++ "\n" ++ indent ++ closing

mutual

/-- A value on several lines, those after the first indented by `indent`
at least. -/
def indentedBy (value : Json) (indent : String) : String :=
  match value with
  | .list items => block indent "[" "]" (indentedItems items (indent ++ "  "))
  | .object fields =>
    let written := fieldOrder (indentedFields fields (indent ++ "  "))
    block indent (String.singleton '{') (String.singleton '}')
      (written.map fun (name, value) => quoted name ++ ": " ++ value)
  | .null => compact .null
  | .bool b => compact (.bool b)
  | .number n => compact (.number n)
  | .text s => compact (.text s)

/-- The items of a list, each on several lines. -/
def indentedItems (items : List Json) (indent : String) : List String :=
  match items with
  | [] => []
  | value :: rest => indentedBy value indent :: indentedItems rest indent

/-- The fields of an object, each value on several lines. -/
def indentedFields (fields : List (String × Json)) (indent : String) : List (String × String) :=
  match fields with
  | [] => []
  | (name, value) :: rest => (name, indentedBy value indent) :: indentedFields rest indent

end

/-- A value with two spaces of indentation for every level. -/
def indented (value : Json) : String :=
  value.indentedBy ""

end Json

end LicenseAudit
