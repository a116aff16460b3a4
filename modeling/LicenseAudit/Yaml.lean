import LicenseAudit.Calendar
import LicenseAudit.Json
import LicenseAudit.Text.Position

/-!
# YAML values

The values of a YAML document, the text under which a value serves as a
key, and the reasons for which a text is no document.  A reason comes with
the place at which reading stopped, if there is one.
-/

namespace LicenseAudit

open Decimal

/-- A YAML value. -/
inductive Yaml where
  | null
  | bool (b : Bool)
  | number (n : Double)
  | text (s : String)
  | moment (instant : Int)
  | bytes (octets : List Nat)
  | list (items : List Yaml)
  | object (fields : List (String × Yaml))
  deriving Repr, Inhabited

namespace Yaml

/-- Why a text is no YAML document. -/
inductive Reason where
  | nullCharacter
  | controlCharacter
  | lineEndExpected
  | unclosedQuote
  | unknownEscape
  | hexadecimalExpected
  | repeatedChomping
  | zeroIndentation
  | repeatedIndentation
  | missingIndentation
  | missedComma
  | emptyEntry
  | unclosedCollection
  | tabIndentation
  | sequenceIndentation
  | mappingIndentation
  | missingKey
  | blankExpected
  | missedColon
  | severalLineKey
  | repeatedKey
  | nestedKey
  | unmergeable
  | repeatedTag
  | repeatedAnchor
  | namelessAnchor
  | namelessAlias
  | unknownAlias
  | selfContaining
  | aliasProperties
  | malformedTag
  | unknownHandle
  | unknownTag
  | unfitTag
  | malformedDirective
  | directivesEnd
  | documentEnd
  | severalDocuments
  | tooDeep
  deriving DecidableEq, Repr

/-- The sentence about a reason. -/
def Reason.message : Reason → String
  | .nullCharacter => "null byte is not allowed in input"
  | .controlCharacter => "the stream contains non-printable characters"
  | .lineEndExpected => "a line break is expected"
  | .unclosedQuote => "unexpected end of a quoted scalar"
  | .unknownEscape => "unknown escape sequence"
  | .hexadecimalExpected => "expected hexadecimal character"
  | .repeatedChomping => "repeat of a chomping mode identifier"
  | .zeroIndentation => "the indentation width of a block scalar cannot be less than one"
  | .repeatedIndentation => "repeat of an indentation width identifier"
  | .missingIndentation => "missing indentation for block scalar"
  | .missedComma => "missed comma between flow collection entries"
  | .emptyEntry => "expected the node content, but found ','"
  | .unclosedCollection => "unexpected end of the stream within a flow collection"
  | .tabIndentation => "tab characters must not be used in indentation"
  | .sequenceIndentation => "bad indentation of a sequence entry"
  | .mappingIndentation => "bad indentation of a mapping entry"
  | .missingKey => "incomplete explicit mapping pair; a key node is missed"
  | .blankExpected => "a whitespace character is expected after the key-value separator"
  | .missedColon => "can not read an implicit mapping pair; a colon is missed"
  | .severalLineKey => "a multiline key may not be an implicit key"
  | .repeatedKey => "duplicated mapping key"
  | .nestedKey => "nested arrays are not supported inside keys"
  | .unmergeable => "cannot merge mappings; the provided source object is unacceptable"
  | .repeatedTag => "duplication of a tag property"
  | .repeatedAnchor => "duplication of an anchor property"
  | .namelessAnchor => "name of an anchor node must contain at least one character"
  | .namelessAlias => "name of an alias node must contain at least one character"
  | .unknownAlias => "unidentified alias"
  | .selfContaining => "Maximum call stack size exceeded"
  | .aliasProperties => "alias node should not have any properties"
  | .malformedTag => "tag name cannot contain such characters"
  | .unknownHandle => "undeclared tag handle"
  | .unknownTag => "unknown tag"
  | .unfitTag => "cannot resolve a node with its explicit tag"
  | .malformedDirective => "ill-formed directive"
  | .directivesEnd => "directives end mark is expected"
  | .documentEnd => "end of the stream or a document separator is expected"
  | .severalDocuments => "expected a single document in the stream, but found more"
  | .tooDeep => "nesting exceeded the depth of 100"

/-- A reason, and the place where reading stopped. -/
structure Fault where
  reason : Reason
  place : Option Text.Position
  deriving DecidableEq, Repr

/-- A name for a day of the week, the week beginning with the first day of
1970. -/
def weekday (number : Int) : String :=
  ["Thu", "Fri", "Sat", "Sun", "Mon", "Tue", "Wed"].getD (number % 7).toNat ""

/-- A name for a month. -/
def monthName (month : Int) : String :=
  ["Jan", "Feb", "Mar", "Apr", "May", "Jun", "Jul", "Aug", "Sep", "Oct", "Nov", "Dec"].getD
    (month - 1).toNat ""

/-- A moment in words, in universal time. -/
def momentText (instant : Int) : String :=
  let day := instant / Calendar.dayLength
  let second := instant % Calendar.dayLength / 1000
  let (year, month, dayOfMonth) := Calendar.dateOf day
  weekday day ++ " " ++ monthName month ++ " " ++ Calendar.padded 2 dayOfMonth ++ " " ++
    Calendar.padded 4 year ++ " " ++ Calendar.padded 2 (second / 3600) ++ ":" ++
    Calendar.padded 2 (second / 60 % 60) ++ ":" ++ Calendar.padded 2 (second % 60) ++
    " GMT+0000 (Coordinated Universal Time)"

/-- The text under which a value without parts serves as a key. -/
def plainKey : Yaml → String
  | .null => "null"
  | .bool b => if b then "true" else "false"
  | .number n => n.text
  | .text s => s
  | .moment instant => momentText instant
  | .bytes octets => ",".intercalate (octets.map toString)
  | .list _ => ""
  | .object _ => "[object Object]"

/-- The text of an item of a list that serves as a key, unless the item is
a list itself. -/
def itemKey? : Yaml → Option String
  | .list _ => none
  | .null => some ""
  | v => some v.plainKey

/-- The text under which a value serves as a key; a list within a list has
none. -/
def key? : Yaml → Option String
  | .list items => (items.mapM itemKey?).map fun names => ",".intercalate names
  | v => some v.plainKey

mutual

/-- The value as settings: a moment has none, and bytes are counted from
zero. -/
def json : Yaml → Json
  | .null => .null
  | .bool b => .bool b
  | .number n => .number n
  | .text s => .text s
  | .moment _ => .object []
  | .bytes octets => .object (octets.zipIdx.map fun (b, i) => (toString i, .nat b))
  | .list items => .list (jsonItems items)
  | .object fields => .object (jsonFields fields)

/-- The items of a list as settings. -/
def jsonItems : List Yaml → List Json
  | [] => []
  | v :: rest => v.json :: jsonItems rest

/-- The fields of an object as settings. -/
def jsonFields : List (String × Yaml) → List (String × Json)
  | [] => []
  | (name, v) :: rest => (name, v.json) :: jsonFields rest

end

end Yaml

end LicenseAudit
