import LicenseAudit.Json

/-!
# Issues

What is wrong with a value that should have had a certain form: an issue
has a place, the names and positions that lead to the value, and a
problem.  A **checked** value is the value itself or the issues that were
found; checking several parts collects the issues of them all, in order.
-/

namespace LicenseAudit

/-- The kinds of values that issues tell apart. -/
inductive ValueKind where
  | text
  | number
  | integer
  | float
  | nan
  | bool
  | list
  | object
  | date
  | null
  | absent
  deriving DecidableEq, Repr

/-- The name of a kind of values. -/
def ValueKind.name : ValueKind → String
  | .text => "string"
  | .number => "number"
  | .integer => "integer"
  | .float => "float"
  | .nan => "nan"
  | .bool => "boolean"
  | .list => "array"
  | .object => "object"
  | .date => "date"
  | .null => "null"
  | .absent => "undefined"

/-- The kind of a number. -/
def ValueKind.ofNumber : Decimal.Double → ValueKind
  | .nan => .nan
  | _ => .number

/-- The kind of a JSON value. -/
def ValueKind.ofJson : Json → ValueKind
  | .null => .null
  | .bool _ => .bool
  | .number n => .ofNumber n
  | .text _ => .text
  | .list _ => .list
  | .object _ => .object

/-- What is wrong with a value. -/
inductive Problem where
  | wrongKind (expected received : ValueKind)
  | noChoice (options : List String) (received : ValueKind)
  | notOneOf (options : List String) (received : String)
  | notEqual (expected : Json) (received : Option Json)
  | noForm
  | empty
  | notPositive
  | noPattern
  | unknownKeys (keys : List String)
  deriving Repr

/-- The sentence about a problem. -/
def Problem.message : Problem → String
  | .wrongKind expected received =>
    "Expected " ++ expected.name ++ ", received " ++ received.name
  | .noChoice options received =>
    let quoted := options.map fun o => "'" ++ o ++ "'"
    "Expected " ++ " | ".intercalate quoted ++ ", received " ++ received.name
  | .notOneOf options received =>
    "Expected one of " ++ ", ".intercalate (options.map Json.quoted) ++ ", received " ++
      Json.quoted received
  | .notEqual expected received =>
    let shown := (received.map Json.compact).getD ValueKind.absent.name
    "Expected " ++ expected.compact ++ ", received " ++ shown
  | .noForm => "Invalid input"
  | .empty => "String must contain at least 1 character(s)"
  | .notPositive => "Number must be greater than 0"
  | .noPattern => "At least one path is required"
  | .unknownKeys keys => "Unrecognized keys: " ++ ", ".intercalate keys

/-- A problem and its place. -/
structure Issue where
  place : List String
  problem : Problem
  deriving Repr

/-- The place as a text. -/
def placeText (place : List String) : String :=
  if place.isEmpty then "<root>" else ".".intercalate place

/-- An issue on one line. -/
def Issue.text (i : Issue) : String :=
  placeText i.place ++ ": " ++ i.problem.message

/-- Issues, one on each line. -/
def issuesText (issues : List Issue) : String :=
  "\n".intercalate (issues.map Issue.text)

/-- A value of the right form, or what is wrong. -/
abbrev Checked (α : Type) := Except (List Issue) α

namespace Checked

/-- One issue. -/
def refuse (place : List String) (problem : Problem) : Checked α :=
  .error [⟨place, problem⟩]

/-- The issues found. -/
def issues : Checked α → List Issue
  | .ok _ => []
  | .error found => found

/-- A function applied to a value, with the issues of both. -/
def app (f : Checked (α → β)) (a : Checked α) : Checked β :=
  match f, a with
  | .ok f, .ok a => .ok (f a)
  | f, a => .error (f.issues ++ a.issues)

/-- Several checked values as one. -/
def all : List (Checked α) → Checked (List α)
  | [] => .ok []
  | a :: rest => app (app (.ok List.cons) a) (all rest)

/-- A value that may be left out. -/
def orElse (default : α) (check : β → Checked α) : Option β → Checked α
  | none => .ok default
  | some v => check v

end Checked

/-- Checks that a text is one of the names of some options. -/
def checkChoice (place : List String) (options : List (String × α)) (kind : ValueKind)
    (text : Option String) : Checked α :=
  let names := options.map Prod.fst
  match text with
  | none => .refuse place (.noChoice names kind)
  | some s =>
    match options.lookup s with
    | some a => .ok a
    | none => .refuse place (.notOneOf names s)

end LicenseAudit
