import LicenseAudit.Environment
import LicenseAudit.Failure
import LicenseAudit.Text.Search

/-!
# Showing failures

A failure is shown as labelled lines: what went wrong, a hint, its code or
name when details are wanted, and what caused it.  On a terminal the labels
are coloured.
-/

namespace LicenseAudit

open Text

/-- What a line about a failure holds. -/
inductive LineKind where
  | title
  | message
  | hint
  | code
  | name
  | cause
  deriving DecidableEq, Repr

/-- The word for a kind of line. -/
def LineKind.text : LineKind → String
  | .title => "title"
  | .message => "message"
  | .hint => "hint"
  | .code => "code"
  | .name => "name"
  | .cause => "cause"

/-- The lines that show a failure; `detailed` adds its code or name. -/
def Failure.lines (f : Failure) (detailed : Bool) : List (LineKind × String) :=
  let head :=
    match f with
    | .advice code title message hint _ =>
      let shownHint := (hint.getD "")
      [(LineKind.title, title), (.message, message)]
        ++ (if shownHint.isEmpty then [] else [(.hint, shownHint)])
        ++ (if detailed then [(.code, code)] else [])
    | .error kind message _ =>
      (.title, message) :: if detailed then [(.name, kind.name)] else []
    | .value v => [(.title, valueText v)]
  head ++ f.cause?.toList.map fun cause => (.cause, cause.message)

/-- A style of text on a terminal. -/
inductive Style where
  | red
  | yellow
  | cyan
  | bold
  | dim
  deriving DecidableEq, Repr

/-- The style of a name. -/
def Style.ofName? (name : String) : Option Style :=
  [("red", Style.red), ("yellow", .yellow), ("cyan", .cyan), ("bold", .bold),
    ("dim", .dim)].lookup name

/-- The codes that switch a style on and off. -/
def Style.codes : Style → Nat × Nat
  | .red => (31, 39)
  | .yellow => (33, 39)
  | .cyan => (36, 39)
  | .bold => (1, 22)
  | .dim => (2, 22)

/-- The sequence that sends one code to a terminal. -/
def escapeCode (n : Nat) : String :=
  "\x1b[" ++ toString n ++ "m"

/-- A text with styles, the first one innermost; plain without colour. -/
def styled (colour : Bool) (text : String) (styles : List Style) : String :=
  if colour then
    styles.foldl (fun acc s => escapeCode s.codes.1 ++ acc ++ escapeCode s.codes.2) text
  else text

/-- Whether to use colour: as asked, unless nothing was asked; never with
`NO_COLOR`; with `FORCE_COLOR` unless it is `0`; else on a terminal. -/
def colourEnabled (env : Environment) (asked : Option Bool) (terminal : Bool) : Bool :=
  match asked with
  | some wanted => wanted
  | none =>
    if (env.lookup "NO_COLOR").isSome then false
    else
      match env.lookup "FORCE_COLOR" with
      | some value => if value = "0" then terminal else true
      | none => terminal

/-- One line about a failure, with its label. -/
def LineKind.render (colour : Bool) (kind : LineKind) (text : String) : String :=
  let faint (label : String) :=
    styled colour label [.dim] ++ " " ++ styled colour text [.dim]
  match kind with
  | .title => styled colour "Error:" [.red, .bold] ++ " " ++ styled colour text [.bold]
  | .message => text
  | .hint => styled colour "Hint:" [.yellow] ++ " " ++ text
  | .code => faint "Code:"
  | .name => faint "Name:"
  | .cause => faint "Cause:"

/-- The text that shows a failure. -/
def Failure.render (f : Failure) (detailed colour : Bool) : String :=
  "\n".intercalate ((f.lines detailed).map fun (kind, text) => kind.render colour text)

end LicenseAudit
