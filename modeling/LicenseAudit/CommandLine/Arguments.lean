import LicenseAudit.CommandLine
import LicenseAudit.Text.Search

/-!
# Arguments

Arguments are sorted by a list of options: into operands, into given
options with their values, and into what is left for someone else.  From
the first unknown option on, all that is not a known option is left.  Two
dashes end the options.
-/

namespace LicenseAudit.CommandLine

open Text

/-- Arguments that are sorted: the operands, the rest for someone else,
the options given with their values, and the one whose value is missing. -/
structure Arguments where
  operands : List String := []
  rest : List String := []
  given : List (String × Option String) := []
  missing : Option Switch := none
  deriving DecidableEq, Repr

namespace Arguments

/-- The arguments with one more option in front. -/
def give (a : Arguments) (s : Switch) (value : Option String) : Arguments :=
  { a with given := (s.name, value) :: a.given }

/-- Whether an option is given. -/
def has (a : Arguments) (s : Switch) : Bool :=
  a.given.any fun (name, _) => name = s.name

/-- The values that an option is given, in order. -/
def values (a : Arguments) (s : Switch) : List String :=
  a.given.filterMap fun (name, value) => if name = s.name then value else none

/-- The last value that an option is given. -/
def value? (a : Arguments) (s : Switch) : Option String :=
  (a.values s).getLast?

end Arguments

/-- Whether an argument looks like an option. -/
def looksLikeSwitch : String → Bool := fun argument =>
  match argument.toList with
  | '-' :: _ :: _ => true
  | _ => false

/-- The option whose letter comes first in a row of letters after one dash,
and the other letters. -/
def bundled? (switches : List Switch) (argument : String) : Option (Switch × String) :=
  match argument.toList with
  | '-' :: c :: d :: rest =>
    if c = '-' then none
    else
      (switches.find? fun s => s.letter = some c).map fun s => (s, String.ofList (d :: rest))
  | _ => none

/-- The option whose name and value are joined by an equals sign. -/
def assigned? (switches : List Switch) (argument : String) : Option (Switch × String) :=
  match cut? ['='] argument.toList with
  | some (name, value) =>
    (switches.find? fun s => s.value.isSome && s.long = String.ofList name).map fun s =>
      (s, String.ofList value)
  | none => none

/-- The arguments sorted by options; `strayed` says whether an unknown
option came before. -/
def sorted (switches : List Switch) (fuel : Nat) (strayed : Bool) (arguments : List String) :
    Arguments :=
  match fuel, arguments with
  | 0, _ => {}
  | _, [] => {}
  | fuel + 1, argument :: others =>
    let again := sorted switches fuel strayed
    if argument = "--" then
      if strayed then { rest := argument :: others } else { operands := others }
    else
      match switches.find? (·.matches argument) with
      | some s =>
        if s.value.isNone then (again others).give s none
        else
          match others with
          | [] => { missing := some s }
          | value :: others => (again others).give s (some value)
      | none =>
        match bundled? switches argument with
        | some (s, more) =>
          if s.value.isSome then (again others).give s (some more)
          else (again (("-" ++ more) :: others)).give s none
        | none =>
          match assigned? switches argument with
          | some (s, value) => (again others).give s (some value)
          | none =>
            if strayed || looksLikeSwitch argument then
              let a := sorted switches fuel true others
              { a with rest := argument :: a.rest }
            else
              let a := again others
              { a with operands := argument :: a.operands }

/-- The arguments sorted by options. -/
def Arguments.of (switches : List Switch) (arguments : List String) : Arguments :=
  let letters := (arguments.flatMap String.toList).length
  sorted switches (letters + arguments.length + 1) false arguments

end LicenseAudit.CommandLine
