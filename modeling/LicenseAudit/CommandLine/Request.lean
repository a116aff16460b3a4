import LicenseAudit.Command
import LicenseAudit.CommandLine.Arguments
import LicenseAudit.Text.Blank
import LicenseAudit.Text.Similarity

/-!
# Requests

What users ask for with their arguments.  The arguments are sorted twice:
first by the options of the program, wherever they stand, and then what is
left by those of the command.  What the program cannot understand it
refuses with a sentence, and perhaps with what may have been meant; what a
command cannot understand is refused without a word.
-/

namespace LicenseAudit.CommandLine

open Text Decimal

/-- What users ask for. -/
inductive Request where
  | version
  | help (about : Option Command)
  | misused
  | refused (message : String)
  | rejected
  | lint (r : LintRequest)
  | lintFiles (json : Bool) (files : List String)
  | licenses
  deriving DecidableEq, Repr

/-- What users say for all commands. -/
structure Settings where
  root : Option String := none
  config : Option String := none
  logFile : Option String := none
  detailed : Bool := false
  deriving DecidableEq, Repr

/-- The settings that arguments give; an empty value is none. -/
def Settings.of (a : Arguments) : Settings :=
  let value (s : Switch) := (a.value? s).filter (!·.isEmpty)
  { root := value rootSwitch
    config := value configSwitch
    logFile := value logSwitch
    detailed := a.has debugSwitch }

/-- What may have been meant by a word.  Where the word has two dashes in
front, so have the candidates, and they are left out of account. -/
def suggestion (word : String) (candidates : List String) : String :=
  let isOption := startsWith word "--"
  let bare (s : String) := if isOption then String.ofList (s.toList.drop 2) else s
  let meant := (likely (bare word) (candidates.map bare)).map fun s =>
    if isOption then "--" ++ s else s
  match meant with
  | [] => ""
  | [one] => "\n(Did you mean " ++ one ++ "?)"
  | several => "\n(Did you mean one of " ++ ", ".intercalate several ++ "?)"

/-- The refusal of an unknown option. -/
def unknownOption (argument : String) : Request :=
  let names := (programForm.switches ++ [helpSwitch]).map Switch.long
  let meant := if startsWith argument "--" then suggestion argument names else ""
  .refused ("error: unknown option '" ++ argument ++ "'" ++ meant)

/-- The refusal of an unknown command. -/
def unknownCommand (argument : String) : Request :=
  let names := Command.all.map Command.name ++ [helpName]
  .refused ("error: unknown command '" ++ argument ++ "'" ++ suggestion argument names)

/-- The refusal of an option without its value. -/
def missingValue (s : Switch) : Request :=
  .refused ("error: option '" ++ s.text ++ "' argument missing")

/-- The positive integer that a text is, when it is written just as that
number is; blanks around it do not count. -/
def positive? (s : String) : Option Nat :=
  let ds := trim s.toList
  if ds.isEmpty || !ds.all Char.isDigit then none
  else
    let n := ds.foldl (fun n d => 10 * n + (d.toNat - '0'.toNat)) 0
    if n = 0 || (Double.ofInt n).text.toList != ds then none else some n

/-- What the command line asks of a command, given its operands and
options. -/
def Command.request? (c : Command) (operands : List String) (a : Arguments) : Option Request :=
  match c with
  | .lint => do
    let jobs ← (a.values jobsSwitch).mapM positive?
    return .lint
      { json := a.has jsonSwitch
        lines := a.has linesSwitch
        quiet := a.has quietSwitch
        multiprocessing := !a.has serialSwitch
        jobs := jobs.getLast? }
  | .lintFiles =>
    if operands.isEmpty then none else some (.lintFiles (a.has jsonSwitch) operands)
  | .licenses => some .licenses

/-- What is asked of a command with the arguments that are left for it.
Help is given before an unknown option or missing operands are noticed,
but not before a value is refused. -/
def Command.asked (c : Command) (operands left : List String) : Request :=
  let a := Arguments.of c.form.switches left
  let hasBadValue := ((a.values jobsSwitch).mapM positive?).isNone
  if a.missing.isSome || hasBadValue then .rejected
  else if a.rest.any helpSwitch.matches then .help (some c)
  else if !a.rest.isEmpty then .rejected
  else (c.request? (operands ++ a.operands) a).getD .rejected

/-- What is asked for in the place of a command with the name for help. -/
def askedHelp : List String → Request
  | [] => .help none
  | name :: _ =>
    if name = "" then .help none
    else
      match Command.ofName? name with
      | some c => .help (some c)
      | none => .misused

/-- What sorted arguments ask for. -/
def Request.of (a : Arguments) : Request :=
  if a.has versionSwitch then .version
  else
    match a.missing, a.operands with
    | some s, _ => missingValue s
    | none, [] =>
      match a.rest with
      | [] => .misused
      | first :: _ => if a.rest.any helpSwitch.matches then .help none else unknownOption first
    | none, name :: operands =>
      match Command.ofName? name with
      | some c => c.asked operands a.rest
      | none =>
        if name = helpName then askedHelp operands
        else if a.rest.any helpSwitch.matches then .help none
        else unknownCommand name

/-- Whether failures are shown in detail: as the last word on it among the
arguments before two dashes says, whatever it is there for, or else as
given. -/
def showsDetails (arguments : List String) (a : Arguments) : Bool :=
  let words := (arguments.takeWhile (· != "--")).filter fun s =>
    s = debugSwitch.long || s = "--no-" ++ debugSwitch.name
  match words.getLast? with
  | some word => word = debugSwitch.long
  | none => a.has debugSwitch

end LicenseAudit.CommandLine
