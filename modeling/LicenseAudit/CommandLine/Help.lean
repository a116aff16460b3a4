import LicenseAudit.CommandLine

/-!
# Help

A help page says how the program or a command is used and what for, and
lists operands, options and commands, each with what it is for.  The lists
have two columns; what does not fit into the second is wrapped at blanks.
-/

namespace LicenseAudit.CommandLine

/-- How many columns a page has. -/
def pageWidth : Nat :=
  80

/-- The line with one more word, or that word on a new line when it would
be too long. -/
def wrapWords (width : Nat) (line : String) : List String → List String
  | [] => [line]
  | word :: rest =>
    let longer := line ++ " " ++ word
    if longer.length ≤ width then wrapWords width longer rest
    else line :: wrapWords width word rest

/-- A text in lines of at most `width` characters. -/
def wrapped (width : Nat) (s : String) : List String :=
  match s.splitOn " " with
  | [] => []
  | word :: rest => wrapWords width word rest

/-- A row of spaces. -/
def spaces (count : Nat) : String :=
  String.ofList (List.replicate count ' ')

/-- The lines about one term, the first column being `width` wide. -/
def itemLines (width : Nat) (term about : String) : List String :=
  let indent := 2 + width + 2
  match wrapped (pageWidth - indent - 1) about with
  | [] => []
  | first :: rest =>
    ("  " ++ term ++ spaces (width + 2 - term.length) ++ first) :: rest.map (spaces indent ++ ·)

/-- A list of terms under a title; no list at all without terms. -/
def sectionLines (width : Nat) (title : String) (items : List (String × String)) : List String :=
  if items.isEmpty then []
  else title :: items.flatMap (fun (term, about) => itemLines width term about) ++ [""]

/-- The operands of a form as they are written. -/
def Form.operandText (f : Form) : String :=
  (f.operands.map fun (name, _) => " <" ++ name ++ "...>").getD ""

/-- The options of a form with the one for help. -/
def Form.allSwitches (f : Form) : List Switch :=
  f.switches ++ [helpSwitch]

/-- How a command is called, for the list of commands. -/
def Command.term (c : Command) : String :=
  c.name ++ (if c.form.switches.isEmpty then "" else " [options]") ++ c.form.operandText

/-- The commands with what they are for, and help. -/
def commandItems : List (String × String) :=
  Command.all.map (fun c => (c.term, c.form.about)) ++
    [(helpName ++ " [command]", helpSwitch.about)]

/-- A page about a form that is used in some way. -/
def page (usage : String) (f : Form) (commands : List (String × String)) : String :=
  let operands := f.operands.toList
  let switches := f.allSwitches.map fun s => (s.text, s.about)
  let width := ((operands ++ switches ++ commands).map fun (term, _) => term.length).foldl max 0
  let lines := ["Usage: " ++ usage, "", f.about, ""] ++ sectionLines width "Arguments:" operands ++
    sectionLines width "Options:" switches ++ sectionLines width "Commands:" commands
  "\n".intercalate lines

/-- The page about a command, or about the program. -/
def help : Option Command → String
  | none => page (programName ++ " [options] [command]") programForm commandItems
  | some c => page (programName ++ " " ++ c.name ++ " [options]" ++ c.form.operandText) c.form []

end LicenseAudit.CommandLine
