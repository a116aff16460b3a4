/-!
# The command line

The program has three commands.  It takes some options itself and each
command takes others; all of them are described here, so that arguments are
understood and help is written from one table.
-/

namespace LicenseAudit.CommandLine

/-- An option: its letter, its name, what its value is called if it takes
one, and what it is for. -/
structure Switch where
  letter : Option Char := none
  name : String
  value : Option String := none
  about : String
  deriving DecidableEq, Repr

/-- The option as it is written, by its name. -/
def Switch.long (s : Switch) : String :=
  "--" ++ s.name

/-- Whether an argument is the option, by its letter or its name. -/
def Switch.matches (s : Switch) (argument : String) : Bool :=
  argument = s.long || s.letter.any fun c => argument = String.ofList ['-', c]

/-- The option in full. -/
def Switch.text (s : Switch) : String :=
  let letter := (s.letter.map fun c => String.ofList ['-', c, ',', ' ']).getD ""
  let value := (s.value.map fun v => " <" ++ v ++ ">").getD ""
  letter ++ s.long ++ value

/-- The commands. -/
inductive Command where
  | lint
  | lintFiles
  | licenses
  deriving DecidableEq, Repr

/-- What belongs to a command, or to the program: what it is for, the names
that it takes with what they are for, and its options. -/
structure Form where
  about : String
  operands : Option (String × String) := none
  switches : List Switch := []
  deriving Repr

/-- The name of the program. -/
def programName : String :=
  "licenselint"

/-- The version of the program. -/
def version : String :=
  "0.1.0"

/-- The option that asks for the version. -/
def versionSwitch : Switch :=
  { letter := some 'V', name := "version", about := "output the version number" }

/-- The option that asks for help. -/
def helpSwitch : Switch :=
  { letter := some 'h', name := "help", about := "display help for command" }

/-- The option for the root of the project. -/
def rootSwitch : Switch :=
  { name := "root"
    value := some "dir"
    about := "Project root (default: enclosing git work tree, else the working directory)" }

/-- The option for the configuration file. -/
def configSwitch : Switch :=
  { name := "config"
    value := some "path"
    about := "Tool config path (default: <root>/.licenselint.yaml)" }

/-- The option for more details. -/
def debugSwitch : Switch :=
  { name := "debug", about := "Print debug events and error stacks (default: false)" }

/-- The option for the log file. -/
def logSwitch : Switch :=
  { name := "log-file"
    value := some "path"
    about := "Append structured scan events to a JSONL file" }

/-- The option for a report in JSON. -/
def jsonSwitch : Switch :=
  { name := "json", about := "Emit the report as JSON (default: false)" }

/-- The option for a report in lines. -/
def linesSwitch : Switch :=
  { name := "lines", about := "Emit one line per problem (default: false)" }

/-- The option for no report at all. -/
def quietSwitch : Switch :=
  { letter := some 'q'
    name := "quiet"
    about := "Print nothing; only set the exit code (default: false)" }

/-- The option for one file at a time. -/
def serialSwitch : Switch :=
  { name := "no-multiprocessing", about := "Scan files one at a time" }

/-- The option for the number of files scanned at a time. -/
def jobsSwitch : Switch :=
  { letter := some 'j'
    name := "jobs"
    value := some "n"
    about := "Number of files scanned in parallel" }

/-- What belongs to the program itself. -/
def programForm : Form :=
  { about := "Check that every file in a project carries copyright and licensing information"
    switches := [versionSwitch, rootSwitch, configSwitch, debugSwitch, logSwitch] }

/-- The name that asks for help in the place of a command. -/
def helpName : String :=
  "help"

namespace Command

/-- The commands in the order in which they are listed. -/
def all : List Command :=
  [.lint, .lintFiles, .licenses]

/-- The name of a command. -/
def name : Command → String
  | .lint => "lint"
  | .lintFiles => "lint-file"
  | .licenses => "supported-licenses"

/-- The command of a name. -/
def ofName? (s : String) : Option Command :=
  all.find? fun c => c.name = s

/-- What belongs to a command. -/
def form : Command → Form
  | .lint =>
    { about := "Check every file in the project for copyright and licensing information"
      switches := [jsonSwitch, linesSwitch, quietSwitch, serialSwitch, jobsSwitch] }
  | .lintFiles =>
    { about := "Check only the given files; license directory findings are skipped"
      operands := some ("files", "Files to check, relative to the working directory")
      switches := [jsonSwitch] }
  | .licenses =>
    { about := "List the SPDX license and exception identifiers this tool recognizes" }

/-- Every command is found under its name. -/
theorem ofName?_name (c : Command) : ofName? c.name = some c := by
  cases c <;> decide

end Command

end LicenseAudit.CommandLine
