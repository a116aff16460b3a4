import LicenseAudit.Catalog.Default
import LicenseAudit.CommandLine.Help
import LicenseAudit.CommandLine.Request
import LicenseAudit.Config.Reading
import LicenseAudit.Event.Log
import LicenseAudit.Failure.Display

/-!
# Sessions

One run of the program: from the arguments, and all that the program sees
of the machine, to what it writes and its exit code.  The project's root is
found first, then its configuration is read, then the log file is opened;
only then is the project scanned.  The exit code is zero when the project
complies, or when users only asked a question.
-/

namespace LicenseAudit.CommandLine

/-- What the program sees of the machine that it runs on. -/
structure Machine where
  tree : Tree
  environment : Environment := []
  directory : String
  git : Git := Git.absent
  processors : Nat := 4
  isTerminal : Bool := false
  runId : String := "run"
  now : Moment := .text ""

/-- What a run of the program leaves: its output, its errors, its exit code
and the log file.  The errors may end with a failure shown in detail. -/
structure Answer where
  output : String := ""
  errors : String := ""
  exit : Nat := 0
  log : Option Log := none
  isDetailed : Bool := false

/-- Texts, each on a line of its own. -/
def lineText (lines : List String) : String :=
  String.join (lines.map (· ++ "\n"))

/-- The answer with a failure shown at the end of its errors. -/
def Answer.failed (a : Answer) (m : Machine) (detailed : Bool) (f : Failure) : Answer :=
  let shown := f.render detailed (colourEnabled m.environment none m.isTerminal)
  { a with errors := a.errors ++ lineText [shown], exit := 1, isDetailed := detailed }

/-- The answer with events added to its errors and its log. -/
def Answer.report (a : Answer) (m : Machine) (detailed : Bool) (events : List Event) : Answer :=
  let shown := lineText (events.filterMap (·.consoleLine? detailed))
  let note (log : Log) (e : Event) : Log :=
    match log.append e m.now with
    | .ok (longer, _) => longer
    | .error _ => log
  let log := a.log.map fun log => events.foldl note log
  { a with errors := a.errors ++ shown, log }

/-- The answer of a scan of the project that the settings mean. -/
def scanAnswer (m : Machine) (detailed : Bool) (s : Settings)
    (scan : Project → Except Failure Vcs → Except Failure Scan)
    (output? : Report → Option String) : Answer :=
  let opened : Except Failure (String × Config × Option Log) := do
    let root ← projectRoot m.git s.root m.directory
    let config ← Config.load m.tree m.environment root (s.config.map (Path.resolve m.directory))
    match s.logFile with
    | none => return (root, config, none)
    | some file =>
      let log ← (Log.start m.tree (Path.resolve m.directory file) (some m.runId)).mapError
        FileError.failure
      return (root, config, some log)
  match opened with
  | .error f => ({} : Answer).failed m detailed f
  | .ok (root, config, log) =>
    let tree := (log.map fun log => log.placed m.tree).getD m.tree
    let project : Project := ⟨tree, root, config, Catalog.builtIn, m.processors⟩
    match scan project (Vcs.choose tree m.git root config.vcs) with
    | .error f => ({ log } : Answer).failed m detailed f
    | .ok found =>
      let a := ({ log } : Answer).report m s.detailed found.events
      { a with
        output := lineText (output? found.report).toList
        exit := if found.report.isCompliant then 0 else 1 }

/-- The answer to a request. -/
def answer (m : Machine) (detailed : Bool) (s : Settings) : Request → Answer
  | .version => { output := lineText [version] }
  | .help about => { output := help about }
  | .misused => { errors := help none, exit := 1 }
  | .refused message => ({} : Answer).failed m detailed (.plain .commandLine message)
  | .rejected => { exit := 1 }
  | .licenses => { output := lineText [Catalog.builtIn.text] }
  | .lint r => scanAnswer m detailed s r.run r.output?
  | .lintFiles json files =>
    scanAnswer m detailed s (fun p vcs => lintNamed p vcs m.directory files) fun report =>
      some (report.render (if json then .json else .lines))

/-- The answer of the program to its arguments. -/
def run (m : Machine) (arguments : List String) : Answer :=
  let a := Arguments.of programForm.switches arguments
  answer m (showsDetails arguments a) (Settings.of a) (.of a)

end LicenseAudit.CommandLine
