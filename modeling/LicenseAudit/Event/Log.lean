import LicenseAudit.Event
import LicenseAudit.Text.Utf8
import LicenseAudit.Tree

/-!
# Log files

A log file holds one line of JSON for every event.  It is opened for
appending, its folders being made if need be, and once it is closed nothing
is added any more.  A file that cannot be written to does not stop the run:
a warning is printed instead.
-/

namespace LicenseAudit

/-- An open log file: its path, the run it is written for, its text, and
whether it can still be written to and is still open. -/
structure Log where
  path : String
  runId : Option String
  text : String
  isSound : Bool
  isOpen : Bool
  deriving DecidableEq, Repr

namespace Log

/-- Why the folder of a log file cannot be made: something on the way to it
is no folder. -/
def folderError? (tree : Tree) (folder : String) : Option FileError :=
  match tree.find folder with
  | .ok (.folder _) => none
  | .ok _ => some ⟨.exists, "mkdir", some folder⟩
  | .error .missing => none
  | .error o => some ⟨o, "mkdir", some folder⟩

/-- The log file at an absolute path, opened for a run. -/
def start (tree : Tree) (path : String) (runId : Option String) : Except FileError Log :=
  match folderError? tree (Path.parent path) with
  | some e => .error e
  | none =>
    match tree.find path with
    | .ok (.file bytes) => .ok ⟨path, runId, String.ofList (Text.Utf8.decode bytes), true, true⟩
    | .ok _ => .error ⟨.isFolder, "open", some path⟩
    | .error .missing => .ok ⟨path, runId, "", true, true⟩
    | .error o => .error ⟨o, "open", some path⟩

/-- The tree with the log file in it, as it is after opening. -/
def placed (log : Log) (tree : Tree) : Tree :=
  if tree.holds log.path then tree
  else tree.put (Path.steps true log.path) (.file (Text.Utf8.encode log.text))

/-- The warning about a failed operation. -/
def warning (task : String) (operation : String) : String :=
  let e : FileError := ⟨.badHandle, operation, none⟩
  "Warning: failed to " ++ task ++ ": " ++ e.message

/-- The log after one more event, and the warnings printed. -/
def append (log : Log) (e : Event) (now : Moment) : Except Failure (Log × List String) := do
  let fields ← e.stamped log.runId now
  if !log.isOpen then return (log, [])
  else if log.isSound then
    return ({ log with text := log.text ++ (Json.object fields).compact ++ "\n" }, [])
  else return (log, [warning ("write log event to " ++ log.path) "write"])

/-- The log after it is closed, and the warnings printed. -/
def close (log : Log) : Log × List String :=
  let warnings :=
    if log.isOpen && !log.isSound then [warning ("close log file " ++ log.path) "fsync"] else []
  ({ log with isOpen := false }, warnings)

/-- The log after it has become impossible to write to. -/
def damage (log : Log) : Log :=
  { log with isSound := false }

end Log

end LicenseAudit
