import LicenseAudit.Config
import LicenseAudit.Environment
import LicenseAudit.Tree
import LicenseAudit.Yaml.Document

/-!
# Reading configurations

A configuration is a YAML document in a file of the project, or another
file that users name.  Its texts may refer to environment variables; the
names of settings may not.  A project without such a file has the default
configuration, and so has one whose file holds nothing.
-/

namespace LicenseAudit

namespace Config

/-- The name of the configuration file of a project. -/
def fileName : String :=
  ".licenselint.yaml"

/-- Why a file is no configuration. -/
inductive Fault where
  | unreadable (e : FileError)
  | malformed (fault : Yaml.Fault)
  | unset (name : String) (trail : List String)
  | invalid (issues : List Issue)

/-- The sentence about a fault of the configuration at a path. -/
def Fault.message (path : String) : Fault → String
  | .unreadable _ => "Failed to read config at " ++ path
  | .malformed fault =>
    let place :=
      match fault.place with
      | some p => " (line " ++ toString p.line ++ ", column " ++ toString p.column ++ ")"
      | none => ""
    "Failed to parse YAML config at " ++ path ++ place ++ ": " ++ fault.reason.message
  | .unset name trail =>
    "Environment variable " ++ name ++ " is not set but is referenced in " ++ path ++ " (" ++
      placeText trail ++ ")."
  | .invalid issues => "Invalid config at " ++ path ++ ":\n" ++ issuesText issues

/-- What caused a fault. -/
def Fault.cause? : Fault → Option Failure
  | .unreadable e => some e.failure
  | _ => none

/-- The failure that a fault is reported as.  A document that contains
itself cannot be taken apart, which is no fault of its form. -/
def Fault.failure (path : String) (fault : Fault) : Failure :=
  let reported :=
    Failure.advise .config "Config file invalid." ("Config file at " ++ path ++ " is invalid.")
      (some "Fix the config file and rerun. Every key is optional.")
      (some (.error .config (fault.message path) fault.cause?))
  match fault with
  | .malformed ⟨.selfContaining, _⟩ => .plain .range Yaml.Reason.selfContaining.message
  | _ => reported

/-- The failure to find a configuration that users named. -/
def missing (path : String) : Failure :=
  .advise .config "Config file missing." ("Config file not found at " ++ path ++ ".")
    (some ("Create " ++ fileName ++ " or drop the --config option.")) none

mutual

/-- The settings with the values of all variables that their texts refer
to; `trail` leads to them. -/
def expanded (env : Environment) (trail : List String) : Json → Except Fault Json
  | .text s =>
    match env.expand s with
    | .ok t => .ok (.text t)
    | .error name => .error (.unset name trail)
  | .list items => (expandedItems env trail 0 items).map .list
  | .object fields => do
    let visited := Json.fieldOrder (expandedFields env trail fields)
    return .object (← visited.mapM fun (name, value) => do return (name, ← value))
  | v => .ok v

/-- The items of a list from some position on, expanded. -/
def expandedItems (env : Environment) (trail : List String) (position : Nat) :
    List Json → Except Fault (List Json)
  | [] => .ok []
  | v :: rest => do
    let first ← expanded env (trail ++ [toString position]) v
    return first :: (← expandedItems env trail (position + 1) rest)

/-- The fields of an object, each expanded. -/
def expandedFields (env : Environment) (trail : List String) :
    List (String × Json) → List (String × Except Fault Json)
  | [] => []
  | (name, v) :: rest =>
    (name, expanded env (trail ++ [name]) v) :: expandedFields env trail rest

end

/-- The configuration that a text is. -/
def parse (env : Environment) (text : String) : Except Fault Config := do
  let document ← (Yaml.parse text).mapError .malformed
  let settings :=
    match document.getD .null with
    | .null => .object []
    | v => v.json
  (check (← expanded env [] settings)).mapError .invalid

/-- The configuration in the file at a path. -/
def readAt (tree : Tree) (env : Environment) (path : String) : Except Fault Config := do
  let bytes ← (tree.read path).mapError .unreadable
  parse env (String.ofList (Text.Utf8.decode bytes))

/-- The configuration of the project at a root, from the file that users
named or the one of the project, which may be missing. -/
def load (tree : Tree) (env : Environment) (root : String) (named : Option String) :
    Except Failure Config :=
  let path := Path.resolve root (named.getD fileName)
  if tree.holds path then (readAt tree env path).mapError (·.failure path)
  else if named.isSome then .error (missing path)
  else .ok {}

end Config

end LicenseAudit
