import LicenseAudit.Text.Blank
import LicenseAudit.Text.Utf8
import LicenseAudit.Tree

/-!
# Version control

A version control system tells which paths of a project it ignores and in
which directories other repositories live.  One is git, asked by running
its program; the answer of one run is its output, its error output and its
exit code.  The directories of other repositories are read from
`.gitmodules`.
-/

namespace LicenseAudit

open Text

/-- What a run of a program answers. -/
structure RunResult where
  output : String := ""
  errors : String := ""
  exit : Int := 0
  deriving DecidableEq, Repr

/-- The git program: what it answers to arguments in a directory.  Where
there is no such program it answers nothing. -/
abbrev Git := String → List String → Option RunResult

namespace Git

/-- No git program. -/
def absent : Git :=
  fun _ _ => none

/-- The sentence of a run that failed without error output. -/
def exitText (args : List String) (r : RunResult) : String :=
  let output := (dropEnd? ['\n'] r.output.toList).getD r.output.toList
  "Command failed with exit code " ++ toString r.exit ++ ": git " ++ " ".intercalate args ++
    (if output.isEmpty then "" else "\n\n" ++ String.ofList output)

/-- The output of a run that succeeds. -/
def output (git : Git) (directory : String) (args : List String) : Except Failure String :=
  let failed (detail : String) : Failure :=
    .error .git
      ("git " ++ " ".intercalate args ++ " failed (cwd=" ++ directory ++ "): " ++ trimmed detail)
      (some (.value (.object [])))
  match git directory args with
  | none => .error (failed ("Command failed with ENOENT: git " ++ " ".intercalate args))
  | some r =>
    if r.exit = 0 then .ok r.output
    else .error (failed (if r.errors = "" then exitText args r else r.errors))

/-- Whether a directory lies in a work tree. -/
def isInsideWorkTree (git : Git) (directory : String) : Bool :=
  match git.output directory ["rev-parse", "--is-inside-work-tree"] with
  | .ok answer => trimmed answer = "true"
  | .error _ => false

/-- The top directory of the work tree around a directory. -/
def workTreeRoot (git : Git) (directory : String) : Except Failure String := do
  return trimmed (← git.output directory ["rev-parse", "--show-toplevel"])

/-- The ignored paths below a directory; ignored directories end with a
slash. -/
def ignoredPaths (git : Git) (directory : String) : Except Failure (List String) := do
  let answer ← git.output directory
    ["ls-files", "--exclude-standard", "--ignored", "--others", "--directory", "-z"]
  return (split (Char.ofNat 0) answer).filter (!·.isEmpty)

end Git

/-- The ways to choose a version control system. -/
inductive VcsMode where
  | auto
  | git
  | none
  deriving DecidableEq, Repr

/-- The modes by their names. -/
def VcsMode.options : List (String × VcsMode) :=
  [("auto", .auto), ("git", .git), ("none", .none)]

/-- What a version control system says about a project. -/
structure Vcs where
  name : String
  ignored : Except Failure (List String)
  submodules : Except Failure (List String)

namespace Vcs

/-- No version control: nothing is ignored. -/
def none : Vcs :=
  ⟨"none", .ok [], .ok []⟩

/-- A line without a carriage return at its end. -/
def dropReturn (line : List Char) : List Char :=
  (dropEnd? ['\r'] line).getD line

/-- The lines of a text that ends its lines with or without a carriage
return. -/
def linesOf (text : List Char) : List (List Char) :=
  let lines := pieces '\n' text
  lines.dropLast.map dropReturn ++ lines.getLast?.toList

/-- The value after an equals sign: without the blanks around it, or else
the last blank itself.  It has no line end. -/
def settingValue? (cs : List Char) : Option (List Char) :=
  let value := trim cs
  if value.isEmpty then (cs.reverse.find? (!isLineEnd ·)).map fun c => [c]
  else if value.any isLineEnd then Option.none
  else some value

/-- The directory that a line of `.gitmodules` gives, without slashes at
its end. -/
def submodule? (line : List Char) : Option String :=
  match dropStart? "path".toList (trimLeft line) with
  | Option.none => Option.none
  | some rest =>
    match trimLeft rest with
    | '=' :: value =>
      (settingValue? value).map fun v =>
        String.ofList (v.reverse.dropWhile (· == '/')).reverse
    | _ => Option.none

/-- The directories that the text of `.gitmodules` gives. -/
def submodulesOf (text : List Char) : List String :=
  (linesOf text).filterMap submodule?

/-- Git, as it sees the project at a root path. -/
def git (tree : Tree) (program : Git) (root : String) : Vcs :=
  { name := "git"
    ignored := program.ignoredPaths root
    submodules :=
      let path := Path.join root ".gitmodules"
      if tree.holds path then
        match tree.read path with
        | .ok bytes => .ok (submodulesOf (Utf8.decode bytes))
        | .error e => .error e.failure
      else .ok [] }

/-- The version control system of the project at a root path. -/
def choose (tree : Tree) (program : Git) (root : String) (mode : VcsMode) : Except Failure Vcs :=
  if mode = .none then .ok none
  else if program.isInsideWorkTree root then .ok (git tree program root)
  else if mode = .git then
    .error (.plain .git (root ++ " is not inside a git work tree"))
  else .ok none

end Vcs

end LicenseAudit
