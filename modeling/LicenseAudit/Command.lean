import LicenseAudit.Scan

/-!
# Commands

What users ask for: to check a whole project or some of its files, and to
have the report in a format.  A path that users name is taken as seen from
their working directory and must lie below the project's root.  What they
can mend themselves is reported with advice.
-/

namespace LicenseAudit

open Text

/-- The path below a root directory of the file that is named `file` as
seen from the directory `directory`. -/
def projectPath (root directory file : String) : Except Failure String :=
  let path := Path.relative root (Path.resolve directory file)
  if path = "" ∨ startsWith path ".." then
    .error (.advise .usage "File outside project."
      (file ++ " is not inside the project root " ++ root ++ ".")
      (some "Pass files under the project root, or point --root at their project.") none)
  else .ok path

/-- The root of the project that a user means: the directory that is asked
for, else the top of the work tree around the working directory, else that
directory itself. -/
def projectRoot (git : Git) (asked : Option String) (directory : String) :
    Except Failure String :=
  match asked.filter (!·.isEmpty) with
  | some path => .ok (Path.resolve directory path)
  | none =>
    if git.isInsideWorkTree directory then git.workTreeRoot directory else .ok directory

/-- A failure with advice, when users can mend it. -/
def Failure.advised (f : Failure) : Failure :=
  match f with
  | .error .projectRoot message _ =>
    .advise .projectRoot "Project root unavailable." message
      (some "Check the --root option or run from inside the project.") (some f)
  | .error .licenseDirectory message _ => licenseDirectory message
  | .error .duplicateLicense message _ => licenseDirectory message
  | f => f
where
  /-- Advice about the license directory. -/
  licenseDirectory (message : String) : Failure :=
    .advise .licenseDirectory "License directory invalid." message
      (some "Check that the license directory is readable and names each license once.") (some f)

/-- How a project is to be checked, and how the report is to be given. -/
structure LintRequest where
  json : Bool := false
  lines : Bool := false
  quiet : Bool := false
  multiprocessing : Bool := true
  jobs : Option Nat := none
  deriving DecidableEq, Repr

namespace LintRequest

/-- The format that is asked for. -/
def format (r : LintRequest) : ReportFormat :=
  if r.json then .json else if r.lines then .lines else .text

/-- The report as it is asked for; a quiet request asks for none. -/
def output? (r : LintRequest) (report : Report) : Option String :=
  if r.quiet then none else some (report.render r.format)

end LintRequest

/-- Checks every covered file of a project. -/
def LintRequest.run (r : LintRequest) (p : Project) (vcs : Except Failure Vcs) :
    Except Failure Scan :=
  (lintProject { p with config := p.config.narrowed r.multiprocessing r.jobs } vcs).mapError
    Failure.advised

/-- Checks the files that are named as seen from a directory. -/
def lintNamed (p : Project) (vcs : Except Failure Vcs) (directory : String) (files : List String) :
    Except Failure Scan := do
  let paths ← files.mapM (projectPath p.root directory)
  (lintFiles p vcs paths).mapError Failure.advised

/-- The identifiers of a catalog in two sections. -/
def Catalog.text (catalog : Catalog) : String :=
  let titled (title : String) (ids : List String) : List String :=
    ["# " ++ title ++ " (" ++ toString ids.length ++ ")", ""] ++ ids
  "\n".intercalate
    (titled "LICENSES" catalog.licenseList ++ [""] ++ titled "EXCEPTIONS" catalog.exceptionList)

end LicenseAudit
