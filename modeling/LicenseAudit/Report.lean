import LicenseAudit.Compliance

/-!
# Reports

A report is the classification of a project with its files, its stored
licenses and some counts.  It is written in three formats: a text with a
section for each list of problems, one line for each problem, and JSON.
-/

namespace LicenseAudit

open Text

/-- How many files there are, and how many of them lack something. -/
structure Counts where
  files : Nat
  withCopyright : Nat
  withoutCopyright : Nat
  withLicenses : Nat
  withoutLicenses : Nat
  readErrors : Nat
  deriving DecidableEq, Repr

/-- The path of the text of a license. -/
structure StoredLicense where
  id : String
  path : String
  deriving DecidableEq, Repr

/-- A report on the project below a root directory. -/
structure Report where
  root : String
  findings : Classification
  isCompliant : Bool
  counts : Counts
  licenses : List StoredLicense
  files : List FileInfo
  deriving DecidableEq, Repr

/-- The formats of reports. -/
inductive ReportFormat where
  | text
  | lines
  | json
  deriving DecidableEq, Repr

namespace Report

/-- The report on files with their classification. -/
def of (root : String) (files : List FileInfo) (findings : Classification)
    (inventory : Inventory) : Report :=
  let withCopyright := files.countP (·.fields.has .copyrights)
  let withLicenses := files.countP (·.fields.has .licenses)
  { root
    findings
    isCompliant := findings.isCompliant
    counts :=
      { files := files.length
        withCopyright
        withoutCopyright := files.length - withCopyright
        withLicenses
        withoutLicenses := files.length - withLicenses
        readErrors := findings.readErrors.length }
    licenses := inventory.records.map fun r => ⟨r.id, r.path⟩
    files := sortedOn FileInfo.path files }

/-- The path of the text of a license, or its identifier when there is no
text. -/
def pathOf (r : Report) (id : String) : String :=
  ((r.licenses.reverse.find? (·.id = id)).map StoredLicense.path).getD id

/-- The identifiers, each with the path of its text. -/
def located (r : Report) (ids : List String) : List String :=
  ids.map fun id => id ++ " (" ++ r.pathOf id ++ ")"

/-- A section with a title and items; one without items is left out. -/
def section? (title : String) (items : List String) : Option String :=
  if items.isEmpty then none
  else some ("\n".intercalate (["# " ++ title, ""] ++ items.map ("* " ++ ·)))

/-- The values with commas between them. -/
def commas (values : List String) : String :=
  ", ".intercalate values

/-- The values with commas between them, or a word for none. -/
def commasOrNone (values : List String) : String :=
  if values.isEmpty then "none" else commas values

/-- The sections about problems. -/
def problemSections (r : Report) : List String :=
  let f := r.findings
  let lackingOne (paths : List String) := paths.filter (!f.withoutInformation.contains ·)
  [ ("BAD LICENSES", r.located f.badLicenses),
    ("DEPRECATED LICENSES", r.located f.deprecatedLicenses),
    ("LICENSES WITHOUT FILE EXTENSION", r.located f.licensesWithoutExtension),
    ("MISSING LICENSES", f.missingLicenses.map fun m => m.id ++ " used in " ++ commas m.files),
    ("UNUSED LICENSES", r.located f.unusedLicenses),
    ("UNPARSABLE LICENSE EXPRESSIONS",
      f.unparsable.map fun u => u.path ++ ": " ++ "; ".intercalate u.expressions),
    ("READ ERRORS", f.readErrors.map fun e => e.path ++ ": " ++ e.message),
    ("FILES WITHOUT COPYRIGHT OR LICENSE INFORMATION", f.withoutInformation),
    ("FILES WITHOUT COPYRIGHT INFORMATION", lackingOne f.withoutCopyright),
    ("FILES WITHOUT LICENSE INFORMATION", lackingOne f.withoutLicenses)
  ].filterMap fun (title, items) => section? title items

/-- How many of all files there are. -/
def share (n total : Nat) : String :=
  toString n ++ " / " ++ toString total

/-- The section that sums up. -/
def summary (r : Report) : String :=
  let f := r.findings
  "\n".intercalate
    [ "# SUMMARY", "",
      "* Bad licenses: " ++ commasOrNone f.badLicenses,
      "* Deprecated licenses: " ++ commasOrNone f.deprecatedLicenses,
      "* Licenses without file extension: " ++ commasOrNone f.licensesWithoutExtension,
      "* Missing licenses: " ++ commasOrNone (f.missingLicenses.map MissingLicense.id),
      "* Unused licenses: " ++ commasOrNone f.unusedLicenses,
      "* Used licenses: " ++ commasOrNone f.usedLicenses,
      "* Read errors: " ++ toString r.counts.readErrors,
      "* Files with copyright information: " ++ share r.counts.withCopyright r.counts.files,
      "* Files with license information: " ++ share r.counts.withLicenses r.counts.files ]

/-- The sentence about the outcome. -/
def verdict (r : Report) : String :=
  if r.isCompliant then
    "The project is compliant: every file has copyright and licensing information."
  else "The project is not compliant."

/-- The report as a text. -/
def text (r : Report) : String :=
  "\n\n".intercalate (r.problemSections ++ [r.summary, r.verdict])

/-- A problem and the path of the file that it is about. -/
structure ProblemLine where
  path : String
  problem : String
  deriving DecidableEq, Repr

/-- A problem on one line. -/
def ProblemLine.text (l : ProblemLine) : String :=
  l.path ++ ": " ++ l.problem

/-- The problems about stored licenses, each named by its identifier. -/
def licenseLines (r : Report) (problem : String) (ids : List String) : List ProblemLine :=
  ids.map fun id => ⟨r.pathOf id, problem ++ " " ++ id⟩

/-- The problems one by one. -/
def problemLines (r : Report) : List ProblemLine :=
  let f := r.findings
  r.licenseLines "bad license" f.badLicenses
    ++ r.licenseLines "deprecated license" f.deprecatedLicenses
    ++ r.licenseLines "license text without file extension" f.licensesWithoutExtension
    ++ f.missingLicenses.flatMap
      (fun m => m.files.map fun path => ⟨path, "missing license " ++ m.id⟩)
    ++ r.licenseLines "unused license" f.unusedLicenses
    ++ f.unparsable.flatMap (fun u =>
      u.expressions.map fun e => ⟨u.path, "unparsable license expression '" ++ e ++ "'"⟩)
    ++ f.readErrors.map (fun e => ⟨e.path, "read error: " ++ e.message⟩)
    ++ f.withoutInformation.map (fun path => ⟨path, "no copyright and licensing information"⟩)

/-- An object with a field for each of some pairs. -/
def objectOf (pairs : List (String × Json)) : Json :=
  .object (pairs.foldl (fun fields (name, value) => Json.setField fields name value) [])

/-- The version of the JSON format. -/
def formatVersion : Nat := 1

/-- The lists of problems as JSON. -/
def problemsJson (r : Report) : Json :=
  let f := r.findings
  let byId (ids : List String) := objectOf (ids.map fun id => (id, .text (r.pathOf id)))
  .object
    [ ("bad_licenses", byId f.badLicenses),
      ("deprecated_licenses", byId f.deprecatedLicenses),
      ("licenses_without_extension", byId f.licensesWithoutExtension),
      ("missing_licenses", objectOf (f.missingLicenses.map fun m => (m.id, .texts m.files))),
      ("unused_licenses", .texts f.unusedLicenses),
      ("unparsable_expressions",
        objectOf (f.unparsable.map fun u => (u.path, .texts u.expressions))),
      ("files_without_information", .texts f.withoutInformation),
      ("read_errors", .list (f.readErrors.map fun e =>
        .object [("path", .text e.path), ("message", .text e.message)])) ]

/-- The information about a file as JSON. -/
def fileJson (f : FileInfo) : Json :=
  .object
    [ ("path", .text f.path),
      ("copyrights", .texts f.fields.copyrights),
      ("licenses", .texts f.fields.licenses),
      ("contributors", .texts f.fields.contributors),
      ("sources", .list (f.sources.map fun s =>
        .object [("kind", .text s.kind.name), ("path", .text s.path)])) ]

/-- The sums as JSON. -/
def summaryJson (r : Report) : Json :=
  .object
    [ ("used_licenses", .texts r.findings.usedLicenses),
      ("files_total", .nat r.counts.files),
      ("files_with_copyright_info", .nat r.counts.withCopyright),
      ("files_with_licensing_info", .nat r.counts.withLicenses),
      ("files_without_copyright", .texts r.findings.withoutCopyright),
      ("files_without_licenses", .texts r.findings.withoutLicenses),
      ("read_errors", .nat r.counts.readErrors) ]

/-- The report as JSON. -/
def json (r : Report) : Json :=
  .object
    [ ("report_format", .nat formatVersion),
      ("root", .text r.root),
      ("compliant", .bool r.isCompliant),
      ("non_compliant", r.problemsJson),
      ("files", .list (r.files.map fileJson)),
      ("summary", r.summaryJson) ]

/-- The report in a format. -/
def render (r : Report) : ReportFormat → String
  | .text => r.text
  | .lines => "\n".intercalate (r.problemLines.map ProblemLine.text)
  | .json => r.json.indented

end Report

end LicenseAudit
