import LicenseAudit.Collection
import LicenseAudit.Config
import LicenseAudit.Coverage.Walk
import LicenseAudit.Dep5.Reading
import LicenseAudit.Event
import LicenseAudit.Inventory.Directory
import LicenseAudit.Manifest.Reading
import LicenseAudit.Report
import LicenseAudit.Resolution

/-!
# Scanning a project

A scan first **surveys** a project: its version control, its license
inventory, and the files that its configuration covers.  Whatever is wrong
with these ends the scan.  Then it reads the manifests, collects and
resolves what is known about each of its **targets**, and makes the report.
A manifest that cannot be read is left out with a warning, and a file that
cannot be read is an item of the report, so that nothing ends a scan once
the survey is made.
-/

namespace LicenseAudit

open Text

/-- A project to be scanned: the files of the machine, the absolute path of
the project's root, its configuration and the catalog of licenses. -/
structure Project where
  tree : Tree
  root : String
  config : Config
  catalog : Catalog
  processors : Nat := 4

/-- What is known about a project before its files are read. -/
structure Survey where
  vcs : String
  inventory : Inventory
  filter : PathFilter
  files : ProjectFiles

namespace Project

/-- Checks that the root is a folder. -/
def checkRoot (p : Project) : Except Failure Unit :=
  match p.tree.isFolder p.root with
  | .ok true => .ok ()
  | .ok false => .error (.plain .projectRoot ("Project root " ++ p.root ++ " is not a directory"))
  | .error e =>
    .error (.error .projectRoot ("Project root " ++ p.root ++ " does not exist") (some e.failure))

/-- The survey of a project under version control. -/
def survey (p : Project) (vcs : Except Failure Vcs) : Except Failure Survey := do
  p.checkRoot
  let vcs ← vcs
  let inventory ← Inventory.scan p.tree p.root p.config.licenseDirectory p.catalog
  let filter ← PathFilter.of p.config.coverage vcs
  return ⟨vcs.name, inventory, filter, .of p.tree p.root filter⟩

/-- The text of a file of the project. -/
def textAt (p : Project) (path : String) : Except FileError String := do
  return String.ofList (Utf8.decode (← p.tree.read (Path.join p.root path)))

/-- The manifest at a path. -/
def manifestAt (p : Project) (path : String) : Except Failure Manifest :=
  match p.textAt path with
  | .error e => .error e.failure
  | .ok text => (Manifest.parse path text).mapError (·.failure path)

/-- The warning about a manifest that is left out. -/
def ignoring (path : String) (reason : Failure) : Event :=
  .warning "manifest.invalid" ("Ignoring " ++ path ++ ": " ++ reason.message)
    [("path", .text path)]

/-- The entries of the manifest at a path. -/
def entriesAt (p : Project) (path : String) : List Entry :=
  match p.manifestAt path with
  | .ok m => m.entries
  | .error _ => []

/-- The warning about the manifest at a path, if there is one. -/
def manifestWarning? (p : Project) (path : String) : Option Event :=
  match p.manifestAt path with
  | .ok _ => none
  | .error reason => some (ignoring path reason)

/-- The deprecated manifest, or why it cannot be read; `none` when there is
none. -/
def dep5? (p : Project) : Option (Except Failure Dep5) :=
  let path := p.config.dep5Path
  if p.tree.holds (Path.join p.root path) then
    some <|
      match p.textAt path with
      | .error e => .error e.failure
      | .ok text => (Dep5.parse path text).mapError (·.failure path)
  else none

/-- The warnings about the deprecated manifest. -/
def dep5Warnings (p : Project) : List Event :=
  let path := p.config.dep5Path
  let deprecated : Event :=
    .warning "manifest.deprecated"
      (path ++ " is deprecated; move its annotations to REUSE.toml") [("path", .text path)]
  match p.dep5? with
  | none => []
  | some (.ok _) => [deprecated]
  | some (.error reason) => [deprecated, ignoring path reason]

end Project

/-- What comes of one file: information about it, or why it cannot be
read. -/
inductive Outcome where
  | known (info : FileInfo)
  | unread (e : ReadError)
  deriving DecidableEq, Repr

namespace Outcome

/-- The information about the file. -/
def info? : Outcome → Option FileInfo
  | .known info => some info
  | .unread _ => none

/-- Why the file cannot be read. -/
def readError? : Outcome → Option ReadError
  | .known _ => none
  | .unread e => some e

/-- The warning about a file. -/
def warning? : Outcome → Option Event
  | .unread e =>
    some (.warning "file.read_error" ("Could not read " ++ e.path)
      [("path", .text e.path), ("error", .text e.message)])
  | .known info =>
    if info.unparsable.isEmpty then none
    else
      some (.warning "file.unparsable_expression"
        ("Could not parse license expression in " ++ info.path)
        [("path", .text info.path), ("expressions", .texts info.unparsable)])

end Outcome

/-- What the scan of a file needs besides its path: the project, the
entries of its manifests and its deprecated manifest. -/
structure Sources where
  project : Project
  entries : List Entry
  dep5 : Option Dep5

namespace Sources

/-- What a project with some manifests says about its files. -/
def of (p : Project) (manifests : List String) : Sources :=
  ⟨p, manifests.flatMap p.entriesAt, p.dep5?.bind Except.toOption⟩

/-- The information about the file at a path, read with `extract`. -/
def inform (s : Sources) (extract : String → Extraction) (path : String) :
    Except Failure FileInfo := do
  let c := s.project.config
  let found ← (collect s.project.tree s.project.root c.headerBytes s.dep5 extract path).mapError
    CollectionError.failure
  (resolve path found.records s.entries ⟨c.mergeCopyrights, found.unparsable⟩).mapError
    fun e => .plain .evidence e.message

/-- What comes of the file at a path, read with `extract`. -/
def outcome (s : Sources) (extract : String → Extraction) (path : String) : Outcome :=
  match s.inform extract path with
  | .ok info => .known info
  | .error reason => .unread ⟨path, reason.message⟩

/-- The text that is read for the file at a path. -/
def textFor? (s : Sources) (path : String) : Option String :=
  match Collection.speaker s.project.tree s.project.root path s.project.config.headerBytes with
  | .ok (_, _, text) => text
  | .error _ => none

/-- What comes of the file at a path, and the validator after reading it. -/
def scanFile (s : Sources) (path : String) (v : Validator) : Outcome × Validator :=
  let v' := ((s.textFor? path).map fun text => (v.extract text).2).getD v
  (s.outcome (fun text => (v.extract text).1) path, v')

/-- What comes of several files, one after the other. -/
def scanFiles (s : Sources) : List String → Validator → List Outcome × Validator
  | [], v => ([], v)
  | path :: rest, v =>
    let (first, v) := s.scanFile path v
    let (others, v) := s.scanFiles rest v
    (first :: others, v)

end Sources

/-- The files that a scan is about: all that are covered, or those of some
paths that are not excluded. -/
inductive Selection where
  | covered
  | only (paths : List String)
  deriving DecidableEq, Repr

namespace Selection

/-- The targets of a scan. -/
def targets (s : Survey) : Selection → List String
  | .covered => s.files.covered
  | .only paths => paths.eraseDups.filter (!s.filter.isExcluded ·)

/-- The events about paths that are left out. -/
def skipped (s : Survey) : Selection → List Event
  | .covered => []
  | .only paths =>
    (paths.eraseDups.filter (s.filter.isExcluded ·)).map fun path =>
      .debug "file.skipped" ("Skipping " ++ path ++ ": not a covered file") [("path", .text path)]

/-- The classification as far as a scan can tell: some files alone do not
tell whether a stored license is used. -/
def limit (c : Classification) : Selection → Classification
  | .covered => c
  | .only _ => c.withoutInventory

end Selection

/-- A report, and the events on the way to it. -/
structure Scan where
  report : Report
  events : List Event

namespace Scan

/-- The event at the start of reading files. -/
def started (p : Project) (s : Survey) (files : Nat) : Event :=
  let workers := Config.workers p.config.multiprocessing p.config.jobs p.processors
  .debug "scan.start"
    ("Scanning " ++ toString files ++ " files with " ++ (Json.nat workers).compact ++ " workers")
    [("root", .text p.root), ("files", .nat files), ("concurrency", .nat workers),
      ("vcs", .text s.vcs)]

/-- The event about a license without a text. -/
def unresolved (m : MissingLicense) : Event :=
  .debug "license.unresolved" ("No license text for " ++ m.id)
    [("identifier", .text m.id), ("files", .texts m.files)]

/-- The event at the end. -/
def completed (r : Report) : Event :=
  .debug "scan.complete"
    (if r.isCompliant then "Project is compliant" else "Project is not compliant")
    [("compliant", .bool r.isCompliant), ("files", .nat r.counts.files)]

/-- The report on what came of the targets. -/
def reportOn (p : Project) (s : Survey) (selection : Selection) (outcomes : List Outcome)
    (v : Validator) : Report :=
  let files := outcomes.filterMap Outcome.info?
  let found := v.classify files s.inventory (outcomes.filterMap Outcome.readError?)
  .of p.root files (selection.limit found) s.inventory

/-- The scan of a surveyed project. -/
def conduct (p : Project) (s : Survey) (selection : Selection) : Scan :=
  let targets := selection.targets s
  let (outcomes, v) := (Sources.of p s.files.manifests).scanFiles targets (.new p.catalog)
  let report := reportOn p s selection outcomes v
  { report
    events := s.files.manifests.filterMap p.manifestWarning? ++ p.dep5Warnings
      ++ selection.skipped s ++ [started p s targets.length]
      ++ outcomes.filterMap Outcome.warning? ++ report.findings.missingLicenses.map unresolved
      ++ [completed report] }

end Scan

/-- The scan of a project under version control. -/
def Project.scan (p : Project) (vcs : Except Failure Vcs) (selection : Selection) :
    Except Failure Scan :=
  (p.survey vcs).map fun s => Scan.conduct p s selection

/-- The scan of every covered file of a project. -/
def lintProject (p : Project) (vcs : Except Failure Vcs) : Except Failure Scan :=
  p.scan vcs .covered

/-- The scan of some files of a project. -/
def lintFiles (p : Project) (vcs : Except Failure Vcs) (paths : List String) :
    Except Failure Scan :=
  p.scan vcs (.only paths)

end LicenseAudit
