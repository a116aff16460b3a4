import LicenseAudit.Coverage
import LicenseAudit.Issue

/-!
# Configuration

The configuration of a scan.  Every setting has a default; a value from
outside is checked setting by setting, and what it sets besides is refused.
-/

namespace LicenseAudit

/-- The settings of a scan. -/
structure Config where
  licenseDirectory : String := "LICENSES"
  manifestName : String := "REUSE.toml"
  dep5Path : String := ".reuse/dep5"
  multiprocessing : Bool := true
  jobs : Option Nat := none
  headerBytes : Nat := 4096
  mergeCopyrights : Bool := false
  includeSubmodules : Bool := false
  includeSubprojects : Bool := false
  vcs : VcsMode := .auto
  deriving DecidableEq, Repr

namespace Config

/-- Checks for a text that is not empty. -/
def checkText (place : List String) : Json → Checked String
  | .text s => if s = "" then .refuse place .empty else .ok s
  | v => .refuse place (.wrongKind .text (.ofJson v))

/-- Checks for a truth value. -/
def checkBool (place : List String) : Json → Checked Bool
  | .bool b => .ok b
  | v => .refuse place (.wrongKind .bool (.ofJson v))

/-- Checks for a positive integer. -/
def checkCount (place : List String) : Json → Checked Nat
  | .number .nan => .refuse place (.wrongKind .number .nan)
  | .number n =>
    match n.toInt? with
    | some i => if 0 < i then .ok i.toNat else .refuse place .notPositive
    | none =>
      let fractional : Issue := ⟨place, .wrongKind .integer .float⟩
      .error (fractional :: if n.isPositive then [] else [⟨place, .notPositive⟩])
  | v => .refuse place (.wrongKind .number (.ofJson v))

/-- Checks for a choice of version control. -/
def checkVcs (place : List String) (v : Json) : Checked VcsMode :=
  let text :=
    match v with
    | .text s => some s
    | _ => none
  checkChoice place VcsMode.options (.ofJson v) text

/-- The names of all settings. -/
def names : List String :=
  ["license_dir", "manifest_filename", "dep5_path", "multiprocessing", "jobs", "header_bytes",
    "merge_copyrights", "include_submodules", "include_meson_subprojects", "vcs"]

/-- Checks that nothing else is set. -/
def checkNames (fields : List (String × Json)) : Checked Unit :=
  match ((Json.fieldOrder fields).map Prod.fst).filter (!names.contains ·) with
  | [] => .ok ()
  | unknown => .refuse [] (.unknownKeys unknown)

/-- The configuration that a value is. -/
def check : Json → Checked Config
  | .object fields =>
    let default : Config := {}
    let setting {α : Type} (name : String) (fallback : α)
        (check : List String → Json → Checked α) : Checked α :=
      .orElse fallback (check [name]) (fields.lookup name)
    let settings :=
      (Checked.app (.ok Config.mk) (setting "license_dir" default.licenseDirectory checkText))
        |>.app (setting "manifest_filename" default.manifestName checkText)
        |>.app (setting "dep5_path" default.dep5Path checkText)
        |>.app (setting "multiprocessing" default.multiprocessing checkBool)
        |>.app (setting "jobs" default.jobs fun place v => (checkCount place v).map some)
        |>.app (setting "header_bytes" default.headerBytes checkCount)
        |>.app (setting "merge_copyrights" default.mergeCopyrights checkBool)
        |>.app (setting "include_submodules" default.includeSubmodules checkBool)
        |>.app (setting "include_meson_subprojects" default.includeSubprojects checkBool)
        |>.app (setting "vcs" default.vcs checkVcs)
    (Checked.app (.ok fun config _ => config) settings).app (checkNames fields)
  | v => .refuse [] (.wrongKind .object (.ofJson v))

/-- What the filter of covered paths needs to know. -/
def coverage (c : Config) : CoverageOptions :=
  { licenseDirectory := c.licenseDirectory
    manifestName := c.manifestName
    includeSubmodules := c.includeSubmodules
    includeSubprojects := c.includeSubprojects }

/-- How many files are scanned at a time on a machine with some number of
processors. -/
def workers (multiprocessing : Bool) (jobs : Option Nat) (processors : Nat) : Nat :=
  if multiprocessing then jobs.getD processors else 1

/-- The configuration narrowed by a request: scanning may be asked to go
file by file or with fewer workers, never with more. -/
def narrowed (c : Config) (multiprocessing : Bool) (jobs : Option Nat) : Config :=
  { c with
    multiprocessing := c.multiprocessing && multiprocessing
    jobs :=
      match c.jobs, jobs with
      | some configured, some requested => some (min configured requested)
      | some configured, none => some configured
      | none, requested => requested }

end Config

end LicenseAudit
