import LicenseAudit.Failure
import LicenseAudit.Issue
import LicenseAudit.Manifest
import LicenseAudit.Toml.Document

/-!
# Reading manifests

A manifest is a TOML document of version 1 with a list of entries.  Reading
one checks the form of everything it uses, ignores the fields it does not
know, and reports all that is wrong at once, the version first and then the
entries in order.
-/

namespace LicenseAudit

open Text

/-- A manifest and its entries. -/
structure Manifest where
  path : String
  directory : String
  depth : Nat
  entries : List Entry
  deriving DecidableEq, Repr

namespace Manifest

/-- Why a text is no manifest. -/
inductive Fault where
  | unreadable (position : Position)
  | invalid (issues : List Issue)
  deriving Repr

/-- The sentence about a fault of the manifest at a path. -/
def Fault.message (path : String) : Fault → String
  | .unreadable p =>
    "Failed to parse " ++ path ++ " (line " ++ toString p.line ++ ", column " ++
      toString p.column ++ ")"
  | .invalid issues => "Invalid " ++ path ++ ":\n" ++ issuesText issues

/-- The failure that a fault is reported as. -/
def Fault.failure (path : String) (fault : Fault) : Failure :=
  .plain .manifest (fault.message path)

/-- The directory of a manifest; that of the root has the empty path. -/
def directoryOf (path : String) : String :=
  let parent := Path.parent path
  if parent = "." then "" else parent

/-- How many directories lead to a directory. -/
def depthOf (directory : String) : Nat :=
  if directory = "" then 0 else Path.depth directory

/-- The kind of a TOML value. -/
def kindOf : Toml.Value → ValueKind
  | .text _ => .text
  | .number n => .ofNumber n
  | .bool _ => .bool
  | .moment _ => .date
  | .array _ => .list
  | .table _ => .object

/-- The kind of a value that may be absent. -/
def kindOf? (v : Option Toml.Value) : ValueKind :=
  (v.map kindOf).getD .absent

/-- The text that a value is. -/
def textOf? : Toml.Value → Option String
  | .text s => some s
  | _ => none

/-- Checks for a text or a list of texts. -/
def checkTexts (place : List String) : Toml.Value → Checked (List String)
  | .text s => .ok [s]
  | .array items =>
    let found := items.filterMap textOf?
    if found.length = items.length then .ok found else .refuse place .noForm
  | _ => .refuse place .noForm

/-- Checks for at least one pattern. -/
def checkPatterns (place : List String) (v : Option Toml.Value) : Checked (List String) :=
  match v with
  | none => .refuse place .noForm
  | some v => do
    let patterns ← checkTexts place v
    if patterns.isEmpty then .refuse place .noPattern else return patterns

/-- What an entry says, before it has its place in a manifest. -/
structure Row where
  patterns : List String
  strategy : Strategy
  copyrights : List String
  licenses : List String
  contributors : List String
  deriving Repr

/-- Checks for the fields of an entry. -/
def checkRow (place : List String) : Toml.Value → Checked Row
  | .table fields =>
    let named (name : String) := place ++ [name]
    let texts (name : String) : Checked (List String) :=
      .orElse [] (checkTexts (named name)) (fields.lookup name)
    let strategy : Checked Strategy :=
      .orElse .closest
        (fun v => checkChoice (named "precedence") Strategy.options (kindOf v) (textOf? v))
        (fields.lookup "precedence")
    (Checked.app (.ok Row.mk) (checkPatterns (named "path") (fields.lookup "path")))
      |>.app strategy
      |>.app (texts "SPDX-FileCopyrightText")
      |>.app (texts "SPDX-License-Identifier")
      |>.app (texts "SPDX-FileContributor")
  | v => .refuse place (.wrongKind .object (kindOf v))

/-- The only version of manifests. -/
def version : Nat := 1

/-- Checks for the version. -/
def checkVersion (v : Option Toml.Value) : Checked Unit :=
  let number :=
    match v with
    | some (.number n) => n.toInt?
    | _ => none
  if number = some (version : Int) then .ok ()
  else .refuse ["version"] (.notEqual (.nat version) (v.map Toml.Value.json))

/-- Checks for a list of entries. -/
def checkRows (v : Toml.Value) : Checked (List Row) :=
  match v with
  | .array items =>
    .all (items.zipIdx.map fun (item, i) => checkRow ["annotations", toString i] item)
  | v => .refuse ["annotations"] (.wrongKind .list (kindOf v))

/-- Checks for the fields of a manifest. -/
def checkDocument (fields : List (String × Toml.Value)) : Checked (List Row) :=
  (Checked.app (.ok fun _ rows => rows) (checkVersion (fields.lookup "version")))
    |>.app (.orElse [] checkRows (fields.lookup "annotations"))

/-- The entry that a row makes at a position in the manifest at a path.
Copyright lines are normalized, and those that are then empty left out. -/
def entryOf (path : String) (row : Row) (index : Nat) : Entry :=
  { patterns := row.patterns.map Glob.ofSource
    strategy := row.strategy
    fields :=
      { copyrights := (row.copyrights.map Notice.normalize).filter (!·.isEmpty)
        licenses := row.licenses.map trimmed
        contributors := row.contributors.map trimmed }
    manifest := path
    directory := directoryOf path
    depth := depthOf (directoryOf path)
    index }

/-- The manifest that a text at a path is. -/
def parse (path text : String) : Except Fault Manifest :=
  match Toml.parse text with
  | .error position => .error (.unreadable position)
  | .ok fields =>
    match checkDocument fields with
    | .error issues => .error (.invalid issues)
    | .ok rows =>
      let directory := directoryOf path
      .ok ⟨path, directory, depthOf directory,
        rows.zipIdx.map fun (row, i) => entryOf path row i⟩

end Manifest

end LicenseAudit
