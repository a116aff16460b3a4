import LicenseAudit.Evidence
import LicenseAudit.Inventory
import LicenseAudit.Tag

/-!
# Compliance

Classification holds the resolved files against the license inventory.  A
**reference** is an identifier that a file's expressions mention; a license
is missing when it is referred to but has no text, and unused when it is
the other way round.  A project complies when none of the lists of
problems has a member; files that lack only a copyright or only a license
are listed as well but do not count.
-/

namespace LicenseAudit

open Text

/-- A license without a text, and the files that refer to it. -/
structure MissingLicense where
  id : String
  files : List String
  deriving DecidableEq, Repr

/-- A file with license values that are no expressions. -/
structure UnparsableFile where
  path : String
  expressions : List String
  deriving DecidableEq, Repr

/-- A file that could not be read, and why. -/
structure ReadError where
  path : String
  message : String
  deriving DecidableEq, Repr

/-- What was found about a project: lists of problems, and after them lists
for display. -/
structure Classification where
  badLicenses : List String
  deprecatedLicenses : List String
  licensesWithoutExtension : List String
  missingLicenses : List MissingLicense
  unusedLicenses : List String
  unparsable : List UnparsableFile
  withoutInformation : List String
  readErrors : List ReadError
  withoutCopyright : List String
  withoutLicenses : List String
  usedLicenses : List String
  deriving DecidableEq, Repr

namespace Classification

/-- An identifier and the path of a file that refers to it. -/
abbrev Reference := String × String

/-- The references that a file makes, `validate` telling what its
expressions mention. -/
def referencesOf (validate : String → Validation) (file : FileInfo) : List Reference :=
  file.fields.licenses.flatMap fun text =>
    let v := validate text
    if v.parsed then v.atoms.map fun id => (id, file.path) else []

/-- The license values of a file that are no expressions. -/
def brokenIn (validate : String → Validation) (file : FileInfo) : List String :=
  sortedUnique (file.unparsable ++ file.fields.licenses.filter fun text => !(validate text).parsed)

/-- The paths of those files outside the license directory for which a test
holds. -/
def pathsWhere (inventory : Inventory) (files : List FileInfo) (test : Fields → Bool) :
    List String :=
  sortedUnique
    ((files.filter fun f => !inventory.holds f.path && test f.fields).map FileInfo.path)

/-- The identifiers of those records for which a test holds. -/
def idsWhere (inventory : Inventory) (test : LicenseRecord → Bool) : List String :=
  sortedUnique ((inventory.records.filter test).map LicenseRecord.id)

/-- The classification of files, given what their expressions mention. -/
def of (validate : String → Validation) (files : List FileInfo) (inventory : Inventory)
    (readErrors : List ReadError) : Classification :=
  let references := files.flatMap (referencesOf validate)
  let used := sortedUnique (references.map Prod.fst)
  let filesOf (id : String) := sortedUnique ((references.filter (·.1 = id)).map Prod.snd)
  let broken := (files.map fun f => UnparsableFile.mk f.path (brokenIn validate f)).filter
    (!·.expressions.isEmpty)
  { badLicenses := idsWhere inventory fun r => !r.isKnown && !isReference r.id
    deprecatedLicenses := idsWhere inventory (·.isDeprecated)
    licensesWithoutExtension :=
      idsWhere inventory fun r => !r.hasExtension && (r.isKnown || isReference r.id)
    missingLicenses := (used.filter (!inventory.has ·)).map fun id => ⟨id, filesOf id⟩
    unusedLicenses := idsWhere inventory (!used.contains ·.id)
    unparsable := sortedOn UnparsableFile.path broken
    withoutInformation := pathsWhere inventory files fun f => !f.has .copyrights && !f.has .licenses
    readErrors := sortedOn ReadError.path readErrors
    withoutCopyright := pathsWhere inventory files (!·.has .copyrights)
    withoutLicenses := pathsWhere inventory files (!·.has .licenses)
    usedLicenses := used }

/-- Whether no problem was found. -/
def isCompliant (c : Classification) : Bool :=
  c.badLicenses.isEmpty && c.deprecatedLicenses.isEmpty && c.licensesWithoutExtension.isEmpty &&
    c.missingLicenses.isEmpty && c.unusedLicenses.isEmpty && c.unparsable.isEmpty &&
    c.withoutInformation.isEmpty && c.readErrors.isEmpty

/-- The classification without what it says about the license directory as
a whole. -/
def withoutInventory (c : Classification) : Classification :=
  { c with
    badLicenses := []
    deprecatedLicenses := []
    licensesWithoutExtension := []
    unusedLicenses := [] }

end Classification

/-- The classification of files, read with a validator. -/
def Validator.classify (v : Validator) (files : List FileInfo) (inventory : Inventory)
    (readErrors : List ReadError) : Classification :=
  let v' := v.validateAll (files.flatMap (·.fields.licenses))
  .of (fun text => (v'.validate text).1) files inventory readErrors

end LicenseAudit
