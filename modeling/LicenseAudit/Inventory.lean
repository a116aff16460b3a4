import LicenseAudit.Catalog
import LicenseAudit.Failure
import LicenseAudit.Path

/-!
# The license inventory

The license directory of a project holds the texts of its licenses, each in
a file named for its identifier.  A **record** says which identifier a file
stands for: its name without the extension when that is recognized, else
the whole name when that is, else again the name without the extension.
The inventory has one record for each identifier.
-/

namespace LicenseAudit

open Text

/-- A stored license text. -/
structure LicenseRecord where
  id : String
  path : String
  isKnown : Bool
  isDeprecated : Bool
  hasExtension : Bool
  deriving DecidableEq, Repr

/-- Whether an identifier may name a license text: it is in the catalog or
a reference. -/
def Catalog.recognizes (catalog : Catalog) (id : String) : Bool :=
  catalog.isKnown id || isReference id

/-- The identifier that a file name stands for, and whether the name has an
extension after it. -/
def Catalog.identify (catalog : Catalog) (name : String) : String × Bool :=
  let (stem, extension) := Path.cutExtension name
  if extension ≠ "" ∧ catalog.recognizes stem then (stem, true)
  else if catalog.recognizes name then (name, false)
  else (stem, extension != "")

/-- The record of the file with a name and a path. -/
def Catalog.describe (catalog : Catalog) (name path : String) : LicenseRecord :=
  let (id, hasExtension) := catalog.identify name
  ⟨id, path, catalog.isKnown id, catalog.isDeprecated id, hasExtension⟩

/-- The license texts of a project: the path of their directory, and a
record for each identifier in ascending order. -/
structure Inventory where
  directory : String
  records : List LicenseRecord
  deriving DecidableEq, Repr

namespace Inventory

/-- The record of an identifier. -/
def find? (inventory : Inventory) (id : String) : Option LicenseRecord :=
  inventory.records.find? (·.id = id)

/-- Whether there is a text for an identifier. -/
def has (inventory : Inventory) (id : String) : Bool :=
  (inventory.find? id).isSome

/-- Whether a path lies in the license directory; the root directory, which
has the empty path, holds none in this sense. -/
def holds (inventory : Inventory) (path : String) : Bool :=
  inventory.directory != "" && (Path.below? inventory.directory path).isSome

/-- Takes the record of one more file into a list, unless another file has
its identifier. -/
def enlist (records : List LicenseRecord) (r : LicenseRecord) :
    Except Failure (List LicenseRecord) :=
  match records.find? (·.id = r.id) with
  | some first => .error (.duplicateLicense r.id first.path r.path)
  | none => .ok (records ++ [r])

/-- Whether a name in the license directory may be that of a license text:
sidecars are not. -/
def isCandidate (name : String) : Bool :=
  !endsWith name ".license"

/-- Takes what has one more name into a list, if it is a file. -/
def enlistFile (catalog : Catalog) (directory : String) (isFile : String → Except Failure Bool)
    (records : List LicenseRecord) (name : String) : Except Failure (List LicenseRecord) := do
  if ← isFile name then enlist records (catalog.describe name (directory ++ "/" ++ name))
  else return records

/-- The inventory of a directory with some names, taken in ascending order.
`isFile` tells the files among them, or why it cannot be told. -/
def ofNames (catalog : Catalog) (directory : String) (isFile : String → Except Failure Bool)
    (names : List String) : Except Failure Inventory := do
  let candidates := (sortedOn id names).filter isCandidate
  let records ← candidates.foldlM (enlistFile catalog directory isFile) []
  return ⟨directory, sortedOn LicenseRecord.id records⟩

end Inventory

end LicenseAudit
