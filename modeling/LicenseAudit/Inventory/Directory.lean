import LicenseAudit.Inventory
import LicenseAudit.Tree

/-!
# Reading the license directory

The inventory of a project is taken from the files in its license
directory.  A directory that does not exist holds no texts; one that cannot
be listed, or holds a file that cannot be examined, is a failure.
-/

namespace LicenseAudit.Inventory

/-- The names in a directory. -/
def namesIn (tree : Tree) (directory : String) : Except Failure (List String) :=
  match tree.list directory with
  | .ok names => .ok names
  | .error e =>
    if e.obstacle = .missing then .ok []
    else
      .error (.error .licenseDirectory ("Cannot list license directory " ++ directory)
        (some e.failure))

/-- Whether a path leads to a file; a link that leads nowhere does not. -/
def isStoredFile (tree : Tree) (path : String) : Except Failure Bool :=
  match tree.isFile path with
  | .ok answer => .ok answer
  | .error e =>
    if e.obstacle = .missing then .ok false
    else .error (.error .licenseDirectory ("Cannot read " ++ path) (some e.failure))

/-- The inventory of the project at a root path. -/
def scan (tree : Tree) (root licenseDirectory : String) (catalog : Catalog) :
    Except Failure Inventory := do
  let place := Path.resolve root licenseDirectory
  let names ← namesIn tree place
  ofNames catalog (Path.relative root place) (fun name => isStoredFile tree (Path.join place name))
    names

end LicenseAudit.Inventory
