import LicenseAudit.Coverage.Pattern

/-!
# Walking a project

The walk lists the files below the root of a project and keeps those that
are covered, and the manifests.  It does not follow links, passes over
empty files, and never enters certain places: those that an **ignored
pattern** names.  Some patterns name directories by their names, wherever they
lie, the others are those of excluded directories (`DirectoryPattern`).  A
pattern that names a directory names all that lies in it, and a file in its
place as well.
-/

namespace LicenseAudit

open Text Coverage

namespace PathFilter

/-- The path that the walk compares with patterns: a dot and a backslash at the
start are taken for the start of the project. -/
def shown (path : String) : String :=
  match path.toList with
  | '.' :: '\\' :: cs => String.ofList cs
  | _ => path

/-- Whether the pattern of an excluded directory names a path of the project at
a root path, or a directory that the path leads through. -/
def names (root directory path : String) : Bool :=
  let pattern := DirectoryPattern.of directory
  if pattern.isRooted then pattern.fits (Path.resolve root path).toList
  else pattern.fits path.toList || (ancestorsOf path.toList).any fun d => pattern.fits d.dropLast

variable (f : PathFilter)

/-- Whether the walk passes over a path of the project at a root path.  A
name with a line end is never met. -/
def isPassedOver (root : String) (steps : List String) : Bool :=
  let path := shown (Path.joined steps)
  let names := split '/' path
  path.toList.any isLineEnd
    || names.any (excludedDirectoryNames.contains ·)
    || (!f.includeSubprojects && names.dropLast.dropLast.contains subprojectParent)
    || f.directories.any (PathFilter.names root · path)

end PathFilter

/-- The files of a project that matter: the covered ones in ascending
order, and the manifests from the shallowest to the deepest. -/
structure ProjectFiles where
  covered : List String
  manifests : List String
  deriving DecidableEq, Repr

namespace ProjectFiles

/-- Whether a manifest comes before another or is the same. -/
def isManifestAtMost (a b : String) : Bool :=
  if Path.depth a = Path.depth b then isAtMost a b else decide (Path.depth a < Path.depth b)

/-- The files that the walk meets. -/
def met (tree : Tree) (root : String) (f : PathFilter) : List Tree.Leaf :=
  match tree.find root with
  | .ok folder => folder.leaves.filter fun (steps, _) => !f.isPassedOver root steps
  | .error _ => []

/-- The files of the project at a root path. -/
def of (tree : Tree) (root : String) (f : PathFilter) : ProjectFiles :=
  let files := (met tree root f).map fun (steps, bytes) => (Path.joined steps, bytes)
  let manifests := (files.map Prod.fst).filter fun path =>
    f.isManifest path && !f.isInExcludedLocation path
  let covered :=
    (files.filter fun (path, bytes) => !bytes.isEmpty && !f.isExcluded path).map Prod.fst
  ⟨sortedOn id covered, manifests.mergeSort isManifestAtMost⟩

end ProjectFiles

end LicenseAudit
