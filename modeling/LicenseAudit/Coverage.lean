import LicenseAudit.Text.Order
import LicenseAudit.Vcs

/-!
# Covered paths

Some files of a project need no licensing information: license texts,
sidecars, manifests, what lies in certain directories, and what version
control ignores.  A **path filter** tells by the path alone whether a file
is excluded.
-/

namespace LicenseAudit

open Text

namespace Coverage

/-- The directories that are excluded wherever they are. -/
def excludedDirectoryNames : List String :=
  [".git", ".hg", ".sl", "LICENSES", ".reuse"]

/-- The directory whose directories are subprojects. -/
def subprojectParent : String :=
  "subprojects"

/-- The file names that are excluded as they are. -/
def excludedNames : List String :=
  [".git", ".hgtags", "REUSE.toml"]

/-- The beginnings of names of license texts; a dash or a dot may
follow. -/
def textNames : List String :=
  ["LICENSE", "LICENCE", "COPYING"]

/-- The license texts under their bare identifiers; an extension may
follow. -/
def bareNames : List String :=
  ["CAL-1.0", "CAL-1.0-Combined-Work-Exception", "SHL-2.1"]

/-- The ends of names that are excluded. -/
def excludedEndings : List String :=
  [".license", ".spdx", ".spdx.rdf", ".spdx.json", ".spdx.xml", ".spdx.yml", ".spdx.yaml"]

/-- What follows the name of a license text: nothing, or a dash or a dot
and anything on the same line. -/
def isTextTail : List Char → Bool
  | [] => true
  | c :: cs => (c == '-' || c == '.') && !cs.any isLineEnd

/-- What follows a bare identifier: nothing, or a dot and something on the
same line. -/
def isBareTail : List Char → Bool
  | [] => true
  | c :: cs => c == '.' && !cs.isEmpty && !cs.any isLineEnd

/-- Whether a file of this name is never covered. -/
def isExcludedName (name : String) : Bool :=
  let cs := name.toList
  excludedNames.contains name
    || textNames.any (fun n => (dropStart? n.toList cs).any isTextTail)
    || bareNames.any (fun n => (dropStart? n.toList cs).any isBareTail)
    || (!cs.any isLineEnd && excludedEndings.any (endsWith name ·))

/-- A directory by its shortest path, without a slash at the end. -/
def normalizeDirectory (directory : String) : String :=
  String.ofList ((Path.normalize directory).toList.reverse.dropWhile (· == '/')).reverse

/-- The directories that a path leads through, each with a slash at its
end. -/
def ancestorsOf (path : List Char) : List (List Char) :=
  match path with
  | [] => []
  | c :: cs =>
    let inner := (ancestorsOf cs).map (c :: ·)
    if c = '/' then ['/'] :: inner else inner

/-- Whether a path is ignored itself or lies in an ignored directory. -/
def isIgnored (ignored : List String) (path : String) : Bool :=
  ignored.contains path || (ancestorsOf path.toList).any fun d => ignored.contains (String.ofList d)

end Coverage

open Coverage

/-- What is covered besides what always is. -/
structure CoverageOptions where
  licenseDirectory : String := "LICENSES"
  manifestName : String := "REUSE.toml"
  includeSubmodules : Bool := false
  includeSubprojects : Bool := false
  deriving DecidableEq, Repr

/-- A filter of paths: the name of manifests, whether subprojects are
covered, the excluded directories by their paths, and the ignored paths. -/
structure PathFilter where
  manifestName : String
  includeSubprojects : Bool
  directories : List String
  ignored : List String
  deriving DecidableEq, Repr

namespace PathFilter

/-- The filter for a project under version control. -/
def of (options : CoverageOptions) (vcs : Vcs) : Except Failure PathFilter := do
  let ignored ← vcs.ignored
  let submodules ← if options.includeSubmodules then .ok [] else vcs.submodules
  return {
    manifestName := options.manifestName
    includeSubprojects := options.includeSubprojects
    directories := (options.licenseDirectory :: submodules).map normalizeDirectory
    ignored }

variable (f : PathFilter)

/-- Whether a path is that of a manifest. -/
def isManifest (path : String) : Bool :=
  Path.name path == f.manifestName

/-- Whether a path lies in an excluded directory. -/
def isInExcludedDirectory (path : String) : Bool :=
  let directories := (split '/' path).dropLast
  directories.any (excludedDirectoryNames.contains ·)
    || (!f.includeSubprojects && directories.dropLast.contains subprojectParent)
    || f.directories.any fun d => (Path.below? d path).isSome

/-- Whether a path lies where nothing is covered. -/
def isInExcludedLocation (path : String) : Bool :=
  f.isInExcludedDirectory path || isIgnored f.ignored path

/-- Whether the file at a path is never covered. -/
def isExcluded (path : String) : Bool :=
  f.isManifest path || isExcludedName (Path.name path) || f.isInExcludedLocation path

end PathFilter

end LicenseAudit
