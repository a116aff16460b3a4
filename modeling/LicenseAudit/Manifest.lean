import LicenseAudit.Glob.Pattern
import LicenseAudit.Path
import LicenseAudit.Tag

/-!
# Manifest entries

An entry of a manifest gives copyright, license and contributor lines to
the paths below the manifest's directory that one of its patterns accepts.
Of the entries of one manifest only the last that matches a path
**applies** to it; those of different manifests apply together, from the
shallowest directory to the deepest.
-/

namespace LicenseAudit

open Text

/-- How the lines of an entry and those found elsewhere go together. -/
inductive Strategy where
  | closest
  | aggregate
  | override
  deriving DecidableEq, Repr

/-- The name of a strategy. -/
def Strategy.name : Strategy → String
  | .closest => "closest"
  | .aggregate => "aggregate"
  | .override => "override"

/-- The strategies by their names. -/
def Strategy.options : List (String × Strategy) :=
  [Strategy.closest, .aggregate, .override].map fun s => (s.name, s)

/-- An entry: `manifest` is the path of the manifest that holds it,
`directory` that of its directory, `depth` the number of directories on
the way, and `index` its position in the manifest. -/
structure Entry where
  patterns : List Glob
  strategy : Strategy
  fields : Fields
  manifest : String
  directory : String
  depth : Nat
  index : Nat
  deriving DecidableEq, Repr

/-- What a path says below a manifest's directory, the root directory
having the empty path. -/
def pathBelow? (directory path : String) : Option String :=
  if directory = "" then some path else Path.below? directory path

/-- Whether an entry matches a path. -/
def Entry.isMatch (a : Entry) (path : String) : Bool :=
  match pathBelow? a.directory path with
  | none => false
  | some rest => a.patterns.any (·.isMatch rest)

namespace Entry

/-- Takes an entry in: it stands in for the one of its manifest when
it comes later in the manifest. -/
def supersede (chosen : List Entry) (a : Entry) : List Entry :=
  match chosen with
  | [] => [a]
  | b :: rest =>
    if b.manifest = a.manifest then (if b.index < a.index then a else b) :: rest
    else b :: supersede rest a

/-- Of each manifest the entry that comes last in it. -/
def lastOfEach (entries : List Entry) : List Entry :=
  entries.foldl supersede []

/-- The entries from the shallowest to the deepest; those of one depth keep
their order. -/
def byDepth (entries : List Entry) : List Entry :=
  entries.mergeSort fun a b => decide (a.depth ≤ b.depth)

/-- The entries that apply to a path. -/
def applicable (entries : List Entry) (path : String) : List Entry :=
  byDepth (lastOfEach (entries.filter (·.isMatch path)))

end Entry

end LicenseAudit
