import LicenseAudit.Manifest

/-!
# Evidence

A piece of evidence is what one source says about a file: the file's own
header, its sidecar, an entry of a manifest, or the deprecated manifest.
It has at least one line, and its lines are sorted.  A header and a sidecar
are more specific than any entry, an entry is the more specific the deeper
its manifest lies, and the deprecated manifest is the least specific
source.
-/

namespace LicenseAudit

open Text

/-- The kinds of sources, in the order in which they are listed. -/
inductive SourceKind where
  | deprecated
  | entry
  | sidecar
  | header
  deriving DecidableEq, Repr

namespace SourceKind

/-- The name of a kind of sources. -/
def name : SourceKind → String
  | .deprecated => "deprecated-manifest"
  | .entry => "config-entry"
  | .sidecar => "dot-license"
  | .header => "file-header"

/-- The place of a kind among the kinds. -/
def index : SourceKind → Nat
  | .deprecated => 0
  | .entry => 1
  | .sidecar => 2
  | .header => 3

end SourceKind

/-- Where evidence comes from; an entry has the depth of its manifest and a
strategy. -/
inductive Origin where
  | deprecated
  | entry (depth : Int) (strategy : Strategy)
  | sidecar
  | header
  deriving DecidableEq, Repr

namespace Origin

/-- The kind of source. -/
def kind : Origin → SourceKind
  | .deprecated => .deprecated
  | .entry .. => .entry
  | .sidecar => .sidecar
  | .header => .header

/-- How specific evidence is: the higher, the more.  A file's own evidence
has the rank `2 ^ 53 - 1`. -/
def rank : Origin → Int
  | .deprecated => 0
  | .entry depth _ => 1 + depth
  | .sidecar => 9007199254740991
  | .header => 9007199254740991

/-- How evidence goes together with other evidence. -/
def strategy : Origin → Strategy
  | .deprecated => .aggregate
  | .entry _ s => s
  | .sidecar => .closest
  | .header => .closest

end Origin

/-- What the source at a path says. -/
structure Evidence where
  origin : Origin
  path : String
  fields : Fields
  any : fields.any = true
  deriving DecidableEq, Repr

/-- Evidence without any line: the path and kind of its source. -/
structure NoLines where
  path : String
  kind : SourceKind
  deriving DecidableEq, Repr

/-- The sentence about evidence without lines. -/
def NoLines.message (e : NoLines) : String :=
  "Evidence from " ++ e.path ++ " (" ++ e.kind.name ++
    ") carries no copyright, license or contributor lines"

/-- The evidence that a source's lines are. -/
def Evidence.of (origin : Origin) (path : String) (fields : Fields) : Except NoLines Evidence :=
  if h : fields.sorted.any = true then .ok ⟨origin, path, fields.sorted, h⟩
  else .error ⟨path, origin.kind⟩

/-- The evidence that an entry is. -/
def Entry.evidence (e : Entry) : Except NoLines Evidence :=
  Evidence.of (.entry e.depth e.strategy) e.manifest e.fields

/-- A source that contributed to the information about a file. -/
structure Source where
  kind : SourceKind
  path : String
  deriving DecidableEq, Repr

namespace Source

/-- Whether a source is listed before another or is listed alike: by path,
and then by kind. -/
def isAtMost (a b : Source) : Bool :=
  if a.path = b.path then decide (a.kind.index ≤ b.kind.index) else Text.isAtMost a.path b.path

/-- The source of a piece of evidence. -/
def ofEvidence (e : Evidence) : Source :=
  ⟨e.origin.kind, e.path⟩

end Source

/-- All that is known about one file: its lines, where they come from, and
the license values in it that are no expressions. -/
structure FileInfo where
  path : String
  fields : Fields
  sources : List Source
  unparsable : List String
  deriving DecidableEq, Repr

/-- The information about a file with every list in its order. -/
def FileInfo.of (path : String) (fields : Fields) (sources : List Source)
    (unparsable : List String) : FileInfo :=
  ⟨path, fields.sorted, sources.mergeSort Source.isAtMost, sortedUnique unparsable⟩

end LicenseAudit
