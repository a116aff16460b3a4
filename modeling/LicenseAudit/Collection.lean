import LicenseAudit.Dep5
import LicenseAudit.Evidence
import LicenseAudit.Text.Utf8
import LicenseAudit.Tree

/-!
# Collecting evidence

The evidence of one file is what its sidecar says, or else its own header,
and what the deprecated manifest says about it.  Of a long file only the
first bytes are read, unless it marks a snippet somewhere; a sidecar is read
whole.  A file with a null byte near its start is no text.
-/

namespace LicenseAudit

open Text

namespace Collection

/-- What is added to a path to name its sidecar. -/
def sidecarEnding : String := ".license"

/-- What marks a snippet in a file. -/
def snippetMark : List UInt8 :=
  Utf8.encode "SPDX-SnippetBegin"

/-- How many bytes at the start of a text are free of null bytes. -/
def sniffedBytes : Nat := 8000

/-- Whether a list occurs in another. -/
def hasRun (part : List UInt8) : List UInt8 → Bool
  | [] => part.isEmpty
  | b :: bs => part.isPrefixOf (b :: bs) || hasRun part bs

/-- The bytes that are read: no more than the limit, unless a snippet is
marked. -/
def limited (limit : Option Nat) (bytes : List UInt8) : List UInt8 :=
  match limit with
  | none => bytes
  | some n => if bytes.length > n && !hasRun snippetMark bytes then bytes.take n else bytes

/-- The text of a file, when it is one. -/
def textOf? (limit : Option Nat) (bytes : List UInt8) : Option String :=
  if (bytes.take sniffedBytes).contains 0 then none
  else some (String.ofList (unixText (Utf8.decode (limited limit bytes))))

end Collection

open Collection

/-- The evidence of a file, and the license values in it that are no
expressions. -/
structure Collected where
  records : List Evidence
  unparsable : List String
  deriving DecidableEq, Repr

/-- Why the evidence of a file cannot be collected. -/
inductive CollectionError where
  | unreadable (e : FileError)
  | noLines (e : NoLines)
  deriving DecidableEq, Repr

/-- The failure that an error is reported as. -/
def CollectionError.failure : CollectionError → Failure
  | .unreadable e => e.failure
  | .noLines e => .plain .evidence e.message

namespace Collection

/-- Whether a path has a file; a path that leads nowhere has none. -/
def hasFile (tree : Tree) (path : String) : Except CollectionError Bool :=
  match tree.isFile path with
  | .ok answer => .ok answer
  | .error e =>
    if e.obstacle = .missing ∨ e.obstacle = .notFolder then .ok false else .error (.unreadable e)

/-- The bytes of a file. -/
def bytesOf (tree : Tree) (path : String) : Except CollectionError (List UInt8) :=
  (tree.read path).mapError .unreadable

/-- The file whose text speaks for a path: its sidecar or the file itself,
with the origin and the path of the evidence, and how much of it is
read. -/
def speaker (tree : Tree) (root path : String) (headerBytes : Nat) :
    Except CollectionError (Origin × String × Option String) := do
  let place := Path.join root path
  if ← hasFile tree (place ++ sidecarEnding) then
    return (.sidecar, path ++ sidecarEnding, textOf? none (← bytesOf tree (place ++ sidecarEnding)))
  else
    return (.header, path, textOf? (some headerBytes) (← bytesOf tree place))

/-- The evidence that an extraction is; one without tags is none. -/
def evidenceOf (origin : Origin) (path : String) (found : Extraction) :
    Except CollectionError (List Evidence) :=
  if found.tags.any then
    ((Evidence.of origin path found.tags).mapError .noLines).map fun e => [e]
  else .ok []

/-- The evidence that the deprecated manifest has about a path. -/
def deprecatedEvidence (manifest : Option Dep5) (path : String) :
    Except CollectionError (List Evidence) :=
  match manifest with
  | none => .ok []
  | some m =>
    match m.find? path with
    | none => .ok []
    | some (p, _) =>
      ((Evidence.of .deprecated m.path ⟨p.copyrights, [p.license], []⟩).mapError .noLines).map
        fun e => [e]

end Collection

/-- The evidence of the file at a path below a root path, read with
`extract`. -/
def collect (tree : Tree) (root : String) (headerBytes : Nat) (manifest : Option Dep5)
    (extract : String → Extraction) (path : String) : Except CollectionError Collected := do
  let (origin, source, text) ← speaker tree root path headerBytes
  let found := (text.map extract).getD ⟨Fields.none, []⟩
  let own ← evidenceOf origin source found
  let deprecated ← deprecatedEvidence manifest path
  return ⟨own ++ deprecated, found.unparsable⟩

end LicenseAudit
