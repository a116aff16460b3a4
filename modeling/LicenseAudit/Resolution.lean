import LicenseAudit.Evidence

/-!
# Resolution

Resolution puts together what is known about one file from its evidence
and the manifest entries that apply to it.  The shallowest entry that
overrides is the whole result.  Otherwise the file's **own** evidence, its
sidecar if it has one and else its headers, goes together with

* for every kind of lines that the own evidence lacks, those of the
  deepest closest entry that has any,
* every aggregate entry, and
* the deprecated manifest, when no entry applies at all.
-/

namespace LicenseAudit

namespace Resolution

/-- How a file is resolved: whether copyright lines of one holder are
merged, and the license values in the file that are no expressions. -/
structure Options where
  mergeCopyrights : Bool := false
  unparsable : List String := []
  deriving Repr

/-- The evidence of a file itself. -/
def own (records : List Evidence) : List Evidence :=
  match records.find? (·.origin = .sidecar) with
  | some sidecar => [sidecar]
  | none => records.filter (·.origin = .header)

/-- The evidence that fills in for what a file's own evidence lacks: for every
kind of lines that the own evidence has none of, the deepest of some entries,
the shallowest first, that has such lines, with those lines alone. -/
def fillIn (own entries : List Evidence) : Except NoLines (List Evidence) := do
  let lacking := Field.all.filter fun kind => !own.any (·.fields.has kind)
  let parts ← lacking.mapM fun kind =>
    (entries.reverse.find? (·.fields.has kind)).mapM fun e =>
      Evidence.of e.origin e.path (e.fields.only kind)
  return parts.filterMap id

/-- The information that contributing evidence amounts to. -/
def combine (path : String) (options : Options) (contributing : List Evidence) : FileInfo :=
  let fields := Fields.union (contributing.map Evidence.fields)
  let copyrights :=
    if options.mergeCopyrights then Notice.mergeLines fields.copyrights else fields.copyrights
  FileInfo.of path { fields with copyrights } (contributing.map Source.ofEvidence).eraseDups
    options.unparsable

end Resolution

open Resolution

/-- The information about the file at a path, from its evidence and from
the entries of all manifests. -/
def resolve (path : String) (records : List Evidence) (entries : List Entry)
    (options : Options) : Except NoLines FileInfo := do
  let applicable := Entry.applicable entries path
  let given ← (applicable.filter (·.fields.any)).mapM Entry.evidence
  let withStrategy (s : Strategy) := given.filter (·.origin.strategy = s)
  match (withStrategy .override).head? with
  | some whole => return combine path { options with unparsable := [] } [whole]
  | none =>
    let ownRecords := own records
    let deprecated :=
      if applicable.isEmpty then records.filter (·.origin = .deprecated) else []
    let parts ← fillIn ownRecords (withStrategy .closest)
    return combine path options (ownRecords ++ parts ++ withStrategy .aggregate ++ deprecated)

end LicenseAudit
