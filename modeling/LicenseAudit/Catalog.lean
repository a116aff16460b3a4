import LicenseAudit.Text.Order
import LicenseAudit.Text.Search

/-!
# The catalog of identifiers

A catalog lists the identifiers of licenses, of license exceptions and of
licenses that are deprecated.  Beside it stand the **license references**:
names that a project defines for itself, alone (`LicenseRef-x`) or inside
a named document (`DocumentRef-d:LicenseRef-x`).
-/

namespace LicenseAudit

open Text

/-- The three lists of a catalog.  A deprecated identifier need not be
listed among the licenses. -/
structure Catalog where
  licenses : List String
  exceptions : List String
  deprecated : List String

namespace Catalog

variable (catalog : Catalog)

/-- Deprecated identifiers are still licenses. -/
def isLicense (id : String) : Bool :=
  catalog.licenses.contains id || catalog.deprecated.contains id

/-- Whether `id` names a license exception. -/
def isException (id : String) : Bool :=
  catalog.exceptions.contains id

/-- Whether `id` names a license or an exception. -/
def isKnown (id : String) : Bool :=
  catalog.isLicense id || catalog.isException id

/-- Whether `id` is deprecated. -/
def isDeprecated (id : String) : Bool :=
  catalog.deprecated.contains id

/-- The current licenses in ascending order. -/
def licenseList : List String :=
  sortedUnique catalog.licenses

/-- The exceptions in ascending order. -/
def exceptionList : List String :=
  sortedUnique catalog.exceptions

end Catalog

/-- What a license reference starts with. -/
def licenseRefStart : List Char :=
  "LicenseRef-".toList

/-- What a reference into another document starts with. -/
def documentRefStart : List Char :=
  "DocumentRef-".toList

/-- Whether a text is a license reference: a non-empty name after
`LicenseRef-`, or a non-empty document name after `DocumentRef-`, a colon
and a reference. -/
def isReferenceText (cs : List Char) : Bool :=
  match dropStart? licenseRefStart cs with
  | some name => !name.isEmpty
  | none =>
    match _hd : dropStart? documentRefStart cs with
    | none => false
    | some rest =>
      match _hc : cut? [':'] rest with
      | none => false
      | some (document, inner) => !document.isEmpty && isReferenceText inner
termination_by cs.length
decreasing_by
  have h1 := dropStart?_eq_some_iff.1 _hd
  have h2 := eq_append_of_cut? _hc
  subst h1 h2
  simp only [List.length_append, List.length_cons]
  omega

/-- Whether an identifier is a license reference. -/
def isReference (id : String) : Bool :=
  isReferenceText id.toList

end LicenseAudit
