import LicenseAudit.Expression.Validation
import LicenseAudit.Fields
import LicenseAudit.Notice
import LicenseAudit.Tag.Closer
import LicenseAudit.Tag.IgnoreRegion

/-!
# Tags

A line of a file may carry one tag: a license expression, a contributor or
a copyright notice.  `finding?` reads the tag of a line, `findings` those
of the visible lines of a text.  An **extraction** sorts them: license
values that are expressions apart from those that are not.
-/

namespace LicenseAudit

open Text

/-- What was found in a text: its tags, and the license values that are no
expressions. -/
structure Extraction where
  tags : Fields
  unparsable : List String
  deriving DecidableEq, Repr

namespace Tag

/-- The tag of a line. -/
inductive Finding where
  | license (value : String)
  | contributor (name : String)
  | copyright (notice : String)
  deriving DecidableEq, Repr

/-- What introduces a license expression. -/
def licenseTag : List Char :=
  "SPDX-License-Identifier:".toList

/-- What introduces a contributor. -/
def contributorTag : List Char :=
  "SPDX-FileContributor:".toList

/-- What introduces a copyright notice. -/
def copyrightTags : List (List Char) :=
  ["SPDX-FileCopyrightText:", "SPDX-SnippetCopyrightText:"].map String.toList

/-- The part of a line after its last line end character. -/
def lastPart (line : List Char) : List Char :=
  (line.reverse.takeWhile (!isLineEnd ·)).reverse

/-- Whether a copyright notice starts here without a tag: at the sign, or
at the word with a blank, a colon or a sign after it. -/
def startsNotice (cs : List Char) : Bool :=
  match dropStart? copyrightWord cs with
  | some [] => false
  | some (c :: _) => isBlank c || c == ':' || c == '©' || c == '('
  | none => cs.head? == some '©'

/-- The text from the first copyright notice on, without its tag. -/
def noticeText? : List Char → Option (List Char)
  | [] => none
  | c :: cs =>
    match copyrightTags.findSome? (dropStart? · (c :: cs)) with
    | some rest => some rest
    | none => if startsNotice (c :: cs) then some (c :: cs) else noticeText? cs

/-- A tag's value without closers, unless nothing is left of it. -/
def value? (cs : List Char) : Option String :=
  let value := stripClosers cs
  if value.isEmpty then none else some (String.ofList value)

/-- The tag of a line.  A license tag is preferred to a contributor, and a
contributor to a notice; a tag without a value is no tag. -/
def finding? (line : List Char) : Option Finding :=
  let part := lastPart line
  match (cut? licenseTag part).bind (value? ·.2) with
  | some value => some (.license value)
  | none =>
    match (cut? contributorTag part).bind (value? ·.2) with
    | some name => some (.contributor name)
    | none =>
      match (noticeText? part).bind value? with
      | some text =>
        let notice := Notice.normalize text
        if notice.isEmpty then none else some (.copyright notice)
      | none => none

/-- The tags of the visible lines of a text. -/
def findings (text : String) : List Finding :=
  (pieces '\n' (visible text.toList)).filterMap finding?

/-- The license value of a finding. -/
def Finding.license? : Finding → Option String
  | .license value => some value
  | _ => none

/-- The contributor of a finding. -/
def Finding.contributor? : Finding → Option String
  | .contributor name => some name
  | _ => none

/-- The copyright notice of a finding. -/
def Finding.copyright? : Finding → Option String
  | .copyright notice => some notice
  | _ => none

end Tag

open Tag

/-- The extraction that a list of findings makes, `parsed` telling the
license values that are expressions. -/
def Extraction.ofFindings (parsed : String → Bool) (fs : List Finding) : Extraction :=
  let values := fs.filterMap Finding.license?
  { tags := Fields.sorted
      ⟨fs.filterMap Finding.copyright?, values.filter parsed, fs.filterMap Finding.contributor?⟩
    unparsable := sortedUnique (values.filter (!parsed ·)) }

/-- The extraction of a text. -/
def Extraction.ofText (catalog : Catalog) (text : String) : Extraction :=
  .ofFindings (fun value => (catalog.validate value).parsed) (findings text)

/-- The validator after it has validated some texts in order. -/
def Validator.validateAll (v : Validator) (texts : List String) : Validator :=
  texts.foldl (fun v text => (v.validate text).2) v

/-- The extraction of a text, read with a validator, and the validator
afterwards. -/
def Validator.extract (v : Validator) (text : String) : Extraction × Validator :=
  let fs := findings text
  let v' := v.validateAll (fs.filterMap Finding.license?)
  (.ofFindings (fun value => (v'.validate value).1.parsed) fs, v')

end LicenseAudit
