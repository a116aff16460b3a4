import LicenseAudit.Proofs.Evidence
import LicenseAudit.Proofs.Tag.Junction

/-!
# The tags of a text are those of its lines

What is found on some lines lists what each of them tells
(`isListing_lines_found`, `isListing_unparsable_found`).  So it depends on the
set of the lines and on nothing else (`found_congr`), and a line whose value
is no expression takes nothing away from the others.  A text without ignore
markers shows all of its lines, and no marker reaches across the end of a
line (`HasNoMarker.append`), so two texts with a line end between them tell
together what they tell apart: `extract_isUnion`.
-/

namespace LicenseAudit

open Text Tag

namespace Tag

/-- What a finding says of one kind. -/
def Finding.line? : Field → Finding → Option String
  | .copyrights => Finding.copyright?
  | .licenses => Finding.license?
  | .contributors => Finding.contributor?

/-- A line **tells** what its tag says of one kind. -/
def Tells (line : List Char) (kind : Field) (x : String) : Prop :=
  ∃ f, finding? line = some f ∧ f.line? kind = some x

theorem exists_tells_iff {lines : List (List Char)} {kind : Field} {x : String} :
    (∃ line ∈ lines, Tells line kind x) ↔
      x ∈ (lines.filterMap finding?).filterMap (Finding.line? kind) := by
  simp only [List.mem_filterMap]
  constructor
  · intro ⟨line, hline, f, hf, hx⟩
    exact ⟨f, ⟨line, hline, hf⟩, hx⟩
  · intro ⟨f, ⟨line, hline, hf⟩, hx⟩
    exact ⟨line, hline, f, hf, hx⟩

/-- A line has a license **value** when the text after its first license tag
is more than closing text. -/
def HasLicenseValue (line : List Char) (value : String) : Prop :=
  ∃ before rest, cut? licenseTag (lastPart line) = some (before, rest) ∧
    stripClosers rest = value.toList ∧ value ≠ ""

end Tag

/-- An extraction is the **union** of two others when each of its four lists
is the ascending list of what is in the one or in the other. -/
structure Extraction.IsUnion (whole a b : Extraction) : Prop where
  tags : ∀ kind, IsListing Before (fun x => x ∈ a.tags.lines kind ∨ x ∈ b.tags.lines kind)
    (whole.tags.lines kind)
  unparsable : IsListing Before (fun x => x ∈ a.unparsable ∨ x ∈ b.unparsable) whole.unparsable

namespace Validator

variable (v : Validator) {lines others : List (List Char)}

/-- What is found of a kind is what some line tells; of the license values
those that are expressions. -/
theorem isListing_lines_found (lines : List (List Char)) (kind : Field) :
    IsListing Before (fun x => (∃ line ∈ lines, Tells line kind x) ∧
      (kind = .licenses → (v.validate x).1.parsed = true)) ((v.found lines).tags.lines kind) := by
  constructor
  · cases kind <;> exact pairwise_sortedUnique _
  · intro x
    rw [exists_tells_iff]
    cases kind <;>
      simp [found, Extraction.ofFindings, Fields.sorted, Fields.lines, Finding.line?]

/-- The license values that are no expressions are apart from the others. -/
theorem isListing_unparsable_found (lines : List (List Char)) :
    IsListing Before (fun x => (∃ line ∈ lines, Tells line .licenses x) ∧
      (v.validate x).1.parsed = false) (v.found lines).unparsable := by
  constructor
  · exact pairwise_sortedUnique _
  · intro x
    rw [exists_tells_iff]
    simp [found, Extraction.ofFindings, Finding.line?]

/-- What is found on more lines is found on some of them or on the others. -/
theorem found_append (lines others : List (List Char)) :
    (v.found (lines ++ others)).IsUnion (v.found lines) (v.found others) := by
  constructor
  · intro kind
    apply (v.isListing_lines_found (lines ++ others) kind).congr
    intro x
    rw [(v.isListing_lines_found lines kind).mem_iff, (v.isListing_lines_found others kind).mem_iff]
    simp only [List.mem_append, or_and_right, exists_or]
  · apply (v.isListing_unparsable_found (lines ++ others)).congr
    intro x
    rw [(v.isListing_unparsable_found lines).mem_iff, (v.isListing_unparsable_found others).mem_iff]
    simp only [List.mem_append, or_and_right, exists_or]

/-- What is found on lines depends on the set of the lines alone, not on
their order or on how often each is there. -/
theorem found_congr (h : ∀ line, line ∈ lines ↔ line ∈ others) :
    v.found lines = v.found others := by
  have htells (kind : Field) (x : String) :
      (∃ line ∈ lines, Tells line kind x) ↔ ∃ line ∈ others, Tells line kind x := by
    simp only [h]
  have htags : (v.found lines).tags = (v.found others).tags := by
    apply Fields.ext_lines
    intro kind
    apply (v.isListing_lines_found lines kind).unique fun _ _ hab => hab.asymm
    exact (v.isListing_lines_found others kind).congr fun x => and_congr_left' (htells kind x).symm
  have hunparsable : (v.found lines).unparsable = (v.found others).unparsable := by
    apply (v.isListing_unparsable_found lines).unique fun _ _ hab => hab.asymm
    exact (v.isListing_unparsable_found others).congr
      fun x => and_congr_left' (htells .licenses x).symm
  rw [Extraction.mk.injEq]
  exact ⟨htags, hunparsable⟩

/-- A line with a license value tells that value and nothing else. -/
theorem found_of_hasLicenseValue {line : List Char} {value : String}
    (h : HasLicenseValue line value) :
    v.found [line] = if (v.validate value).1.parsed then ⟨⟨[], [value], []⟩, []⟩
      else ⟨⟨[], [], []⟩, [value]⟩ := by
  have hfinding : finding? line = some (.license value) := finding?_eq_license_iff.2 h
  cases hparsed : (v.validate value).1.parsed <;>
    simp [found, List.filterMap_cons, hfinding, Extraction.ofFindings, Finding.license?,
      Finding.contributor?, Finding.copyright?, hparsed, Fields.sorted, sortedUnique, insertUnique]

end Validator

namespace Tag

/-- No marker reaches across the end of a line. -/
theorem HasNoMarker.append {a b : List Char} (ha : HasNoMarker a) (hb : HasNoMarker b) :
    HasNoMarker (a ++ '\n' :: b) := by
  constructor
  · rw [cut?_append_cons (by decide) (by decide) ha.start, hb.start]
    rfl
  · rw [cut?_append_cons (by decide) (by decide) ha.close, hb.close]
    rfl

end Tag

namespace Validator

/-- A text without markers is extracted from all of its lines, whatever was
validated before. -/
theorem extract_of_hasNoMarker (catalog : Catalog) (history : List String) {text : String}
    (h : HasNoMarker text.toList) :
    (((new catalog).validateAll history).extract text).1 =
      (new catalog).found (pieces '\n' text.toList) := by
  obtain ⟨hsound, hcatalog⟩ := (sound_new catalog).validateAll history
  calc (((new catalog).validateAll history).extract text).1
      = .ofText (new catalog).catalog text := by rw [(hsound.extract text).1, hcatalog]
    _ = ((new catalog).extract text).1 := ((sound_new catalog).extract text).1.symm
    _ = (new catalog).found (pieces '\n' text.toList) := by
        rw [extract_eq_found, visible_of_hasNoMarker h]

/-- **Extraction is a union over lines**: two texts without ignore markers,
with a line end between them, tell together what they tell apart; texts with
the same lines, in any order and each any number of times, tell the same; and
a line with a license value tells that value alone, as a license or as
unparsable according to whether it is an expression.  What the validator has
validated before makes no difference to any of this. -/
theorem extract_isUnion (catalog : Catalog) (history history₁ history₂ : List String)
    {t₁ t₂ : String} (h₁ : HasNoMarker t₁.toList) (h₂ : HasNoMarker t₂.toList) :
    (((new catalog).validateAll history).extract (t₁ ++ "\n" ++ t₂)).1.IsUnion
      (((new catalog).validateAll history₁).extract t₁).1
      (((new catalog).validateAll history₂).extract t₂).1 ∧
    ((∀ line, line ∈ pieces '\n' t₁.toList ↔ line ∈ pieces '\n' t₂.toList) →
      (((new catalog).validateAll history₁).extract t₁).1 =
        (((new catalog).validateAll history₂).extract t₂).1) ∧
    ('\n' ∉ t₂.toList → ∀ value, HasLicenseValue t₂.toList value →
      (((new catalog).validateAll history₂).extract t₂).1 =
        match Expression.parse value with
        | .ok _ => ⟨⟨[], [value], []⟩, []⟩
        | .error _ => ⟨⟨[], [], []⟩, [value]⟩) := by
  have htext : (t₁ ++ "\n" ++ t₂).toList = t₁.toList ++ '\n' :: t₂.toList := by simp
  have hmarker : HasNoMarker (t₁ ++ "\n" ++ t₂).toList := htext ▸ h₁.append h₂
  rw [extract_of_hasNoMarker catalog history hmarker, extract_of_hasNoMarker catalog history₁ h₁,
    extract_of_hasNoMarker catalog history₂ h₂, htext, pieces_append]
  refine ⟨found_append _ _ _, fun hlines => found_congr _ hlines, ?_⟩
  intro hline value hvalue
  have hanswer : ((new catalog).validate value).1 = catalog.validate value :=
    (sound_new catalog).answer value
  rw [pieces_of_not_mem hline, found_of_hasLicenseValue _ hvalue, hanswer, Catalog.validate]
  cases Expression.parse value <;> rfl

/-- A value that is no expression stands apart from the tags of the lines
before it, and takes none of them away. -/
theorem extract_isUnion_unparsable :
    (((new ⟨["MIT"], [], []⟩).validateAll ["MIT ("]).extract
      ("// SPDX-License-Identifier: MIT\n// © 2020 Jane Doe" ++ "\n" ++
        "/* SPDX-License-Identifier: MIT ( */")).1.IsUnion
      ⟨⟨["2020 Jane Doe"], ["MIT"], []⟩, []⟩ ⟨⟨[], [], []⟩, ["MIT ("]⟩ := by
  have h₁ : HasNoMarker "// SPDX-License-Identifier: MIT\n// © 2020 Jane Doe".toList :=
    ⟨by decide +kernel, by decide +kernel⟩
  have h₂ : HasNoMarker "/* SPDX-License-Identifier: MIT ( */".toList :=
    ⟨by decide +kernel, by decide +kernel⟩
  have hvalue : HasLicenseValue "/* SPDX-License-Identifier: MIT ( */".toList "MIT (" :=
    ⟨"/* ".toList, " MIT ( */".toList, by decide +kernel, by decide +kernel, by decide⟩
  obtain ⟨hunion, -, hline⟩ :=
    extract_isUnion ⟨["MIT"], [], []⟩ ["MIT ("] [] ["MIT"] h₁ h₂
  have hfirst : (((new ⟨["MIT"], [], []⟩).validateAll []).extract
      "// SPDX-License-Identifier: MIT\n// © 2020 Jane Doe").1 =
      ⟨⟨["2020 Jane Doe"], ["MIT"], []⟩, []⟩ := by
    decide +kernel
  have hparse : Expression.parse "MIT (" = .error ⟨.unexpected .opening, 4⟩ := by decide +kernel
  have hsecond := hline (by decide) "MIT (" hvalue
  rw [hparse] at hsecond
  rw [hfirst, hsecond] at hunion
  exact hunion

end Validator

end LicenseAudit
