import LicenseAudit.Proofs.Text.Order
import LicenseAudit.Tag

/-!
# What a validation says

A validation says of a text what the text spells: `parsed_validate` that it
is an expression, and `mem_atoms_validate` which identifiers occur in it,
however its atoms are sorted and put together on the way.

A validator answers from its memory where it can.  `Validator.Sound` says
that its memory holds what the catalog says; it holds at the start and
after every validation, so that what was validated before makes no
difference to an answer: `validate_validateAll`.
-/

namespace LicenseAudit

open Text

/-- A text mentions an identifier when it spells an expression with an atom
for it. -/
def Mentions (text id : String) : Prop :=
  ∃ e, Expression.parse text = .ok e ∧ ∃ a ∈ e.atoms, a.id = id

theorem AtomDetail.id_eq_of_order_eq {d e : AtomDetail} (h : d.order e = .eq) : d.id = e.id := by
  rw [AtomDetail.order, Ordering.then_eq_eq] at h
  exact unitOrder_eq_iff.1 h.1

/-- A detail that is put at its place replaces only a detail for the same
identifier. -/
theorem AtomDetail.mem_ids_insert {d : AtomDetail} {ds : List AtomDetail} {id : String} :
    id ∈ (d.insert ds).map (·.id) ↔ id = d.id ∨ id ∈ ds.map (·.id) := by
  induction ds with
  | nil => simp [AtomDetail.insert]
  | cons e es ih =>
      rw [AtomDetail.insert]
      cases h : d.order e with
      | lt => simp
      | eq => simp [id_eq_of_order_eq h]
      | gt =>
          simp only [List.map_cons, List.mem_cons, ih]
          exact or_left_comm

namespace Catalog

variable (catalog : Catalog)

/-- There is a detail for an identifier when there is an atom for it. -/
theorem mem_ids_details {atoms : List Atom} {id : String} :
    id ∈ (catalog.details atoms).map (·.id) ↔ ∃ a ∈ atoms, a.id = id := by
  induction atoms with
  | nil => simp [details]
  | cons a atoms ih =>
      have hinsert : catalog.details (a :: atoms) =
          AtomDetail.insert ⟨a.id, a.role, catalog.standing a⟩ (catalog.details atoms) := rfl
      rw [hinsert, AtomDetail.mem_ids_insert, ih, List.exists_mem_cons_iff]
      exact or_congr_left eq_comm

/-- A text is validated as an expression when it spells one. -/
theorem parsed_validate {text : String} :
    (catalog.validate text).parsed = true ↔ ∃ e, Expression.parse text = .ok e := by
  rw [validate]
  cases h : Expression.parse text with
  | error e => simp [Validation.parsed]
  | ok e => simp [Validation.parsed]

/-- The atoms of a validation are the identifiers that the text mentions. -/
theorem mem_atoms_validate {text id : String} :
    id ∈ (catalog.validate text).atoms ↔ Mentions text id := by
  rw [Validation.atoms, mem_sortedUnique, validate]
  cases h : Expression.parse text with
  | error e => simp [Mentions, h]
  | ok e =>
      rw [mem_ids_details]
      simp [Mentions, h]

end Catalog

namespace Validator

/-- A validator is **sound** when it remembers what its catalog says. -/
def Sound (v : Validator) : Prop :=
  ∀ text known, v.remembered? text = some known → known = v.catalog.validate text

theorem sound_new (catalog : Catalog) : (new catalog).Sound :=
  nofun

@[simp] theorem catalog_validate (v : Validator) (text : String) :
    (v.validate text).2.catalog = v.catalog := by
  rw [validate]
  split <;> rfl

theorem validate_of_some {v : Validator} {text : String} {known : Validation}
    (h : v.remembered? text = some known) : v.validate text = (known, v) := by
  rw [validate, h]

theorem validate_of_none {v : Validator} {text : String} (h : v.remembered? text = none) :
    v.validate text = (v.catalog.validate text,
      { v with memory := (text, v.catalog.validate text) :: v.memory }) := by
  rw [validate, h]

/-- What has been validated before makes no difference to an answer. -/
theorem fst_validate_validate (v : Validator) (text other : String) :
    ((v.validate text).2.validate other).1 = (v.validate other).1 := by
  cases hknown : v.remembered? text with
  | some known => rw [validate_of_some hknown]
  | none =>
      by_cases hother : other = text
      · subst hother
        have hnew : (v.validate other).2.remembered? other = some (v.catalog.validate other) := by
          rw [validate_of_none hknown]
          exact List.lookup_cons_self
        rw [validate_of_some hnew, validate_of_none hknown]
      · have hsame : (v.validate text).2.remembered? other = v.remembered? other := by
          rw [validate_of_none hknown]
          simp [remembered?, List.lookup_cons, beq_false_of_ne hother]
        cases hbefore : v.remembered? other with
        | some known =>
            rw [validate_of_some (hsame.trans hbefore), validate_of_some hbefore]
        | none =>
            rw [validate_of_none (hsame.trans hbefore), validate_of_none hbefore,
              catalog_validate]

theorem fst_validate_validateAll (v : Validator) (texts : List String) (text : String) :
    ((v.validateAll texts).validate text).1 = (v.validate text).1 := by
  induction texts generalizing v with
  | nil => rfl
  | cons first texts ih =>
      exact (ih (v.validate first).2).trans (fst_validate_validate v first text)

variable {v : Validator}

/-- A sound validator answers what its catalog says. -/
theorem Sound.answer (hv : v.Sound) (text : String) :
    (v.validate text).1 = v.catalog.validate text := by
  rw [validate]
  split
  · next known hknown => exact hv text known hknown
  · rfl

/-- A validation keeps the memory sound. -/
theorem Sound.validate (hv : v.Sound) (text : String) : (v.validate text).2.Sound := by
  rw [Validator.validate]
  split
  · exact hv
  · intro other known hknown
    by_cases hother : other = text
    · simpa [remembered?, hother, eq_comm] using hknown
    · have hbefore : v.remembered? other = some known := by
        simpa [remembered?, List.lookup_cons, beq_false_of_ne hother] using hknown
      exact hv other known hbefore

theorem Sound.validateAll (hv : v.Sound) (texts : List String) :
    (v.validateAll texts).Sound ∧ (v.validateAll texts).catalog = v.catalog := by
  induction texts generalizing v with
  | nil => exact ⟨hv, rfl⟩
  | cons text texts ih =>
      obtain ⟨hsound, hcatalog⟩ := ih (hv.validate text)
      exact ⟨hsound, hcatalog.trans (catalog_validate v text)⟩

/-- A sound validator extracts what its catalog says, and stays sound. -/
theorem Sound.extract (hv : v.Sound) (text : String) :
    (v.extract text).1 = .ofText v.catalog text ∧
      (v.extract text).2.Sound ∧ (v.extract text).2.catalog = v.catalog := by
  obtain ⟨hsound, hcatalog⟩ := hv.validateAll ((Tag.findings text).filterMap Tag.Finding.license?)
  refine ⟨?_, hsound, hcatalog⟩
  simp only [Validator.extract, Extraction.ofText, hsound.answer, hcatalog]

/-- **Memory makes no difference**: whatever was validated before, the
answer is what the catalog says. -/
theorem validate_validateAll (catalog : Catalog) (texts : List String) (text : String) :
    (((new catalog).validateAll texts).validate text).1 = catalog.validate text := by
  obtain ⟨hsound, hcatalog⟩ := (sound_new catalog).validateAll texts
  rw [hsound.answer, hcatalog]
  rfl

end Validator

end LicenseAudit
