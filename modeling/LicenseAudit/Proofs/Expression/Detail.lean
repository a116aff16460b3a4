import LicenseAudit.Proofs.Expression.Validation

/-!
# The details of a validation

A detail is about a **subject**, an identifier in one role.  Subjects have a
strict order, by identifier and then by role, and `AtomDetail.insert` keeps a
list strictly ascending in it: of two details for one subject only the one put
in last stays.  Details are put in from the last atom to the first, so every
subject of the atoms is reported once, with the standing of the first atom for
it: `isListing_details`.
-/

namespace LicenseAudit

open Text

/-- What a detail is about: an identifier and the part it plays. -/
structure Subject where
  id : String
  role : Role
  deriving DecidableEq, Repr

/-- A subject comes before another: by identifier, and an exception before a
license of the same name. -/
def Subject.Before (s t : Subject) : Prop :=
  Text.Before s.id t.id ∨ s.id = t.id ∧ s.role = .exception ∧ t.role = .license

theorem Subject.Before.trans {s t u : Subject} (hst : s.Before t) (htu : t.Before u) :
    s.Before u := by
  rcases hst with hst | ⟨hst, hs, ht⟩ <;> rcases htu with htu | ⟨htu, ht', hu⟩
  · exact .inl (hst.trans htu)
  · exact .inl (htu ▸ hst)
  · exact .inl (hst ▸ htu)
  · rw [ht] at ht'
    cases ht'

theorem Subject.Before.asymm {s t : Subject} (hst : s.Before t) : ¬ t.Before s := by
  rintro (hts | ⟨hid, ht, -⟩)
  · rcases hst with hst | ⟨hid, -, -⟩
    · exact hst.asymm hts
    · rw [hid] at hts
      exact hts.asymm hts
  · rcases hst with hst | ⟨-, -, ht'⟩
    · rw [hid] at hst
      exact hst.asymm hst
    · rw [ht] at ht'
      cases ht'

theorem Subject.Before.ne {s t : Subject} (h : s.Before t) : s ≠ t := by
  rintro rfl
  exact h.asymm h

/-- The subject of an atom. -/
def Atom.subject (a : Atom) : Subject :=
  ⟨a.id, a.role⟩

/-- The detail that an atom gives. -/
def Catalog.detail (catalog : Catalog) (a : Atom) : AtomDetail :=
  ⟨a.id, a.role, catalog.standing a⟩

namespace AtomDetail

/-- The subject of a detail. -/
def subject (d : AtomDetail) : Subject :=
  ⟨d.id, d.role⟩

/-- A detail comes before another when its subject does. -/
def Before (d e : AtomDetail) : Prop :=
  d.subject.Before e.subject

variable {d e x : AtomDetail} {ds : List AtomDetail}

theorem before_of_order_eq_lt (h : d.order e = .lt) : d.Before e := by
  obtain ⟨did, drole, _⟩ := d
  obtain ⟨eid, erole, _⟩ := e
  rcases Ordering.then_eq_lt.1 h with hid | ⟨hid, hrole⟩
  · exact .inl hid
  · refine .inr ⟨unitOrder_eq_iff.1 hid, ?_⟩
    cases drole with
    | exception =>
        cases erole with
        | exception => cases hrole
        | license => exact ⟨rfl, rfl⟩
    | license => cases erole <;> cases hrole

theorem before_of_order_eq_gt (h : d.order e = .gt) : e.Before d := by
  obtain ⟨did, drole, _⟩ := d
  obtain ⟨eid, erole, _⟩ := e
  rcases Ordering.then_eq_gt.1 h with hid | ⟨hid, hrole⟩
  · exact .inl (Std.OrientedCmp.lt_of_gt hid)
  · refine .inr ⟨(unitOrder_eq_iff.1 hid).symm, ?_⟩
    cases erole with
    | exception =>
        cases drole with
        | exception => cases hrole
        | license => exact ⟨rfl, rfl⟩
    | license => cases drole <;> cases hrole

theorem subject_eq_of_order_eq (h : d.order e = .eq) : d.subject = e.subject := by
  obtain ⟨did, drole, _⟩ := d
  obtain ⟨eid, erole, _⟩ := e
  obtain ⟨hid, hrole⟩ := Ordering.then_eq_eq.1 h
  obtain rfl : did = eid := unitOrder_eq_iff.1 hid
  cases drole with
  | exception =>
      cases erole with
      | exception => rfl
      | license => cases hrole
  | license =>
      cases erole with
      | exception => cases hrole
      | license => rfl

/-- In an ascending list a detail takes the place of the one for its subject,
and all others stay. -/
theorem mem_insert (hds : ds.Pairwise Before) :
    x ∈ d.insert ds ↔ x = d ∨ x ∈ ds ∧ x.subject ≠ d.subject := by
  induction ds with
  | nil => simp [insert]
  | cons e es ih =>
      obtain ⟨he, hes⟩ := List.pairwise_cons.1 hds
      rw [insert]
      cases h : d.order e with
      | lt =>
          have hde := before_of_order_eq_lt h
          refine List.mem_cons.trans (or_congr_right (and_iff_left_of_imp fun hx => ?_).symm)
          rcases List.mem_cons.1 hx with rfl | hx
          · exact hde.ne.symm
          · exact (hde.trans (he x hx)).ne.symm
      | eq =>
          have hde := subject_eq_of_order_eq h
          refine List.mem_cons.trans
            (or_congr_right ⟨fun hx => ⟨List.mem_cons_of_mem e hx, ?_⟩, ?_⟩)
          · rw [hde]
            exact (he x hx).ne.symm
          · rintro ⟨hx, hne⟩
            refine (List.mem_cons.1 hx).resolve_left ?_
            rintro rfl
            exact hne hde.symm
      | gt =>
          have hed := before_of_order_eq_gt h
          simp only [List.mem_cons, ih hes]
          constructor
          · rintro (rfl | rfl | ⟨hx, hne⟩)
            · exact .inr ⟨.inl rfl, hed.ne⟩
            · exact .inl rfl
            · exact .inr ⟨.inr hx, hne⟩
          · rintro (rfl | ⟨rfl | hx, hne⟩)
            · exact .inr (.inl rfl)
            · exact .inl rfl
            · exact .inr (.inr ⟨hx, hne⟩)

/-- Putting a detail at its place keeps a list ascending. -/
theorem pairwise_insert (hds : ds.Pairwise Before) : (d.insert ds).Pairwise Before := by
  induction ds with
  | nil => simp [insert]
  | cons e es ih =>
      obtain ⟨he, hes⟩ := List.pairwise_cons.1 hds
      rw [insert]
      cases h : d.order e with
      | lt =>
          have hde := before_of_order_eq_lt h
          refine List.pairwise_cons.2 ⟨fun x hx => ?_, hds⟩
          rcases List.mem_cons.1 hx with rfl | hx
          · exact hde
          · exact hde.trans (he x hx)
      | eq =>
          have hde := subject_eq_of_order_eq h
          refine List.pairwise_cons.2 ⟨fun x hx => ?_, hes⟩
          rw [Before, hde]
          exact he x hx
      | gt =>
          refine List.pairwise_cons.2 ⟨fun x hx => ?_, ih hes⟩
          rcases (mem_insert hes).1 hx with rfl | ⟨hx, -⟩
          · exact before_of_order_eq_gt h
          · exact he x hx

end AtomDetail

namespace Catalog

variable (catalog : Catalog) {atoms : List Atom} {d : AtomDetail}

/-- A detail **reports** atoms when it is that of the first atom for its
subject. -/
def Reports (atoms : List Atom) (d : AtomDetail) : Prop :=
  ∃ a, atoms.find? (·.subject = d.subject) = some a ∧ d = catalog.detail a

theorem details_cons (a : Atom) (atoms : List Atom) :
    catalog.details (a :: atoms) = (catalog.detail a).insert (catalog.details atoms) :=
  rfl

theorem reports_cons {a : Atom} :
    catalog.Reports (a :: atoms) d ↔
      d = catalog.detail a ∨ catalog.Reports atoms d ∧ d.subject ≠ (catalog.detail a).subject := by
  have hsubject : (catalog.detail a).subject = a.subject := rfl
  rw [Reports, Reports, List.find?_cons, hsubject]
  by_cases ha : a.subject = d.subject
  · simp [ha]
  · have hne : d ≠ catalog.detail a := by
      rintro rfl
      exact ha rfl
    simp [ha, Ne.symm ha, hne]

/-- **Every subject is reported once**, in the order of subjects and with the
standing of the first atom for it. -/
theorem isListing_details (atoms : List Atom) :
    IsListing AtomDetail.Before (catalog.Reports atoms) (catalog.details atoms) := by
  induction atoms with
  | nil => exact ⟨.nil, fun d => by simp [details, Reports]⟩
  | cons a atoms ih =>
      refine ⟨AtomDetail.pairwise_insert ih.ascending, fun d => ?_⟩
      rw [details_cons, AtomDetail.mem_insert ih.ascending, ih.mem_iff, reports_cons]

/-- The subjects reported are those of the atoms. -/
theorem isListing_subjects (atoms : List Atom) :
    IsListing Subject.Before (fun s => ∃ a ∈ atoms, a.subject = s)
      ((catalog.details atoms).map AtomDetail.subject) := by
  refine ⟨List.pairwise_map.2 (catalog.isListing_details atoms).ascending, fun s => ?_⟩
  simp only [List.mem_map, (catalog.isListing_details atoms).mem_iff]
  constructor
  · rintro ⟨d, ⟨a, hfind, rfl⟩, rfl⟩
    exact ⟨a, List.mem_of_find?_eq_some hfind, rfl⟩
  · rintro ⟨a, ha, rfl⟩
    obtain ⟨b, hfind⟩ : ∃ b, atoms.find? (·.subject = a.subject) = some b :=
      Option.isSome_iff_exists.1 (List.find?_isSome.2 ⟨a, ha, by simp⟩)
    have hsubject : b.subject = a.subject := by simpa using List.find?_some hfind
    have hdetail : (catalog.detail b).subject = a.subject := hsubject
    exact ⟨catalog.detail b, ⟨b, by rw [hdetail, hfind], rfl⟩, hdetail⟩

/-- What a validator of the catalog answers about a text after it has validated
some others. -/
def answer (earlier : List String) (text : String) : Validation :=
  (((Validator.new catalog).validateAll earlier).validate text).1

/-- An answer about an expression details its atoms. -/
theorem details_answer {text : String} {e : Expression} (h : Expression.parse text = .ok e)
    (earlier : List String) : (catalog.answer earlier text).details = catalog.details e.atoms := by
  rw [answer, Validator.validate_validateAll, validate, h]

end Catalog

end LicenseAudit
