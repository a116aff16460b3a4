import LicenseAudit.Proofs.Expression.Detail
import LicenseAudit.Proofs.Expression.Identifier
import LicenseAudit.Proofs.Text.Units

/-!
# From the tokens of a text to its validation

Which part an identifier plays shows at the token before it: right behind `WITH`
it names an exception, anywhere else a license.  `subjectsFrom` reads the
subjects off a list of tokens in this way, and a derivation has these atoms and
no others, in the same order (`subjectsFrom_eq_of_derives`).  So nothing that a
text mentions is left out of what a validator answers about it, and nothing is
reported twice: `answer_lists_words`.
-/

namespace LicenseAudit

open Text

namespace Expression

/-- An identifier **occurs** among tokens in the role of an exception when it
stands right behind `WITH`, and as a license when it stands elsewhere. -/
def Occurs (s : Subject) (ts : List Token) : Prop :=
  ∃ front back, ts = front ++ .word s.id :: back ∧
    (s.role = .exception ↔ front.getLast? = some .with)

/-- The role of an identifier behind a token. -/
def roleAfter (before : Option Token) : Role :=
  if before = some .with then .exception else .license

/-- The identifiers among tokens with their roles, `before` being the token in
front of them. -/
def subjectsFrom : Option Token → List Token → List Subject
  | _, [] => []
  | before, .word id :: ts => ⟨id, roleAfter before⟩ :: subjectsFrom (some (.word id)) ts
  | _, t :: ts => subjectsFrom (some t) ts

theorem eq_roleAfter_iff {role : Role} {before : Option Token} :
    role = roleAfter before ↔ (role = .exception ↔ before = some .with) := by
  unfold roleAfter
  cases role <;> split <;> simp_all

/-- One token is an occurrence of its own identifier or none, and the others
follow it. -/
theorem mem_subjectsFrom_cons {s : Subject} {before : Option Token} {t : Token} {ts : List Token} :
    s ∈ subjectsFrom before (t :: ts) ↔
      t = .word s.id ∧ s.role = roleAfter before ∨ s ∈ subjectsFrom (some t) ts := by
  obtain ⟨id, role⟩ := s
  cases t <;> simp [subjectsFrom, eq_comm]

/-- What stands at the end of a list behind one more token. -/
theorem getLast?_cons_or (t : Token) (ts : List Token) (before : Option Token) :
    (t :: ts).getLast?.or before = ts.getLast?.or (some t) := by
  rw [List.getLast?_cons]
  cases ts.getLast? <;> rfl

theorem mem_subjectsFrom {s : Subject} {before : Option Token} {ts : List Token} :
    s ∈ subjectsFrom before ts ↔
      ∃ front back, ts = front ++ .word s.id :: back ∧
        s.role = roleAfter (front.getLast?.or before) := by
  induction ts generalizing before with
  | nil => simp [subjectsFrom]
  | cons t ts ih =>
      rw [mem_subjectsFrom_cons, ih]
      constructor
      · rintro (⟨rfl, hrole⟩ | ⟨front, back, rfl, hrole⟩)
        · exact ⟨[], ts, rfl, hrole⟩
        · exact ⟨t :: front, back, rfl, by rw [hrole, getLast?_cons_or]⟩
      · rintro ⟨front, back, happend, hrole⟩
        cases front with
        | nil =>
            obtain ⟨rfl, -⟩ := List.cons.inj happend
            exact .inl ⟨rfl, hrole⟩
        | cons u front =>
            obtain ⟨rfl, rfl⟩ := List.cons.inj happend
            exact .inr ⟨front, back, rfl, by rw [hrole, getLast?_cons_or]⟩

/-- What is read off tokens is what occurs among them. -/
theorem mem_subjectsFrom_iff_occurs {s : Subject} {ts : List Token} :
    s ∈ subjectsFrom none ts ↔ Occurs s ts := by
  simp only [mem_subjectsFrom, Option.or_none, eq_roleAfter_iff, Occurs]

/-- A token that is no identifier parts the subjects before it from those
after it. -/
theorem subjectsFrom_append_cons {t : Token} (ht : ∀ id, t ≠ .word id) (before : Option Token)
    (ts us : List Token) :
    subjectsFrom before (ts ++ t :: us) = subjectsFrom before ts ++ subjectsFrom (some t) us := by
  induction ts generalizing before with
  | nil =>
      cases t with
      | word id => exact absurd rfl (ht id)
      | _ => rfl
  | cons u ts ih =>
      cases u with
      | word id => exact congrArg (_ :: ·) (ih _)
      | _ => exact ih _

/-- **The subjects of derived tokens are those of the atoms**, occurrence by
occurrence. -/
theorem subjectsFrom_eq_of_derives {level : Level} {ts : List Token} {e : Expression}
    (h : Derives level ts e) {before : Option Token} (hbefore : before ≠ some .with) :
    subjectsFrom before ts = e.atoms.map Atom.subject := by
  induction h generalizing before with
  | word id => simp [subjectsFrom, roleAfter, hbefore, atoms, License.atom, Atom.subject]
  | later id => simp [subjectsFrom, roleAfter, hbefore, atoms, License.atom, Atom.subject]
  | @group ts e h ih =>
      have hopen : subjectsFrom before (.opening :: (ts ++ [.closing])) =
          subjectsFrom (some .opening) (ts ++ [.closing]) := rfl
      have hclosing : ∀ id, Token.closing ≠ .word id := by simp
      rw [hopen, subjectsFrom_append_cons hclosing, @ih (some .opening) (by simp)]
      exact List.append_nil _
  | primary h ih => exact ih hbefore
  | @exception ts l h id ih =>
      have hwith : ∀ id, Token.with ≠ .word id := by simp
      rw [subjectsFrom_append_cons hwith, ih hbefore]
      rfl
  | operand h ih => exact ih hbefore
  | @both ts us a b ha hb iha ihb =>
      have hand : ∀ id, Token.and ≠ .word id := by simp
      rw [subjectsFrom_append_cons hand, iha hbefore, @ihb (some .and) (by simp), atoms,
        List.map_append]
  | conjunction h ih => exact ih hbefore
  | @either ts us a b ha hb iha ihb =>
      have hor : ∀ id, Token.or ≠ .word id := by simp
      rw [subjectsFrom_append_cons hor, iha hbefore, @ihb (some .or) (by simp), atoms,
        List.map_append]

/-- The atoms of what a text is read as are what occurs among its tokens. -/
theorem exists_tokens_of_parse {text : String} {e : Expression} (h : parse text = .ok e) :
    ∃ ps, tokens text.toList = .ok ps ∧
      ∀ s, (∃ a ∈ e.atoms, a.subject = s) ↔ Occurs s (ps.map Placed.token) := by
  obtain ⟨ts, hderives, hspells⟩ := renders_of_parse h
  obtain ⟨ps, hps, rfl⟩ := spells_iff.1 hspells
  refine ⟨ps, hps, fun s => ?_⟩
  have hstart : (none : Option Token) ≠ some .with := nofun
  rw [← mem_subjectsFrom_iff_occurs, subjectsFrom_eq_of_derives hderives hstart, List.mem_map]

/-- An identifier is a token in one role or the other. -/
theorem exists_occurs_iff {id : String} {ts : List Token} :
    (∃ s, Occurs s ts ∧ s.id = id) ↔ .word id ∈ ts := by
  rw [List.mem_iff_append]
  constructor
  · rintro ⟨s, ⟨front, back, hts, -⟩, rfl⟩
    exact ⟨front, back, hts⟩
  · rintro ⟨front, back, hts⟩
    exact ⟨⟨id, roleAfter front.getLast?⟩, ⟨front, back, hts, eq_roleAfter_iff.1 rfl⟩, rfl⟩

end Expression

open Expression

/-- **Nothing that a text mentions is dropped.**  Whatever was validated before,
the answer about an expression lists its identifiers, ascending by their units
and each once, and it details every pair of an identifier and a role that occurs
exactly once, in order: exceptions are what stands behind `WITH`. -/
theorem answer_lists_words (catalog : Catalog) (earlier : List String) {text : String}
    {e : Expression} (h : parse text = .ok e) :
    ∃ ps, tokens text.toList = .ok ps ∧
      IsListing (fun a b => unitsOf a.toList < unitsOf b.toList)
        (fun id => ∃ p ∈ ps, p.token = .word id) (catalog.answer earlier text).atoms ∧
      IsListing Subject.Before (fun s => Occurs s (ps.map Placed.token))
        ((catalog.answer earlier text).details.map AtomDetail.subject) := by
  obtain ⟨ps, hps, hoccurs⟩ := exists_tokens_of_parse h
  have hdetails := (catalog.isListing_subjects e.atoms).congr hoccurs
  rw [← catalog.details_answer h earlier] at hdetails
  have hatoms := isListing_sortedUnique ((catalog.answer earlier text).details.map (·.id))
  refine ⟨ps, hps, ⟨hatoms.ascending.imp before_iff_units.1, fun id => ?_⟩, hdetails⟩
  have hwords : (∃ p ∈ ps, p.token = .word id) ↔ Token.word id ∈ ps.map Placed.token :=
    List.mem_map.symm
  rw [hwords, ← exists_occurs_iff]
  simp only [← hdetails.mem_iff]
  refine (hatoms.mem_iff id).trans ?_
  simp [AtomDetail.subject]

/-- One name may stand for a license and for an exception. -/
theorem answer_lists_words_mixed :
    let text := "b WITH b OR (a+ AND c)"
    let answer := (Catalog.mk ["c"] ["b"] ["a+"]).answer ["c", "b"] text
    parse text = .ok (.either (.withException ⟨"b", false⟩ "b")
        (.both (.license ⟨"a", true⟩) (.license ⟨"c", false⟩))) ∧
      ∃ ps, tokens text.toList = .ok ps ∧
        IsListing (fun a b => unitsOf a.toList < unitsOf b.toList)
          (fun id => ∃ p ∈ ps, p.token = .word id) answer.atoms ∧
        IsListing Subject.Before (fun s => Occurs s (ps.map Placed.token))
          (answer.details.map AtomDetail.subject) := by
  intro text answer
  have hparse : parse text = .ok (.either (.withException ⟨"b", false⟩ "b")
      (.both (.license ⟨"a", true⟩) (.license ⟨"c", false⟩))) := by decide +kernel
  exact ⟨hparse, answer_lists_words _ _ hparse⟩

end LicenseAudit
