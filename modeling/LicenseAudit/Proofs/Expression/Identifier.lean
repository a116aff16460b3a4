import LicenseAudit.Proofs.Expression.Grammar
import LicenseAudit.Proofs.Expression.Validation

/-!
# Identifiers and the expressions that they are

What an expression mentions are identifiers (`isIdentifier_of_mentions`), and
an identifier alone is the expression of this one license
(`parse_of_isIdentifier`).  So a text that is an expression without being an
identifier, such as one with a plus sign, is never mentioned itself
(`parse_of_mentions`).
-/

namespace LicenseAudit.Expression

open Text

variable {text id : String} {e : Expression} {ts : List Token} {before : Option Token}

/-- A text that is read as an expression renders it. -/
theorem renders_of_parse (h : parse text = .ok e) : Renders text e := by
  obtain ⟨ps, s, hps, hfollow, hconclude⟩ := parse_eq_ok_iff.1 h
  have hstart : Reading.start.Holds [] := ⟨[], [], [], rfl, rfl, ⟨[], [], rfl, rfl, rfl⟩, rfl⟩
  have hderives := derives_of_conclude (holds_follow hstart hfollow) hconclude
  exact ⟨_, hderives, spells_iff.2 ⟨ps, hps, rfl⟩⟩

/-- A text that renders an expression is read as it. -/
theorem parse_of_renders (h : Renders text e) : parse text = .ok e := by
  obtain ⟨ts, hderives, hspells⟩ := h
  obtain ⟨ps, hps, rfl⟩ := spells_iff.1 hspells
  obtain ⟨group, ending, last, hfollow, hlast, rfl⟩ := follow_derives hderives []
  exact parse_eq_ok_iff.2 ⟨ps, _, hps, hfollow, conclude_eq_ok hlast⟩

/-- The identifiers of an expression are words of its tokens. -/
theorem word_mem_of_derives {level : Level} (h : Derives level ts e) :
    ∀ a ∈ e.atoms, Token.word a.id ∈ ts := by
  induction h with
  | word id => simp [atoms, License.atom]
  | later id => simp [atoms, License.atom]
  | group h ih =>
      intro a ha
      exact List.mem_cons_of_mem _ (List.mem_append_left _ (ih a ha))
  | primary h ih => exact ih
  | @exception ts l h id ih =>
      intro a ha
      rcases List.mem_cons.1 ha with rfl | ha
      · exact List.mem_append_left _ (ih _ (by simp [atoms]))
      · obtain rfl := List.mem_singleton.1 ha
        simp
  | operand h ih => exact ih
  | both ha hb iha ihb =>
      intro a hmem
      rcases List.mem_append.1 hmem with hmem | hmem
      · exact List.mem_append_left _ (iha a hmem)
      · exact List.mem_append_right _ (List.mem_cons_of_mem _ (ihb a hmem))
  | conjunction h ih => exact ih
  | either ha hb iha ihb =>
      intro a hmem
      rcases List.mem_append.1 hmem with hmem | hmem
      · exact List.mem_append_left _ (iha a hmem)
      · exact List.mem_append_right _ (List.mem_cons_of_mem _ (ihb a hmem))

theorem isLexical_of_spells {cs : List Char} (h : Spells before ts cs) :
    ∀ t ∈ ts, t.IsLexical := by
  induction h with
  | nil => exact List.forall_mem_nil _
  | cons hlexical hgap hrest ih => exact List.forall_mem_cons.2 ⟨hlexical, ih⟩

/-- What a text mentions is an identifier. -/
theorem isIdentifier_of_mentions (h : Mentions text id) : IsIdentifier id := by
  obtain ⟨e, hparse, a, ha, rfl⟩ := h
  obtain ⟨ts, hderives, hspells⟩ := renders_of_parse hparse
  exact isLexical_of_spells hspells (.word a.id) (word_mem_of_derives hderives a ha)

/-- A text that spells an identifier and some more tokens is read as what
these come to. -/
theorem parse_of_spells {rest : List Char} {r : Reading} (h : IsIdentifier id)
    (hrest : Spells (some (.word id)) ts rest) (htext : text.toList = id.toList ++ rest)
    (hfollow : Reading.start.follow (.word id :: ts) = .ok r) (hconclude : r.conclude = .ok e) :
    parse text = .ok e := by
  have hlexical : (Token.word id).IsLexical := h
  have hgap : Separates none (.word id) [] := ⟨List.forall_mem_nil _, nofun, nofun⟩
  have hspells : Spells none (.word id :: ts) text.toList := by
    rw [htext]
    exact .cons hlexical hgap hrest
  obtain ⟨ps, hps, hwords⟩ := spells_iff.1 hspells
  exact parse_eq_ok_iff.2 ⟨ps, r, hps, by rw [hwords, hfollow], hconclude⟩

/-- An identifier is the expression of one license. -/
theorem parse_of_isIdentifier (h : IsIdentifier id) :
    parse id = .ok (.license ⟨id, false⟩) :=
  parse_of_spells h (.nil (List.forall_mem_nil _)) (List.append_nil _).symm rfl rfl

/-- With a plus sign it stands for later versions too. -/
theorem parse_append_plus (h : IsIdentifier id) :
    parse (id ++ "+") = .ok (.license ⟨id, true⟩) := by
  have hgap : Separates (some (.word id)) .plus [] :=
    ⟨List.forall_mem_nil _, nofun, fun _ => ⟨rfl, id, rfl⟩⟩
  have hlexical : Token.plus.IsLexical := trivial
  have hplus : Spells (some (.word id)) [.plus] (Token.plus.text.toList ++ []) :=
    .cons hlexical hgap (.nil (List.forall_mem_nil _))
  exact parse_of_spells h hplus String.toList_append rfl rfl

/-- What is mentioned is itself the expression of one license. -/
theorem parse_of_mentions (h : Mentions text id) : parse id = .ok (.license ⟨id, false⟩) :=
  parse_of_isIdentifier (isIdentifier_of_mentions h)

/-- Such an expression mentions nothing else. -/
theorem mentions_iff (h : parse id = .ok (.license ⟨id, false⟩)) {other : String} :
    Mentions id other ↔ other = id := by
  simp [Mentions, h, atoms, License.atom, eq_comm]

theorem ne_empty_of_parse (h : parse text = .ok e) : text ≠ "" := by
  intro hempty
  have hnone : parse "" = .error ⟨.empty, 0⟩ := by decide +kernel
  rw [hempty, hnone] at h
  cases h

/-- The characters that an expression is written in. -/
def isExpressionChar (c : Char) : Bool :=
  isWordChar c || isBlank c || c == '(' || c == ')' || c == '+'

theorem Token.IsLexical.isExpressionChar {t : Token} (ht : t.IsLexical) :
    ∀ c ∈ t.text.toList, isExpressionChar c = true := by
  cases hword : t.isWord with
  | true =>
      obtain ⟨c, cs, htext, hc, hcs⟩ := exists_text_of_isWord ht hword
      rw [htext, List.forall_mem_cons]
      refine ⟨by simp [Expression.isExpressionChar, isWordChar_of_isIdStart hc], fun d hd => ?_⟩
      simp [Expression.isExpressionChar, hcs d hd]
  | false =>
      cases t with
      | opening => simp [Token.text, Expression.isExpressionChar]
      | closing => simp [Token.text, Expression.isExpressionChar]
      | plus => simp [Token.text, Expression.isExpressionChar]
      | _ => cases hword

theorem isExpressionChar_of_spells {cs : List Char} (h : Spells before ts cs) :
    ∀ c ∈ cs, isExpressionChar c = true := by
  have hblank {gap : List Char} (hgap : ∀ c ∈ gap, isBlank c = true) :
      ∀ c ∈ gap, isExpressionChar c = true := by
    intro c hc
    simp [isExpressionChar, hgap c hc]
  induction h with
  | nil hgap => exact hblank hgap
  | cons hlexical hgap hrest ih =>
      rw [List.forall_mem_append, List.forall_mem_append]
      exact ⟨hblank hgap.blank, hlexical.isExpressionChar, ih⟩

theorem isExpressionChar_of_parse (h : parse text = .ok e) :
    ∀ c ∈ text.toList, isExpressionChar c = true := by
  obtain ⟨ts, -, hspells⟩ := renders_of_parse h
  exact isExpressionChar_of_spells hspells

/-- No expression has a slash in it. -/
theorem no_slash_of_parse (h : parse text = .ok e) : '/' ∉ text.toList :=
  fun hmem => absurd (isExpressionChar_of_parse h '/' hmem) (by decide)

end LicenseAudit.Expression
