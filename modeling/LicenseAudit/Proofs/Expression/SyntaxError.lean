import LicenseAudit.Proofs.Expression.Grammar

/-!
# Where a syntax error shows

Tokens are **viable** when an accepted text begins with them.  Every reading
that can be reached is viable (`Reading.exists_completion`): an operand or an
exception may still follow where one is due, and then all groups can be
closed.  A token that cannot be read makes all that begins with it
unacceptable.  So a text is refused at the first token that no accepted text
has at its place, or at the end, when it could have gone on
(`position_of_parse_eq_error`).
-/

namespace LicenseAudit.Expression

open Text

/-- Tokens are **accepted** when they are those of a text that is read as an
expression. -/
def IsAccepted (ts : List Token) : Prop :=
  ∃ text e, Spells none ts text.toList ∧ parse text = .ok e

/-- Tokens are **viable** when further tokens make them accepted. -/
def IsViable (ts : List Token) : Prop :=
  ∃ us, IsAccepted (ts ++ us)

variable {before : Option Token} {ts us : List Token} {cs : List Char}

/-- The first of the tokens that a text spells are spelled by a text. -/
theorem Spells.exists_of_append (h : Spells before (ts ++ us) cs) :
    ∃ cs', Spells before ts cs' := by
  induction ts generalizing before cs with
  | nil => exact ⟨[], .nil (List.forall_mem_nil _)⟩
  | cons t ts ih =>
      cases h with
      | cons hlexical hgap hrest =>
          obtain ⟨cs', hcs'⟩ := ih hrest
          exact ⟨_, .cons hlexical hgap hcs'⟩

/-- A token that is no plus sign may stand behind blanks anywhere. -/
theorem Separates.of_blank {t : Token} {gap : List Char} (ht : t ≠ .plus)
    (hblank : ∀ c ∈ gap, isBlank c = true) (hgap : gap ≠ []) : Separates before t gap :=
  ⟨hblank, fun _ _ => hgap, fun h => absurd h ht⟩

/-- Tokens other than plus signs can be spelled behind any tokens that are
spelled. -/
theorem Spells.exists_append (h : Spells before ts cs)
    (hus : ∀ u ∈ us, u.IsLexical ∧ u ≠ .plus) : ∃ cs', Spells before (ts ++ us) cs' := by
  induction h with
  | @nil before gap hgap =>
      induction us generalizing before with
      | nil => exact ⟨gap, .nil hgap⟩
      | cons u us ih =>
          obtain ⟨hlexical, hplus⟩ := hus u List.mem_cons_self
          obtain ⟨cs', hcs'⟩ := @ih (fun v hv => hus v (List.mem_cons_of_mem u hv)) (some u)
          have hgap : Separates before u [' '] :=
            .of_blank hplus (by simp [isBlank]) (List.cons_ne_nil _ _)
          exact ⟨_, .cons hlexical hgap hcs'⟩
  | cons hlexical hgap _ ih =>
      obtain ⟨cs', hcs'⟩ := ih
      exact ⟨_, .cons hlexical hgap hcs'⟩

/-- After an operand all open groups can be closed. -/
theorem Reading.exists_closed (group : Group) (outer : List Group) (ending : Ending)
    {e : Expression} (h : ending.operand? = some e) :
    ∃ s e', (Reading.mk group outer ending).follow (.replicate outer.length .closing) = .ok s ∧
      s.conclude = .ok e' := by
  induction outer generalizing group ending e with
  | nil => exact ⟨_, _, rfl, conclude_eq_ok h⟩
  | cons g outer ih =>
      obtain ⟨s, e', hfollow, hconclude⟩ := ih g (.primary (group.whole e)) rfl
      refine ⟨s, e', ?_, hconclude⟩
      rw [List.length_cons, List.replicate_succ, follow, advance_closing h]
      exact hfollow

/-- A word that may stand for a license or an exception. -/
theorem isIdentifier_x : IsIdentifier "x" where
  start := ⟨'x', [], rfl, by decide⟩
  chars := by simp [isWordChar, isIdStart]
  reference := fun h => absurd h (by decide)
  not_keyword := by decide
  not_reserved := by decide

/-- **Every reading can be completed** by tokens other than plus signs. -/
theorem Reading.exists_completion (r : Reading) :
    ∃ us s e, (∀ u ∈ us, u.IsLexical ∧ u ≠ .plus) ∧ r.follow us = .ok s ∧ s.conclude = .ok e := by
  obtain ⟨group, outer, ending⟩ := r
  have hclosing : ∀ u ∈ List.replicate outer.length Token.closing, u.IsLexical ∧ u ≠ .plus := by
    intro u hu
    obtain rfl := List.eq_of_mem_replicate hu
    exact ⟨trivial, nofun⟩
  have hword : ∀ u ∈ Token.word "x" :: List.replicate outer.length Token.closing,
      u.IsLexical ∧ u ≠ .plus := List.forall_mem_cons.2 ⟨⟨isIdentifier_x, nofun⟩, hclosing⟩
  -- Where no operand stands yet, an identifier makes one.
  cases ending with
  | operator =>
      obtain ⟨s, e, hfollow, hconclude⟩ :=
        exists_closed group outer (.word "x") rfl
      exact ⟨_, s, e, hword, hfollow, hconclude⟩
  | awaiting l =>
      obtain ⟨s, e, hfollow, hconclude⟩ :=
        exists_closed group outer (.attached (.withException l "x")) rfl
      exact ⟨_, s, e, hword, hfollow, hconclude⟩
  | word id =>
      obtain ⟨s, e, hfollow, hconclude⟩ :=
        exists_closed group outer (.word id) rfl
      exact ⟨_, s, e, hclosing, hfollow, hconclude⟩
  | primary e =>
      obtain ⟨s, e, hfollow, hconclude⟩ :=
        exists_closed group outer (.primary e) rfl
      exact ⟨_, s, e, hclosing, hfollow, hconclude⟩
  | attached e =>
      obtain ⟨s, e, hfollow, hconclude⟩ :=
        exists_closed group outer (.attached e) rfl
      exact ⟨_, s, e, hclosing, hfollow, hconclude⟩

theorem Reading.follow_append_of_error {r : Reading} {fault : Fault}
    (h : r.follow ts = .error fault) (us : List Token) : r.follow (ts ++ us) = .error fault := by
  induction ts generalizing r with
  | nil => cases h
  | cons t ts ih =>
      simp only [List.cons_append, follow] at h ⊢
      cases hstep : r.advance t with
      | error fault' => simpa only [hstep] using h
      | ok r' =>
          simp only [hstep] at h ⊢
          exact ih h

/-- Tokens are accepted when a text spells them and they are read to their
end. -/
theorem isAccepted_iff :
    IsAccepted ts ↔ (∃ cs, Spells none ts cs) ∧
      ∃ s e, Reading.start.follow ts = .ok s ∧ s.conclude = .ok e := by
  constructor
  · rintro ⟨text, e, hspells, hparse⟩
    obtain ⟨ps, s, hps, hfollow, hconclude⟩ := parse_eq_ok_iff.1 hparse
    obtain ⟨ps', hps', rfl⟩ := spells_iff.1 hspells
    obtain rfl : ps' = ps := Except.ok.inj (hps'.symm.trans hps)
    exact ⟨⟨_, hspells⟩, s, e, hfollow, hconclude⟩
  · rintro ⟨⟨cs, hspells⟩, s, e, hfollow, hconclude⟩
    obtain ⟨ps, hps, rfl⟩ := spells_iff.1 hspells
    have htext : (String.ofList cs).toList = cs := String.toList_ofList
    refine ⟨String.ofList cs, e, ?_, parse_eq_ok_iff.2 ⟨ps, s, ?_, hfollow, hconclude⟩⟩
    · rwa [htext]
    · rwa [htext]

/-- Tokens that are read without a fault are viable. -/
theorem isViable_of_follow {s : Reading} (hspells : Spells none ts cs)
    (h : Reading.start.follow ts = .ok s) : IsViable ts := by
  obtain ⟨us, s', e, hus, hfollow, hconclude⟩ := s.exists_completion
  refine ⟨us, isAccepted_iff.2 ⟨hspells.exists_append hus, s', e, ?_, hconclude⟩⟩
  rw [Reading.follow_append h, hfollow]

/-- Tokens that are not read are not viable. -/
theorem not_isViable_of_follow {fault : Fault} (h : Reading.start.follow ts = .error fault) :
    ¬ IsViable ts := by
  rintro ⟨us, haccepted⟩
  obtain ⟨-, s, e, hfollow, -⟩ := isAccepted_iff.1 haccepted
  rw [Reading.follow_append_of_error h us] at hfollow
  cases hfollow

/-- A fault shows at the token that cannot be read, or at the end. -/
theorem Reading.exists_of_run_eq_error {size : Nat} {r : Reading} {ps : List Placed}
    {err : SyntaxError} (h : r.run size ps = .error err) :
    (∃ before p after s fault, ps = before ++ p :: after ∧ err.position = p.position ∧
        r.follow (before.map Placed.token) = .ok s ∧ s.advance p.token = .error fault) ∨
      ∃ s fault, err.position = size ∧ r.follow (ps.map Placed.token) = .ok s ∧
        s.conclude = .error fault := by
  induction ps generalizing r with
  | nil =>
      rw [run] at h
      cases hconclude : r.conclude with
      | ok e => simp [hconclude, Except.mapError] at h
      | error fault =>
          rw [hconclude] at h
          obtain rfl := Except.error.inj h
          exact .inr ⟨r, fault, rfl, rfl, hconclude⟩
  | cons p ps ih =>
      rw [run] at h
      cases hstep : r.advance p.token with
      | error fault =>
          rw [hstep] at h
          obtain rfl := Except.error.inj h
          exact .inl ⟨[], p, ps, r, fault, rfl, rfl, rfl, hstep⟩
      | ok r' =>
          rw [hstep] at h
          have hfollow (ts : List Token) : r.follow (p.token :: ts) = r'.follow ts := by
            rw [follow, hstep]
          rcases ih h with ⟨before, q, after, s, fault, rfl, hposition, hread, hfault⟩ |
            ⟨s, fault, hposition, hread, hfault⟩
          · refine .inl ⟨p :: before, q, after, s, fault, rfl, hposition, ?_, hfault⟩
            rw [List.map_cons, hfollow, hread]
          · refine .inr ⟨s, fault, hposition, ?_, hfault⟩
            rw [List.map_cons, hfollow, hread]

/-- **A syntax error is located exactly.**  A text that has tokens and is no
expression is refused at the position of a token such that those before it can
be extended to an expression and with it they cannot, or at its end, when its
tokens can be extended but are no expression. -/
theorem position_of_parse_eq_error {text : String} {ps : List Placed} {err : SyntaxError}
    (htokens : tokens text.toList = .ok ps) (hne : ps ≠ []) (h : parse text = .error err) :
    (∃ before p after, ps = before ++ p :: after ∧ err.position = p.position ∧
        IsViable (before.map Placed.token) ∧ ¬ IsViable ((before ++ [p]).map Placed.token)) ∨
      (err.position = Text.size text.toList ∧ IsViable (ps.map Placed.token) ∧
        ¬ IsAccepted (ps.map Placed.token)) := by
  have hspells : Spells none (ps.map Placed.token) text.toList := spells_iff.2 ⟨ps, htokens, rfl⟩
  have hrun : Reading.start.run (Text.size text.toList) ps = .error err := by
    obtain ⟨p, ps', rfl⟩ := List.exists_cons_of_ne_nil hne
    rw [parse, htokens] at h
    exact h
  rcases Reading.exists_of_run_eq_error hrun with
    ⟨before, p, after, s, fault, rfl, hposition, hread, hfault⟩ | ⟨s, fault, hposition, hread, hfault⟩
  · have hstop : Reading.start.follow ((before ++ [p]).map Placed.token) = .error fault := by
      rw [List.map_append, Reading.follow_append hread]
      simp only [List.map_cons, List.map_nil, Reading.follow, hfault]
    rw [List.map_append] at hspells
    obtain ⟨cs, hcs⟩ := hspells.exists_of_append
    exact .inl ⟨before, p, after, rfl, hposition, isViable_of_follow hcs hread,
      not_isViable_of_follow hstop⟩
  · refine .inr ⟨hposition, isViable_of_follow hspells hread, fun haccepted => ?_⟩
    obtain ⟨-, s', e, hread', hconclude⟩ := isAccepted_iff.1 haccepted
    obtain rfl : s' = s := Except.ok.inj (hread'.symm.trans hread)
    cases hfault.symm.trans hconclude

/-- An exception may not follow a group. -/
theorem position_of_exception_to_group :
    let text := "(a OR b) WITH c"
    let ps : List Placed :=
      [⟨.opening, 0⟩, ⟨.word "a", 1⟩, ⟨.or, 3⟩, ⟨.word "b", 6⟩, ⟨.closing, 7⟩, ⟨.with, 9⟩,
        ⟨.word "c", 14⟩]
    let err : SyntaxError := ⟨.exceptionToGroup, 9⟩
    tokens text.toList = .ok ps ∧ ps ≠ [] ∧ parse text = .error err ∧
      ((∃ before p after, ps = before ++ p :: after ∧ err.position = p.position ∧
        IsViable (before.map Placed.token) ∧ ¬ IsViable ((before ++ [p]).map Placed.token)) ∨
      (err.position = Text.size text.toList ∧ IsViable (ps.map Placed.token) ∧
        ¬ IsAccepted (ps.map Placed.token))) := by
  intro text ps err
  have htokens : tokens text.toList = .ok ps := by decide +kernel
  have hne : ps ≠ [] := List.cons_ne_nil _ _
  have hparse : parse text = .error err := by decide +kernel
  exact ⟨htokens, hne, hparse, position_of_parse_eq_error htokens hne hparse⟩

end LicenseAudit.Expression
