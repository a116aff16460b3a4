import LicenseAudit.Expression.Reading
import LicenseAudit.Proofs.Expression.Spelling

/-!
# The grammar of expressions

`Derives` is the grammar on tokens.  A disjunction is made of conjunctions,
a conjunction of operands, both grouping to the left; an operand is a
primary, or a single license with an exception; and a primary is an
identifier, perhaps with a plus sign, or a disjunction in parentheses.

A reading stands for the tokens read so far: `Holds` says which
derivations it has gathered.  Every step keeps that (`holds_advance`), so
a text is read only as what it derives; and every derivation can be
followed (`follow_derives`), so nothing that can be derived is refused.
`parse_eq_ok_iff_renders` puts both together with the spelling of tokens.
-/

namespace LicenseAudit.Expression

/-- The levels of the grammar, from the innermost. -/
inductive Level where
  | primary
  | operand
  | conjunction
  | disjunction

/-- Tokens **derive** an expression at a level of the grammar. -/
inductive Derives : Level → List Token → Expression → Prop
  | word (id : String) : Derives .primary [.word id] (.license ⟨id, false⟩)
  | later (id : String) : Derives .primary [.word id, .plus] (.license ⟨id, true⟩)
  | group {ts : List Token} {e : Expression} (h : Derives .disjunction ts e) :
      Derives .primary (.opening :: (ts ++ [.closing])) e
  | primary {ts : List Token} {e : Expression} (h : Derives .primary ts e) :
      Derives .operand ts e
  | exception {ts : List Token} {l : License} (h : Derives .primary ts (.license l))
      (id : String) : Derives .operand (ts ++ [.with, .word id]) (.withException l id)
  | operand {ts : List Token} {e : Expression} (h : Derives .operand ts e) :
      Derives .conjunction ts e
  | both {ts us : List Token} {a b : Expression} (ha : Derives .conjunction ts a)
      (hb : Derives .operand us b) : Derives .conjunction (ts ++ .and :: us) (.both a b)
  | conjunction {ts : List Token} {e : Expression} (h : Derives .conjunction ts e) :
      Derives .disjunction ts e
  | either {ts us : List Token} {a b : Expression} (ha : Derives .disjunction ts a)
      (hb : Derives .conjunction us b) : Derives .disjunction (ts ++ .or :: us) (.either a b)

/-- The reading after several tokens. -/
def Reading.follow (r : Reading) : List Token → Except Fault Reading
  | [] => .ok r
  | t :: ts =>
    match r.advance t with
    | .ok r' => r'.follow ts
    | .error fault => .error fault

theorem Reading.follow_append {r s : Reading} {ts : List Token} (h : r.follow ts = .ok s)
    (us : List Token) : r.follow (ts ++ us) = s.follow us := by
  induction ts generalizing r with
  | nil =>
      cases h
      rfl
  | cons t ts ih =>
      simp only [List.cons_append, Reading.follow] at h ⊢
      cases hstep : r.advance t with
      | error fault => simp [hstep] at h
      | ok r' =>
          simp only [hstep] at h ⊢
          exact ih h

/-- Placed tokens are read to their end exactly if the tokens can be
followed and concluded. -/
theorem Reading.run_eq_ok_iff {size : Nat} {r : Reading} {ps : List Placed} {e : Expression} :
    r.run size ps = .ok e ↔
      ∃ s, r.follow (ps.map Placed.token) = .ok s ∧ s.conclude = .ok e := by
  induction ps generalizing r with
  | nil =>
      simp only [Reading.run, List.map_nil, Reading.follow, Except.ok.injEq, exists_eq_left']
      cases r.conclude with
      | error fault => simp [Except.mapError]
      | ok e' => simp [Except.mapError]
  | cons p ps ih =>
      simp only [Reading.run, List.map_cons, Reading.follow]
      cases r.advance p.token with
      | error fault => simp
      | ok r' => exact ih

/-- An ending that is an operand to which an exception may be attached. -/
def Ending.IsPrimary (ending : Ending) (e : Expression) : Prop :=
  ending = .primary e ∨ ∃ id, ending = .word id ∧ e = .license ⟨id, false⟩

theorem Ending.IsPrimary.operand?_eq {ending : Ending} {e : Expression}
    (h : ending.IsPrimary e) : ending.operand? = some e := by
  rcases h with rfl | ⟨id, rfl, rfl⟩ <;> rfl

variable {group : Group} {outer : List Group} {ending : Ending} {e : Expression}

theorem advance_and (h : ending.operand? = some e) :
    (Reading.mk group outer ending).advance .and =
      .ok ⟨⟨group.alternatives, some (group.conjoin e)⟩, outer, .operator⟩ := by
  cases ending <;> cases h <;> rfl

theorem advance_or (h : ending.operand? = some e) :
    (Reading.mk group outer ending).advance .or =
      .ok ⟨⟨some (group.whole e), none⟩, outer, .operator⟩ := by
  cases ending <;> cases h <;> rfl

theorem advance_closing (h : ending.operand? = some e) (around : Group) :
    (Reading.mk group (around :: outer) ending).advance .closing =
      .ok ⟨around, outer, .primary (group.whole e)⟩ := by
  cases ending <;> cases h <;> rfl

theorem advance_with {l : License} (h : ending.IsPrimary (.license l)) :
    (Reading.mk group outer ending).advance .with = .ok ⟨group, outer, .awaiting l⟩ := by
  rcases h with rfl | ⟨id, rfl, he⟩
  · rfl
  · cases he
    rfl

theorem conclude_eq_ok (h : ending.operand? = some e) :
    (Reading.mk group [] ending).conclude = .ok (group.whole e) := by
  cases ending <;> cases h <;> rfl

/-- What following the tokens of a derivation leads to, level by level: the
innermost group has gathered what was derived, and all else is as it
was. -/
def Followed : Level → List Token → Expression → Prop
  | .primary, ts, e => ∀ group outer, ∃ ending,
      (Reading.mk group outer .operator).follow ts = .ok ⟨group, outer, ending⟩ ∧
        ending.IsPrimary e
  | .operand, ts, e => ∀ group outer, ∃ ending,
      (Reading.mk group outer .operator).follow ts = .ok ⟨group, outer, ending⟩ ∧
        ending.operand? = some e
  | .conjunction, ts, e => ∀ alternatives outer, ∃ conjuncts ending last,
      (Reading.mk ⟨alternatives, none⟩ outer .operator).follow ts =
          .ok ⟨⟨alternatives, conjuncts⟩, outer, ending⟩ ∧
        ending.operand? = some last ∧ Group.conjoin ⟨alternatives, conjuncts⟩ last = e
  | .disjunction, ts, e => ∀ outer, ∃ group ending last,
      (Reading.mk .new outer .operator).follow ts = .ok ⟨group, outer, ending⟩ ∧
        ending.operand? = some last ∧ group.whole last = e

/-- Every derivation can be followed. -/
theorem follow_derives {level : Level} {ts : List Token} {e : Expression}
    (h : Derives level ts e) : Followed level ts e := by
  induction h with
  | word id => exact fun group outer => ⟨.word id, rfl, .inr ⟨id, rfl, rfl⟩⟩
  | later id => exact fun group outer => ⟨.primary _, rfl, .inl rfl⟩
  | @group ts e h ih =>
      intro group outer
      obtain ⟨inner, ending, last, hfollow, hlast, rfl⟩ := ih (group :: outer)
      refine ⟨.primary (inner.whole last), ?_, .inl rfl⟩
      have hopen : (Reading.mk group outer .operator).follow (.opening :: (ts ++ [.closing])) =
          (Reading.mk .new (group :: outer) .operator).follow (ts ++ [.closing]) := rfl
      rw [hopen, Reading.follow_append hfollow]
      simp only [Reading.follow, advance_closing hlast]
  | primary h ih =>
      intro group outer
      obtain ⟨ending, hfollow, hending⟩ := ih group outer
      exact ⟨ending, hfollow, hending.operand?_eq⟩
  | @exception ts l h id ih =>
      intro group outer
      obtain ⟨ending, hfollow, hending⟩ := ih group outer
      refine ⟨.attached (.withException l id), ?_, rfl⟩
      rw [Reading.follow_append hfollow]
      simp only [Reading.follow, advance_with hending]
      rfl
  | operand h ih =>
      intro alternatives outer
      obtain ⟨ending, hfollow, hending⟩ := ih ⟨alternatives, none⟩ outer
      exact ⟨none, ending, _, hfollow, hending, rfl⟩
  | @both ts us a b ha hb iha ihb =>
      intro alternatives outer
      obtain ⟨conjuncts, ending, last, hfollow, hlast, rfl⟩ := iha alternatives outer
      obtain ⟨ending', hfollow', hending'⟩ :=
        ihb ⟨alternatives, some (Group.conjoin ⟨alternatives, conjuncts⟩ last)⟩ outer
      refine ⟨some (Group.conjoin ⟨alternatives, conjuncts⟩ last), ending', b, ?_, hending', rfl⟩
      rw [Reading.follow_append hfollow]
      simp only [Reading.follow, advance_and hlast]
      exact hfollow'
  | conjunction h ih =>
      intro outer
      obtain ⟨conjuncts, ending, last, hfollow, hlast, hwhole⟩ := ih none outer
      exact ⟨⟨none, conjuncts⟩, ending, last, hfollow, hlast, hwhole⟩
  | @either ts us a b ha hb iha ihb =>
      intro outer
      obtain ⟨group, ending, last, hfollow, hlast, rfl⟩ := iha outer
      obtain ⟨conjuncts, ending', last', hfollow', hlast', rfl⟩ :=
        ihb (some (group.whole last)) outer
      refine ⟨⟨some (group.whole last), conjuncts⟩, ending', last', ?_, hlast', rfl⟩
      rw [Reading.follow_append hfollow]
      simp only [Reading.follow, advance_or hlast]
      exact hfollow'

/-- The tokens at the end of what has been read. -/
def Ending.Holds : Ending → List Token → Prop
  | .operator, ts => ts = []
  | .word id, ts => ts = [.word id]
  | .primary e, ts => Derives .primary ts e
  | .awaiting l, ts => ∃ us, ts = us ++ [.with] ∧ Derives .primary us (.license l)
  | .attached e, ts => Derives .operand ts e

/-- The tokens of the alternatives of a group, with the `OR` after them. -/
def AlternativesHold : Option Expression → List Token → Prop
  | none, ts => ts = []
  | some e, ts => ∃ us, ts = us ++ [.or] ∧ Derives .disjunction us e

/-- The tokens of the conjuncts of a group, with the `AND` after them. -/
def ConjunctsHold : Option Expression → List Token → Prop
  | none, ts => ts = []
  | some e, ts => ∃ us, ts = us ++ [.and] ∧ Derives .conjunction us e

/-- The tokens of a group up to its ending. -/
def Group.Holds (g : Group) (ts : List Token) : Prop :=
  ∃ us vs, ts = us ++ vs ∧ AlternativesHold g.alternatives us ∧ ConjunctsHold g.conjuncts vs

/-- The tokens of the groups that are open around the innermost one. -/
def OuterHold : List Group → List Token → Prop
  | [], ts => ts = []
  | g :: outer, ts => ∃ us vs, ts = us ++ (vs ++ [.opening]) ∧ OuterHold outer us ∧ g.Holds vs

/-- A reading **holds** the tokens that it has gathered into derivations. -/
def Reading.Holds (r : Reading) (ts : List Token) : Prop :=
  ∃ us vs ws, ts = us ++ (vs ++ ws) ∧ OuterHold r.outer us ∧ r.group.Holds vs ∧ r.ending.Holds ws

variable {ts us vs ws : List Token}

theorem Ending.Holds.operand (h : ending.Holds ws) (he : ending.operand? = some e) :
    Derives .operand ws e := by
  cases ending with
  | word id =>
      obtain rfl : ws = [.word id] := h
      cases he
      exact .primary (.word id)
  | primary e' =>
      cases he
      exact .primary h
  | attached e' =>
      cases he
      exact h
  | operator => cases he
  | awaiting l => cases he

theorem conjoin_derives (h : ConjunctsHold group.conjuncts vs) (he : Derives .operand ws e) :
    Derives .conjunction (vs ++ ws) (group.conjoin e) := by
  obtain ⟨alternatives, conjuncts⟩ := group
  cases conjuncts with
  | none =>
      obtain rfl : vs = [] := h
      exact .operand he
  | some left =>
      obtain ⟨us, rfl, hleft⟩ := h
      have hboth := hleft.both he
      rwa [List.append_cons] at hboth

/-- A group with one more operand is derived by its tokens. -/
theorem Group.Holds.whole (h : group.Holds vs) (he : Derives .operand ws e) :
    Derives .disjunction (vs ++ ws) (group.whole e) := by
  obtain ⟨as, cs, rfl, has, hcs⟩ := h
  have hright := conjoin_derives hcs he
  obtain ⟨alternatives, conjuncts⟩ := group
  cases alternatives with
  | none =>
      obtain rfl : as = [] := has
      exact .conjunction hright
  | some left =>
      obtain ⟨us, rfl, hleft⟩ := has
      have heither := hleft.either hright
      rwa [List.append_cons, ← List.append_assoc] at heither

theorem Group.Holds.and (h : group.Holds vs) (he : Derives .operand ws e) :
    (Group.mk group.alternatives (some (group.conjoin e))).Holds (vs ++ ws ++ [.and]) := by
  obtain ⟨as, cs, rfl, has, hcs⟩ := h
  exact ⟨as, cs ++ ws ++ [.and], by simp, has, cs ++ ws, rfl, conjoin_derives hcs he⟩

theorem Group.Holds.or (h : group.Holds vs) (he : Derives .operand ws e) :
    (Group.mk (some (group.whole e)) none).Holds (vs ++ ws ++ [.or]) :=
  ⟨vs ++ ws ++ [.or], [], by simp, ⟨vs ++ ws, rfl, h.whole he⟩, rfl⟩

/-- Going on after an operand keeps what a reading holds. -/
theorem holds_continue {r r' : Reading} {t : Token} (hus : OuterHold r.outer us)
    (hvs : r.group.Holds vs) (hws : Derives .operand ws e) (h : r.continue e t = .ok r') :
    r'.Holds (us ++ (vs ++ ws) ++ [t]) := by
  cases t with
  | and =>
      cases h
      exact ⟨us, vs ++ ws ++ [.and], [], by simp, hus, hvs.and hws, rfl⟩
  | or =>
      cases h
      exact ⟨us, vs ++ ws ++ [.or], [], by simp, hus, hvs.or hws, rfl⟩
  | closing =>
      obtain ⟨group, outer, ending⟩ := r
      cases outer with
      | nil => cases h
      | cons g outer =>
          cases h
          obtain ⟨as, bs, rfl, has, hbs⟩ := hus
          exact ⟨as, bs, Token.opening :: (vs ++ ws ++ [Token.closing]), by simp, has, hbs,
            Derives.group (hvs.whole hws)⟩
  | word id => cases h
  | reserved text => cases h
  | «with» => cases h
  | opening => cases h
  | plus => cases h

/-- Announcing an exception keeps what a reading holds. -/
theorem holds_announce {r r' : Reading} (hus : OuterHold r.outer us) (hvs : r.group.Holds vs)
    (hws : Derives .primary ws e) (h : r.announce e = .ok r') :
    r'.Holds (us ++ (vs ++ ws) ++ [.with]) := by
  cases e with
  | license l =>
      cases h
      exact ⟨us, vs, ws ++ [.with], by simp, hus, hvs, ws, rfl, hws⟩
  | withException l id => cases h
  | both left right => cases h
  | either left right => cases h

/-- **One token further a reading holds one token more.** -/
theorem holds_advance {r r' : Reading} {t : Token} (hr : r.Holds ts)
    (h : r.advance t = .ok r') : r'.Holds (ts ++ [t]) := by
  obtain ⟨us, vs, ws, rfl, hus, hvs, hws⟩ := hr
  obtain ⟨group, outer, ending⟩ := r
  -- The ending decides which tokens may come next; all others are refused.
  cases ending with
  | operator =>
      obtain rfl : ws = [] := hws
      cases t with
      | word id =>
          cases h
          exact ⟨us, vs, [.word id], by simp, hus, hvs, rfl⟩
      | opening =>
          cases h
          exact ⟨us ++ (vs ++ [.opening]), [], [], by simp, ⟨us, vs, rfl, hus, hvs⟩,
            ⟨[], [], rfl, rfl, rfl⟩, rfl⟩
      | _ => cases h
  | word id =>
      obtain rfl : ws = [.word id] := hws
      have hword : Derives .primary [.word id] (.license ⟨id, false⟩) := .word id
      cases t with
      | plus =>
          cases h
          exact ⟨us, vs, [.word id, .plus], by simp, hus, hvs, .later id⟩
      | «with» => exact holds_announce hus hvs hword h
      | _ => exact holds_continue hus hvs hword.primary h
  | primary e =>
      cases t with
      | «with» => exact holds_announce hus hvs hws h
      | _ => exact holds_continue hus hvs (Derives.primary hws) h
  | awaiting l =>
      obtain ⟨xs, rfl, hl⟩ := hws
      cases t with
      | word id =>
          cases h
          exact ⟨us, vs, xs ++ [Token.with, Token.word id], by simp, hus, hvs, hl.exception id⟩
      | _ => cases h
  | attached e => exact holds_continue hus hvs hws h

/-- A reading that has followed tokens holds them. -/
theorem holds_follow {r s : Reading} (hr : r.Holds ts) (h : r.follow us = .ok s) :
    s.Holds (ts ++ us) := by
  induction us generalizing r ts with
  | nil =>
      cases h
      simpa using hr
  | cons u us ih =>
      simp only [Reading.follow] at h
      cases hstep : r.advance u with
      | error fault => simp [hstep] at h
      | ok r' =>
          simp only [hstep] at h
          simpa using ih (holds_advance hr hstep) h

/-- A reading is concluded after an operand and outside every group. -/
theorem exists_operand_of_conclude {r : Reading} (h : r.conclude = .ok e) :
    ∃ last, r.ending.operand? = some last ∧ r.outer = [] ∧ r.group.whole last = e := by
  obtain ⟨group, outer, ending⟩ := r
  cases outer with
  | nil =>
      cases ending with
      | operator => cases h
      | awaiting l => cases h
      | word id => exact ⟨_, rfl, rfl, Except.ok.inj h⟩
      | primary e => exact ⟨_, rfl, rfl, Except.ok.inj h⟩
      | attached e => exact ⟨_, rfl, rfl, Except.ok.inj h⟩
  | cons g outer => cases ending <;> cases h

/-- What a reading is concluded to be is derived by the tokens it holds. -/
theorem derives_of_conclude {r : Reading} (hr : r.Holds ts) (h : r.conclude = .ok e) :
    Derives .disjunction ts e := by
  obtain ⟨us, vs, ws, rfl, hus, hvs, hws⟩ := hr
  obtain ⟨last, hlast, houter, rfl⟩ := exists_operand_of_conclude h
  rw [houter] at hus
  obtain rfl : us = [] := hus
  exact hvs.whole (hws.operand hlast)

/-- A text **renders** an expression when it spells tokens that derive
it. -/
def Renders (text : String) (e : Expression) : Prop :=
  ∃ ts, Derives .disjunction ts e ∧ Spells none ts text.toList

theorem parse_eq_ok_iff {text : String} :
    parse text = .ok e ↔ ∃ ps s, tokens text.toList = .ok ps ∧
      Reading.start.follow (ps.map Placed.token) = .ok s ∧ s.conclude = .ok e := by
  unfold parse
  cases htokens : tokens text.toList with
  | error fault => simp
  | ok ps =>
      cases ps with
      | nil =>
          refine iff_of_false (by simp) ?_
          rintro ⟨ps, s, hps, hfollow, hconclude⟩
          cases hps
          cases hfollow
          cases hconclude
      | cons p ps => simp [Reading.run_eq_ok_iff]

/-- **A text is read as an expression exactly if it renders it**, and it
renders no other. -/
theorem parse_eq_ok_iff_renders (text : String) (e : Expression) :
    (parse text = .ok e ↔ Renders text e) ∧
      ∀ e', Renders text e ∧ Renders text e' → e' = e := by
  have hiff (e : Expression) : parse text = .ok e ↔ Renders text e := by
    rw [parse_eq_ok_iff]
    constructor
    · rintro ⟨ps, s, hps, hfollow, hconclude⟩
      have hstart : Reading.start.Holds [] := ⟨[], [], [], rfl, rfl, ⟨[], [], rfl, rfl, rfl⟩, rfl⟩
      exact ⟨_, derives_of_conclude (holds_follow hstart hfollow) hconclude,
        spells_iff.2 ⟨ps, hps, rfl⟩⟩
    · rintro ⟨ts, hderives, hspells⟩
      obtain ⟨ps, hps, rfl⟩ := spells_iff.1 hspells
      obtain ⟨group, ending, last, hfollow, hlast, rfl⟩ := follow_derives hderives []
      exact ⟨ps, _, hps, hfollow, conclude_eq_ok hlast⟩
  refine ⟨hiff e, fun e' ⟨h, h'⟩ => ?_⟩
  rw [← hiff] at h h'
  exact Except.ok.inj (h'.symm.trans h)

end LicenseAudit.Expression
