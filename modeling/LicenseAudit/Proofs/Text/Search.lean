import LicenseAudit.Text.Search
import Mathlib.Data.List.Basic

/-!
# First occurrences

Where `cut?` finds a mark in a text that is put together from parts.  A
mark in the first part is found there, whatever follows.  A mark whose
first character does not occur again in it cannot reach across the place
where another mark begins, so it is found in the one part or in the other.

Pieces that are put together end with the rest of a piece and all pieces after it
(`exists_joined_eq_append_iff`).

A **pattern** says which starts of a text it allows before which rests; what it
finds is the longest of them (`IsLongest`).
-/

namespace LicenseAudit.Text

variable {mark a b before rest : List Char}

theorem dropStart?_append_self (mark b : List Char) : dropStart? mark (mark ++ b) = some b :=
  dropStart?_eq_some_iff.2 rfl

/-- A text that is as long as the mark shows whether it begins with it. -/
theorem dropStart?_append_of_none (h : dropStart? mark a = none)
    (hlength : mark.length ≤ a.length) (b : List Char) : dropStart? mark (a ++ b) = none := by
  rw [Option.eq_none_iff_forall_ne_some] at h ⊢
  intro rest hrest
  rcases List.append_eq_append_iff.1 (dropStart?_eq_some_iff.1 hrest) with ⟨t, rfl, -⟩ | ⟨t, rfl, -⟩
  · have hnil : t = [] := by
      rw [List.length_append] at hlength
      exact List.eq_nil_of_length_eq_zero (by omega)
    exact h [] (dropStart?_eq_some_iff.2 (by simp [hnil]))
  · exact h t (dropStart?_eq_some_iff.2 rfl)

/-- What is found in a text is found there when more follows. -/
theorem cut?_append_of_some (h : cut? mark a = some (before, rest)) (b : List Char) :
    cut? mark (a ++ b) = some (before, rest ++ b) := by
  induction a generalizing before with
  | nil =>
      obtain ⟨rfl, rfl, rfl⟩ : before = [] ∧ mark = [] ∧ rest = [] := by
        simpa using eq_append_of_cut? h
      cases b <;> rfl
  | cons c cs ih =>
      rw [cut?] at h
      rw [List.cons_append, cut?]
      cases hstart : dropStart? mark (c :: cs) with
      | some r =>
          rw [hstart] at h
          cases h
          have hsplit : c :: (cs ++ b) = mark ++ (rest ++ b) := by
            rw [← List.append_assoc, ← dropStart?_eq_some_iff.1 hstart, List.cons_append]
          rw [dropStart?_eq_some_iff.2 hsplit]
      | none =>
          rw [hstart] at h
          obtain ⟨⟨before', rest'⟩, hcut, hpair⟩ := Option.map_eq_some_iff.1 h
          cases hpair
          have hlength : mark.length ≤ (c :: cs).length := by
            rw [eq_append_of_cut? hcut]
            simp only [List.length_cons, List.length_append]
            omega
          have hnone := dropStart?_append_of_none hstart hlength b
          rw [List.cons_append] at hnone
          rw [hnone, ih hcut]
          rfl

/-- What comes before the first occurrence of a mark is free of it. -/
theorem cut?_before_eq_none (hmark : mark ≠ []) (h : cut? mark a = some (before, rest)) :
    cut? mark before = none := by
  cases hcut : cut? mark before with
  | none => rfl
  | some parts =>
      -- An occurrence in what comes before would be found first.
      obtain ⟨b, r⟩ := parts
      have hfirst := cut?_append_of_some hcut (mark ++ rest)
      rw [← eq_append_of_cut? h, h] at hfirst
      have hrest : rest = r ++ (mark ++ rest) := congrArg Prod.snd (Option.some.inj hfirst)
      have hlength := congrArg List.length hrest
      have hpos := List.length_pos_iff.2 hmark
      simp only [List.length_append] at hlength
      omega

/-- A mark **stands apart** when its first character does not occur in it
again. -/
def StandsApart (first : Char) (mark : List Char) : Prop :=
  ∃ others, mark = first :: others ∧ first ∉ others

variable {first : Char}

theorem StandsApart.ne_nil (h : StandsApart first mark) : mark ≠ [] := by
  obtain ⟨others, rfl, -⟩ := h
  exact List.cons_ne_nil _ _

/-- Where its first character does not occur no mark begins. -/
theorem cut?_append_of_not_mem (hmark : StandsApart first mark) (ha : first ∉ a) (b : List Char) :
    cut? mark (a ++ b) = (cut? mark b).map fun (before, rest) => (a ++ before, rest) := by
  obtain ⟨others, rfl, hothers⟩ := hmark
  induction a with
  | nil => simp
  | cons c cs ih =>
      have hc : first ≠ c := fun he => ha (by simp [he])
      have hcs : first ∉ cs := fun hmem => ha (by simp [hmem])
      rw [List.cons_append, cut?]
      simp only [dropStart?, hc, if_false, ih hcs, Option.map_map]
      rfl

/-- A mark that does not occur in a text does not begin in it either, when
the text is followed by the first character of the mark. -/
theorem cut?_append_of_none (hmark : StandsApart first mark) (ha : cut? mark a = none)
    (b : List Char) : cut? mark (a ++ first :: b) =
      (cut? mark (first :: b)).map fun (before, rest) => (a ++ before, rest) := by
  obtain ⟨others, rfl, hothers⟩ := hmark
  induction a with
  | nil => simp
  | cons c cs ih =>
      rw [cut?] at ha
      cases hstart : dropStart? (first :: others) (c :: cs) with
      | some r =>
          rw [hstart] at ha
          cases ha
      | none =>
          rw [hstart] at ha
          have hcs : cut? (first :: others) cs = none := Option.map_eq_none_iff.1 ha
          have hnone : dropStart? (first :: others) (c :: (cs ++ first :: b)) = none := by
            rw [Option.eq_none_iff_forall_ne_some]
            intro rest hrest
            obtain ⟨hc, hsplit⟩ := List.cons.inj (dropStart?_eq_some_iff.1 hrest)
            rcases List.append_eq_append_iff.1 hsplit with ⟨t, hothers', ht⟩ | ⟨t, hcs', -⟩
            · cases t with
              | nil =>
                  have hfound : c :: cs = (first :: others) ++ [] := by
                    simp [hc, hothers']
                  rw [dropStart?_eq_some_iff.2 hfound] at hstart
                  cases hstart
              | cons d t =>
                  obtain ⟨rfl, -⟩ := List.cons.inj ht
                  exact hothers (by simp [hothers'])
            · have hfound : c :: cs = (first :: others) ++ t := by simp [hc, hcs']
              rw [dropStart?_eq_some_iff.2 hfound] at hstart
              cases hstart
          rw [List.cons_append, cut?, hnone, ih hcs, Option.map_map]
          rfl

theorem cut?_self_append (hmark : mark ≠ []) (b : List Char) :
    cut? mark (mark ++ b) = some ([], b) := by
  obtain ⟨c, cs, rfl⟩ := List.exists_cons_of_ne_nil hmark
  rw [List.cons_append, cut?, ← List.cons_append, dropStart?_append_self]

/-- The first occurrence of a mark is the one after a text without it. -/
theorem cut?_append_self (hmark : StandsApart first mark) (ha : cut? mark a = none)
    (b : List Char) : cut? mark (a ++ (mark ++ b)) = some (a, b) := by
  have hself := cut?_self_append hmark.ne_nil b
  obtain ⟨others, rfl, hothers⟩ := hmark
  rw [List.cons_append] at hself ⊢
  rw [cut?_append_of_none ⟨others, rfl, hothers⟩ ha, hself]
  simp

/-- A text without the separator is one piece. -/
theorem pieces_of_not_mem {separator : Char} (ha : separator ∉ a) : pieces separator a = [a] := by
  induction a with
  | nil => rfl
  | cons c cs ih =>
      have hc : c ≠ separator := fun he => ha (by simp [he])
      have hcs : separator ∉ cs := fun hmem => ha (by simp [hmem])
      rw [pieces, if_neg hc, ih hcs]

/-- The pieces of two texts with a separator between them are those of both. -/
theorem pieces_append (separator : Char) (a b : List Char) :
    pieces separator (a ++ separator :: b) = pieces separator a ++ pieces separator b := by
  induction a with
  | nil => simp [pieces]
  | cons c cs ih =>
      by_cases hc : c = separator
      · rw [List.cons_append, pieces, if_pos hc, ih, pieces, if_pos hc, List.cons_append]
      · obtain ⟨piece, rest, hpieces⟩ :=
          List.exists_cons_of_ne_nil (pieces_ne_nil separator cs)
        rw [List.cons_append, pieces, if_neg hc, ih, pieces, if_neg hc, hpieces]
        rfl

/-- The first piece ends at the first separator. -/
theorem pieces_append_cons {separator : Char} (ha : separator ∉ a) (b : List Char) :
    pieces separator (a ++ separator :: b) = a :: pieces separator b := by
  rw [pieces_append, pieces_of_not_mem ha, List.singleton_append]

/-- Two texts put together share the piece in which they meet. -/
theorem pieces_append_of_eq {separator : Char} {front back : List (List Char)}
    {x y : List Char} (ha : pieces separator a = front ++ [x])
    (hb : pieces separator b = y :: back) :
    pieces separator (a ++ b) = front ++ (x ++ y) :: back := by
  induction a generalizing front x with
  | nil =>
      have hsplit : [] ++ [[]] = front ++ [x] := ha
      obtain ⟨rfl, hx⟩ := List.append_inj' hsplit rfl
      rw [← List.singleton_inj.1 hx, List.nil_append, hb]
      rfl
  | cons c cs ih =>
      by_cases hc : c = separator
      · rw [pieces, if_pos hc] at ha
        cases front with
        | nil => exact absurd (List.cons.inj ha).2 (pieces_ne_nil separator cs)
        | cons piece front =>
            obtain ⟨rfl, hcs⟩ := List.cons.inj ha
            rw [List.cons_append, pieces, if_pos hc, ih hcs]
            rfl
      · obtain ⟨piece, rest, hpieces⟩ := List.exists_cons_of_ne_nil (pieces_ne_nil separator cs)
        rw [pieces, if_neg hc, hpieces] at ha
        rw [List.cons_append, pieces, if_neg hc]
        cases front with
        | nil =>
            obtain ⟨rfl, rfl⟩ := List.cons.inj ha
            have hcs : pieces separator cs = [] ++ [piece] := hpieces
            rw [ih hcs]
            rfl
        | cons first front =>
            obtain ⟨rfl, rfl⟩ := List.cons.inj ha
            have hcs : pieces separator cs = (piece :: front) ++ [x] := hpieces
            rw [ih hcs]
            rfl

/-- No piece holds the separator. -/
theorem not_mem_of_mem_pieces {separator : Char} {piece : List Char}
    (h : piece ∈ pieces separator a) : separator ∉ piece := by
  induction a generalizing piece with
  | nil =>
      have hpiece : piece = [] := by simpa [pieces] using h
      simp [hpiece]
  | cons c cs ih =>
      by_cases hc : c = separator
      · rw [pieces, if_pos hc] at h
        rcases List.mem_cons.1 h with hpiece | h
        · simp [hpiece]
        · exact ih h
      · obtain ⟨first, rest, hpieces⟩ :=
          List.exists_cons_of_ne_nil (pieces_ne_nil separator cs)
        rw [pieces, if_neg hc, hpieces] at h
        rw [hpieces] at ih
        rcases List.mem_cons.1 h with hpiece | h
        · have hfirst := ih (List.mem_cons_self)
          simp [hpiece, hfirst, Ne.symm hc]
        · exact ih (List.mem_cons_of_mem _ h)

/-- A piece is a part of the text. -/
theorem isInfix_of_mem_pieces {separator : Char} {piece : List Char}
    (h : piece ∈ pieces separator a) : piece <:+: a := by
  induction hn : a.length using Nat.strongRecOn generalizing a with
  | ind n ih =>
      subst hn
      by_cases hmem : separator ∈ a
      · obtain ⟨front, back, rfl, hfront⟩ := List.eq_append_cons_of_mem hmem
        rw [pieces_append_cons hfront] at h
        rcases List.mem_cons.1 h with rfl | h
        · exact (List.prefix_append piece _).isInfix
        · have hlt : back.length < (front ++ separator :: back).length := by
            simp only [List.length_append, List.length_cons]
            omega
          have hback : back <:+: front ++ separator :: back :=
            ((List.suffix_cons separator back).trans (List.suffix_append front _)).isInfix
          exact (ih back.length hlt h rfl).trans hback
      · rw [pieces_of_not_mem hmem] at h
        obtain rfl := List.mem_singleton.1 h
        exact List.infix_rfl

/-- A piece has characters of the text only. -/
theorem mem_of_mem_pieces {separator : Char} {piece : List Char}
    (h : piece ∈ pieces separator a) {c : Char} (hc : c ∈ piece) : c ∈ a :=
  (isInfix_of_mem_pieces h).subset hc

theorem occurs_eq_false_iff : occurs mark a = false ↔ cut? mark a = none := by
  simp [occurs]

/-- A mark is found in every text that it is a part of. -/
theorem cut?_eq_none_iff : cut? mark a = none ↔ ¬ mark <:+: a := by
  constructor
  · rintro hnone ⟨before, rest, rfl⟩
    induction before with
    | nil =>
        cases mark with
        | nil => cases rest <;> cases hnone
        | cons c cs =>
            rw [List.nil_append, cut?_self_append (List.cons_ne_nil c cs)] at hnone
            cases hnone
    | cons c before ih =>
        rw [List.cons_append, List.cons_append, cut?] at hnone
        split at hnone
        · cases hnone
        · exact ih (Option.map_eq_none_iff.1 hnone)
  · intro hinfix
    cases hcut : cut? mark a with
    | none => rfl
    | some parts =>
        have hsplit := eq_append_of_cut? hcut
        exact absurd ⟨parts.1, parts.2, by rw [List.append_assoc]; exact hsplit.symm⟩ hinfix

/-- A text that occurs in a text without the mark is without the mark. -/
theorem cut?_eq_none_of_isInfix (ha : cut? mark a = none) (h : b <:+: a) : cut? mark b = none :=
  cut?_eq_none_iff.2 fun hmark => cut?_eq_none_iff.1 ha (hmark.trans h)

/-- No mark reaches across a character that it does not have. -/
theorem cut?_append_cons {c : Char} (hmark : mark ≠ []) (hc : c ∉ mark) (ha : cut? mark a = none)
    (b : List Char) : cut? mark (a ++ c :: b) =
      (cut? mark b).map fun (before, rest) => (a ++ c :: before, rest) := by
  induction a with
  | nil =>
      cases hstart : dropStart? mark (c :: b) with
      | none => rw [List.nil_append, cut?, hstart]; rfl
      | some rest =>
          obtain ⟨m, ms, rfl⟩ := List.exists_cons_of_ne_nil hmark
          obtain ⟨rfl, -⟩ := List.cons.inj (dropStart?_eq_some_iff.1 hstart)
          exact absurd List.mem_cons_self hc
  | cons d ds ih =>
      have hnone : dropStart? mark (d :: (ds ++ c :: b)) = none := by
        rw [Option.eq_none_iff_forall_ne_some]
        intro rest hrest
        have hsplit : (d :: ds) ++ c :: b = mark ++ rest := dropStart?_eq_some_iff.1 hrest
        have hinfix := cut?_eq_none_iff.1 ha
        rcases List.append_eq_append_iff.1 hsplit with ⟨t, ht, hcs⟩ | ⟨t, ht, -⟩
        · cases t with
          | nil => exact hinfix (by simp [ht])
          | cons e t =>
              obtain ⟨rfl, -⟩ := List.cons.inj hcs
              exact hc (by simp [ht])
        · exact hinfix (ht ▸ (List.prefix_append mark t).isInfix)
      have hds : cut? mark ds = none :=
        cut?_eq_none_of_isInfix ha (List.infix_cons (List.infix_refl ds))
      rw [List.cons_append, cut?, hnone, ih hds, Option.map_map]
      rfl

/-- A mark does not reach into a text that its last character does not occur in. -/
theorem cut?_append_of_getLast_not_mem {c : Char} {others : List Char}
    (hmark : mark = others ++ [c]) (ha : cut? mark a = none) (hb : c ∉ b) :
    cut? mark (a ++ b) = none := by
  rw [cut?_eq_none_iff]
  rintro ⟨before, rest, hsplit⟩
  rcases List.append_eq_append_iff.1 hsplit with ⟨t, ht, -⟩ | ⟨t, ht, hbt⟩
  · exact cut?_eq_none_iff.1 ha ⟨before, t, ht.symm⟩
  · rcases List.eq_nil_or_concat t with rfl | ⟨t, d, rfl⟩
    · exact cut?_eq_none_iff.1 ha ⟨before, [], by simpa using ht⟩
    · rw [hmark, ← List.append_assoc, List.concat_eq_append, ← List.append_assoc] at ht
      have hcd : c = d := (List.append_inj' ht rfl).2 |> List.singleton_inj.1
      exact hb (by simp [hbt, hcd])

/-- A text that ends with `ending` is the rest and `ending`. -/
theorem dropEnd?_eq_some_iff {ending : List Char} :
    dropEnd? ending a = some rest ↔ a = rest ++ ending := by
  simp only [dropEnd?, Option.map_eq_some_iff, dropStart?_eq_some_iff]
  constructor
  · rintro ⟨r, hr, rfl⟩
    simpa using congrArg List.reverse hr
  · rintro rfl
    exact ⟨rest.reverse, List.reverse_append, List.reverse_reverse rest⟩

theorem isSome_dropEnd?_iff {ending : List Char} :
    (dropEnd? ending a).isSome = true ↔ ∃ before, a = before ++ ending := by
  simp only [Option.isSome_iff_exists, dropEnd?_eq_some_iff]

/-- More text before the first piece is more text before all of them. -/
theorem joined_append_cons (separator a piece : List Char) (rest : List (List Char)) :
    joined separator ((a ++ piece) :: rest) = a ++ joined separator (piece :: rest) := by
  cases rest <;> simp [joined]

variable {separator : Char} {piece : List Char} {pieces : List (List Char)}

/-- Pieces put together end with a rest of one of them and all after it. -/
theorem exists_joined_eq_append_iff :
    (∃ before, joined [separator] (piece :: pieces) = before ++ rest) ↔
      (∃ a b, piece = a ++ b ∧ rest = joined [separator] (b :: pieces)) ∨
        ∃ skipped a b others, pieces = skipped ++ (a ++ b) :: others ∧
          rest = joined [separator] (b :: others) := by
  induction pieces generalizing piece with
  | nil => simp [joined, eq_comm]
  | cons next pieces ih =>
      have hjoined : joined [separator] (piece :: next :: pieces) =
          piece ++ separator :: joined [separator] (next :: pieces) := rfl
      constructor
      · rintro ⟨before, hbefore⟩
        rw [hjoined] at hbefore
        rcases List.append_eq_append_iff.1 hbefore with ⟨t, rfl, ht⟩ | ⟨t, rfl, rfl⟩
        · cases t with
          | nil => exact .inl ⟨piece, [], by simp, ht.symm⟩
          | cons d t =>
              rcases ih.1 ⟨t, (List.cons.inj ht).2⟩ with
                ⟨a, b, rfl, rfl⟩ | ⟨skipped, a, b, others, rfl, rfl⟩
              · exact .inr ⟨[], a, b, pieces, rfl, rfl⟩
              · exact .inr ⟨next :: skipped, a, b, others, rfl, rfl⟩
        · exact .inl ⟨before, t, rfl, rfl⟩
      · rintro (⟨a, b, rfl, rfl⟩ | ⟨skipped, a, b, others, hpieces, rfl⟩)
        · exact ⟨a, joined_append_cons ..⟩
        · -- The rest begins in the next piece or after it.
          have hnext : ∃ before, joined [separator] (next :: pieces) =
              before ++ joined [separator] (b :: others) := by
            cases skipped with
            | nil =>
                obtain ⟨rfl, rfl⟩ := List.cons.inj hpieces
                exact ⟨a, joined_append_cons ..⟩
            | cons _ skipped =>
                obtain ⟨rfl, rfl⟩ := List.cons.inj hpieces
                exact ih.2 (.inr ⟨skipped, a, b, others, rfl, rfl⟩)
          obtain ⟨before, hbefore⟩ := hnext
          exact ⟨piece ++ separator :: before, by rw [hjoined, hbefore]; simp⟩

/-- A text without separators stands at the start of the first piece. -/
theorem joined_eq_append_iff {before : List Char} (hbefore : separator ∉ before) :
    joined [separator] (piece :: pieces) = before ++ rest ↔
      ∃ b, piece = before ++ b ∧ rest = joined [separator] (b :: pieces) := by
  constructor
  · intro hjoined
    cases pieces with
    | nil => exact ⟨rest, hjoined, rfl⟩
    | cons next pieces =>
        have hsplit : piece ++ separator :: joined [separator] (next :: pieces) = before ++ rest :=
          hjoined
        rcases List.append_eq_append_iff.1 hsplit with ⟨t, rfl, ht⟩ | ⟨t, rfl, rfl⟩
        · cases t with
          | nil => exact ⟨[], by simp, ht.symm⟩
          | cons d t =>
              obtain ⟨rfl, -⟩ := List.cons.inj ht
              exact absurd (by simp) hbefore
        · exact ⟨t, rfl, rfl⟩
  · rintro ⟨b, rfl, rfl⟩
    exact joined_append_cons ..

variable {pattern : List Char → List Char → Prop} {found : List Char}

/-- The longest start of a text that a pattern allows before what follows. -/
structure IsLongest (pattern : List Char → List Char → Prop) (found rest : List Char) : Prop where
  allowed : pattern found rest
  longest : ∀ found' rest', found' ++ rest' = found ++ rest → pattern found' rest' →
    found'.length ≤ found.length

/-- A pattern **finds** the longest start of a text that it allows, or nothing
when it allows none. -/
def IsFound (pattern : List Char → List Char → Prop) (found rest : List Char) : Prop :=
  IsLongest pattern found rest ∨
    found = [] ∧ ∀ found' rest', found' ++ rest' = rest → ¬ pattern found' rest'

/-- The longest start leaves the shortest rest. -/
theorem isLongest_of_length_le (h : pattern found rest)
    (hshort : ∀ found' rest', found' ++ rest' = found ++ rest → pattern found' rest' →
      rest.length ≤ rest'.length) : IsLongest pattern found rest := by
  refine ⟨h, fun found' rest' hsplit hfound => ?_⟩
  have hlength := congrArg List.length hsplit
  have hrest := hshort found' rest' hsplit hfound
  simp only [List.length_append] at hlength
  omega

end LicenseAudit.Text
