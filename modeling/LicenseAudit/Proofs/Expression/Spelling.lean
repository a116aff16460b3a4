import LicenseAudit.Expression.Token
import LicenseAudit.Proofs.Except
import Mathlib.Data.List.TakeWhile

/-!
# Spelling tokens

`Spells` says which texts spell a list of tokens, without saying how a text
is read: every token is written out, blanks may stand around it, a blank
has to stand between two words, and a plus sign has to follow an identifier
at once.

`spells_iff` says that reading the tokens of a text finds exactly the list
that the text spells.  As reading is a function, a text spells one list at
most.
-/

namespace LicenseAudit.Expression

open Text

/-- A word that names a license or an exception: made of letters, digits,
dots and hyphens, with colons in a license reference only, and neither a
keyword nor reserved. -/
structure IsIdentifier (id : String) : Prop where
  start : ∃ c cs, id.toList = c :: cs ∧ isIdStart c = true
  chars : ∀ c ∈ id.toList, isWordChar c = true
  reference : ':' ∈ id.toList → isReference id = true
  not_keyword : id ≠ "AND" ∧ id ≠ "OR" ∧ id ≠ "WITH"
  not_reserved : id ∉ reservedWords

namespace Token

/-- The tokens that a text can hold: identifiers are well formed. -/
def IsLexical : Token → Prop
  | .word id => IsIdentifier id
  | .reserved text => text ∈ reservedWords
  | _ => True

/-- Whether a token is written in the characters of words. -/
def isWord : Token → Bool
  | .opening => false
  | .closing => false
  | .plus => false
  | _ => true

end Token

/-- The blanks `gap` may stand between two tokens, or in front of the first
one. -/
structure Separates (before : Option Token) (t : Token) (gap : List Char) : Prop where
  blank : ∀ c ∈ gap, isBlank c = true
  words : (∃ b, before = some b ∧ b.isWord = true) → t.isWord = true → gap ≠ []
  plus : t = .plus → gap = [] ∧ ∃ id, before = some (.word id)

/-- A text **spells** tokens, `before` being the token that precedes it. -/
inductive Spells : Option Token → List Token → List Char → Prop
  | nil {before : Option Token} {gap : List Char} (hgap : ∀ c ∈ gap, isBlank c = true) :
      Spells before [] gap
  | cons {before : Option Token} {t : Token} {ts : List Token} {gap rest : List Char}
      (hlexical : t.IsLexical) (hgap : Separates before t gap) (hrest : Spells (some t) ts rest) :
      Spells before (t :: ts) (gap ++ (t.text.toList ++ rest))

/-- The characters of words lie between the hyphen and the last letter. -/
theorem toNat_of_isWordChar {c : Char} (h : isWordChar c = true) :
    0x2D ≤ c.toNat ∧ c.toNat ≤ 0x7A := by
  simp only [isWordChar, isIdStart, Bool.or_eq_true, beq_iff_eq] at h
  rcases h with ((h | rfl) | rfl) | rfl
  · change (decide (65 ≤ c.val ∧ c.val ≤ 90) || decide (97 ≤ c.val) && decide (c.val ≤ 122) ||
      decide (48 ≤ c.val) && decide (c.val ≤ 57)) = true at h
    simp only [Bool.or_eq_true, Bool.and_eq_true, decide_eq_true_eq, UInt32.le_iff_toNat_le] at h
    change ((65 ≤ c.toNat ∧ c.toNat ≤ 90) ∨ 97 ≤ c.toNat ∧ c.toNat ≤ 122) ∨
      48 ≤ c.toNat ∧ c.toNat ≤ 57 at h
    omega
  all_goals decide

theorem isWordChar_of_isIdStart {c : Char} (h : isIdStart c = true) : isWordChar c = true := by
  simp [isWordChar, h]

/-- No blank is part of a word. -/
theorem isWordChar_of_isBlank {c : Char} (h : isBlank c = true) : isWordChar c = false := by
  by_contra hword
  have hbounds := toNat_of_isWordChar (by simpa using hword)
  simp only [isBlank, Bool.or_eq_true, Bool.and_eq_true, decide_eq_true_eq, beq_iff_eq] at h
  omega

theorem isBlank_of_isIdStart {c : Char} (h : isIdStart c = true) : isBlank c = false := by
  by_contra hblank
  have hword := isWordChar_of_isBlank (by simpa using hblank)
  rw [isWordChar_of_isIdStart h] at hword
  cases hword

/-- A word is written as a character that starts identifiers and others
that words hold. -/
theorem exists_text_of_isWord {t : Token} (ht : t.IsLexical) (hword : t.isWord = true) :
    ∃ c cs, t.text.toList = c :: cs ∧ isIdStart c = true ∧ ∀ d ∈ cs, isWordChar d = true := by
  cases t with
  | word id =>
      obtain ⟨⟨c, cs, hid, hc⟩, hchars, -⟩ := ht
      exact ⟨c, cs, hid, hc, fun d hd => hchars d (by simp [hid, hd])⟩
  | reserved text =>
      simp only [Token.IsLexical, reservedWords, List.mem_cons, List.not_mem_nil, or_false] at ht
      rcases ht with rfl | rfl | rfl | rfl | rfl | rfl | rfl <;>
        exact ⟨_, _, rfl, by decide, List.all_eq_true.1 (by decide)⟩
  | and => exact ⟨_, _, rfl, by decide, List.all_eq_true.1 (by decide)⟩
  | or => exact ⟨_, _, rfl, by decide, List.all_eq_true.1 (by decide)⟩
  | «with» => exact ⟨_, _, rfl, by decide, List.all_eq_true.1 (by decide)⟩
  | opening => cases hword
  | closing => cases hword
  | plus => cases hword

/-- A word is read as the token it is the text of. -/
theorem ofWord?_text {t : Token} (ht : t.IsLexical) (hword : t.isWord = true) :
    Token.ofWord? t.text.toList = some t := by
  cases t with
  | word id =>
      obtain ⟨-, -, hreference, ⟨hand, hor, hwith⟩, hreserved⟩ := ht
      simpa [Token.ofWord?, Token.text, hand, hor, hwith, hreserved, isReference] using hreference
  | reserved text =>
      simp only [Token.IsLexical, reservedWords, List.mem_cons, List.not_mem_nil, or_false] at ht
      rcases ht with rfl | rfl | rfl | rfl | rfl | rfl | rfl <;> decide
  | and => decide
  | or => decide
  | «with» => decide
  | opening => cases hword
  | closing => cases hword
  | plus => cases hword

/-- The token of a word is written as the word. -/
theorem of_ofWord?_eq_some {c : Char} {cs : List Char} {t : Token} (hc : isIdStart c = true)
    (hcs : ∀ d ∈ cs, isWordChar d = true) (h : Token.ofWord? (c :: cs) = some t) :
    t.IsLexical ∧ t.isWord = true ∧ t.text.toList = c :: cs := by
  unfold Token.ofWord? at h
  split at h
  · cases h
  · next hcolon =>
      have hkeyword {keyword : String} (he : String.ofList (c :: cs) = keyword) :
          keyword.toList = c :: cs := by
        simpa using (congrArg String.toList he).symm
      simp only [Option.some.injEq] at h
      subst h
      split_ifs with hand hor hwith hreserved
      · exact ⟨trivial, rfl, hkeyword hand⟩
      · exact ⟨trivial, rfl, hkeyword hor⟩
      · exact ⟨trivial, rfl, hkeyword hwith⟩
      · exact ⟨by simpa [Token.IsLexical] using hreserved, rfl, by simp [Token.text]⟩
      · refine ⟨⟨⟨c, cs, by simp, hc⟩, ?_, ?_, ⟨hand, hor, hwith⟩, ?_⟩, rfl, by simp [Token.text]⟩
        · simpa [isWordChar_of_isIdStart hc] using hcs
        · simpa [isReference] using hcolon
        · simpa using hreserved

/-- Blanks are passed over, and nothing is attached across them. -/
theorem tokensFrom_blanks {gap : List Char} (hgap : ∀ c ∈ gap, isBlank c = true)
    (attachable : Bool) (position : Nat) (cs : List Char) :
    tokensFrom attachable position (gap ++ cs) =
      tokensFrom (attachable && gap.isEmpty) (position + gap.length) cs := by
  induction gap generalizing attachable position with
  | nil => simp
  | cons c gap ih =>
      rw [List.cons_append, tokensFrom.eq_def]
      dsimp only
      rw [if_pos (hgap c (by simp)), ih fun d hd => hgap d (by simp [hd])]
      simp [Nat.add_assoc, Nat.add_comm 1]

/-- A word is read whole when nothing that could continue it follows. -/
theorem tokensFrom_word {t : Token} (ht : t.IsLexical) (hword : t.isWord = true)
    {rest : List Char} (hrest : ∀ c ∈ rest.head?, isWordChar c = false) (attachable : Bool)
    (position : Nat) :
    tokensFrom attachable position (t.text.toList ++ rest) =
      (⟨t, position⟩ :: ·) <$>
        tokensFrom t.takesPlus (position + t.text.toList.length) rest := by
  obtain ⟨c, cs, htext, hc, hcs⟩ := exists_text_of_isWord ht hword
  have htake : (cs ++ rest).takeWhile isWordChar = cs := by
    rw [List.takeWhile_append_of_pos hcs]
    cases rest with
    | nil => simp
    | cons d rest => simp [hrest d (by simp)]
  have hdrop : (cs ++ rest).dropWhile isWordChar = rest := by
    rw [List.dropWhile_append_of_pos hcs]
    cases rest with
    | nil => rfl
    | cons d rest => simp [hrest d (by simp)]
  have hbounds := toNat_of_isWordChar (isWordChar_of_isIdStart hc)
  have hne (d : Char) (hd : d.toNat < 0x2D) : c ≠ d := by
    rintro rfl
    omega
  have hof := ofWord?_text ht hword
  rw [htext] at hof
  rw [htext, List.cons_append, tokensFrom.eq_def]
  simp [isBlank_of_isIdStart hc, hne '(' (by decide), hne ')' (by decide), hne '+' (by decide), hc,
    htake, hdrop, hof]

theorem tokensFrom_opening (attachable : Bool) (position : Nat) (rest : List Char) :
    tokensFrom attachable position (Token.opening.text.toList ++ rest) =
      (⟨.opening, position⟩ :: ·) <$> tokensFrom false (position + 1) rest := by
  rw [show Token.opening.text.toList ++ rest = '(' :: rest from rfl, tokensFrom.eq_def]
  dsimp only
  rw [if_neg (by decide), if_pos rfl]

theorem tokensFrom_closing (attachable : Bool) (position : Nat) (rest : List Char) :
    tokensFrom attachable position (Token.closing.text.toList ++ rest) =
      (⟨.closing, position⟩ :: ·) <$> tokensFrom false (position + 1) rest := by
  rw [show Token.closing.text.toList ++ rest = ')' :: rest from rfl, tokensFrom.eq_def]
  dsimp only
  rw [if_neg (by decide), if_neg (by decide), if_pos rfl]

theorem tokensFrom_plus (position : Nat) (rest : List Char) :
    tokensFrom true position (Token.plus.text.toList ++ rest) =
      (⟨.plus, position⟩ :: ·) <$> tokensFrom false (position + 1) rest := by
  rw [show Token.plus.text.toList ++ rest = '+' :: rest from rfl, tokensFrom.eq_def]
  dsimp only
  rw [if_neg (by decide), if_neg (by decide), if_neg (by decide), if_pos rfl, if_pos rfl]

/-- After a word no text spells a token that starts with a character of
words. -/
theorem Spells.head?_of_isWord {t : Token} (ht : t.isWord = true) {ts : List Token}
    {cs : List Char} (h : Spells (some t) ts cs) : ∀ c ∈ cs.head?, isWordChar c = false := by
  cases h with
  | nil hgap =>
      intro c hc
      exact isWordChar_of_isBlank (hgap c (List.mem_of_head? hc))
  | @cons _ u us gap rest hlexical hgap hrest =>
      intro c hc
      cases gap with
      | nil =>
          cases u with
          | opening => cases hc; decide
          | closing => cases hc; decide
          | plus => cases hc; decide
          | _ => exact absurd rfl (hgap.words ⟨t, rfl, ht⟩ rfl)
      | cons d gap =>
          cases hc
          exact isWordChar_of_isBlank (hgap.blank c (by simp))

/-- A text that spells tokens is read as these. -/
theorem tokensFrom_of_spells {before : Option Token} {ts : List Token} {cs : List Char}
    (h : Spells before ts cs) {attachable : Bool} (position : Nat)
    (hattach : ∀ id, before = some (.word id) → attachable = true) :
    ∃ ps, tokensFrom attachable position cs = .ok ps ∧ ps.map Placed.token = ts := by
  induction h generalizing attachable position with
  | @nil before gap hgap =>
      refine ⟨[], ?_, rfl⟩
      have hread := tokensFrom_blanks hgap attachable position []
      rw [List.append_nil] at hread
      rw [hread, tokensFrom.eq_def]
  | @cons before t ts gap rest hlexical hgap hrest ih =>
      obtain ⟨ps, hps, rfl⟩ := @ih t.takesPlus
        (position + gap.length + t.text.toList.length) fun id hid => by cases hid; rfl
      refine ⟨⟨t, position + gap.length⟩ :: ps, ?_, rfl⟩
      rw [tokensFrom_blanks hgap.blank]
      by_cases hword : t.isWord = true
      · rw [tokensFrom_word hlexical hword (hrest.head?_of_isWord hword), hps]
        rfl
      · cases t with
        | opening =>
            rw [tokensFrom_opening]
            exact congrArg _ hps
        | closing =>
            rw [tokensFrom_closing]
            exact congrArg _ hps
        | plus =>
            obtain ⟨rfl, id, hid⟩ := hgap.plus rfl
            rw [hattach id hid, List.isEmpty_nil, Bool.and_true, tokensFrom_plus]
            exact congrArg _ hps
        | _ => exact absurd rfl hword

theorem not_isWord_some {t : Token} (h : t.isWord = false) :
    ¬ ∃ b, some t = some b ∧ b.isWord = true := by
  rintro ⟨b, hb, hword⟩
  rw [← Option.some.inj hb, h] at hword
  cases hword

/-- What is read as a token and a rest spells the token and the rest. -/
theorem Spells.of_map_eq_ok {before : Option Token} {t : Token} {position : Nat}
    {gap rest : List Char} {x : Except SyntaxError (List Placed)} {ps : List Placed}
    (h : (⟨t, position⟩ :: ·) <$> x = .ok ps) (ht : t.IsLexical) (hgap : Separates before t gap)
    (hrest : ∀ qs, x = .ok qs → Spells (some t) (qs.map Placed.token) rest) :
    Spells before (ps.map Placed.token) (gap ++ (t.text.toList ++ rest)) := by
  obtain ⟨qs, hqs, rfl⟩ := exists_of_map_eq_ok h
  exact .cons ht hgap (hrest qs hqs)

/-- A text spells the tokens that it is read as, also behind blanks `gap`
that have been passed over. -/
theorem spells_of_tokensFrom {attachable : Bool} {position : Nat} {cs : List Char}
    {ps : List Placed} (h : tokensFrom attachable position cs = .ok ps) {before : Option Token}
    {gap : List Char} (hgap : ∀ c ∈ gap, isBlank c = true)
    (hattach : attachable = true → gap = [] ∧ ∃ id, before = some (.word id))
    (hwords : (∃ b, before = some b ∧ b.isWord = true) → gap = [] →
      ∀ c ∈ cs.head?, isWordChar c = false) :
    Spells before (ps.map Placed.token) (gap ++ cs) := by
  fun_induction tokensFrom attachable position cs generalizing ps before gap with
  | case1 =>
      cases h
      rw [List.append_nil]
      exact .nil hgap
  | case2 attachable position c rest hblank ih =>
      have happend : gap ++ c :: rest = gap ++ [c] ++ rest := by simp
      rw [happend]
      refine ih h ?_ nofun fun _ hnil => absurd hnil (by simp)
      intro d hd
      rcases List.mem_append.1 hd with hd | hd
      · exact hgap d hd
      · rwa [List.mem_singleton.1 hd]
  | case3 attachable position rest _ ih =>
      refine Spells.of_map_eq_ok h trivial ⟨hgap, nofun, nofun⟩ fun qs hqs => ?_
      exact ih hqs (List.forall_mem_nil _) nofun fun hb => absurd hb (not_isWord_some rfl)
  | case4 attachable position rest _ _ ih =>
      refine Spells.of_map_eq_ok h trivial ⟨hgap, nofun, nofun⟩ fun qs hqs => ?_
      exact ih hqs (List.forall_mem_nil _) nofun fun hb => absurd hb (not_isWord_some rfl)
  | case5 position rest _ _ _ ih =>
      refine Spells.of_map_eq_ok h trivial ⟨hgap, nofun, fun _ => hattach rfl⟩ fun qs hqs => ?_
      exact ih hqs (List.forall_mem_nil _) nofun fun hb => absurd hb (not_isWord_some rfl)
  | case6 => cases h
  | case7 => cases h
  | case8 attachable position c rest _ _ _ _ hc word t ht =>
      rename_i ih
      have hchars : ∀ d ∈ rest.takeWhile isWordChar, isWordChar d = true :=
        fun d hd => List.mem_takeWhile_imp hd
      obtain ⟨hlexical, hword, htext⟩ := of_ofWord?_eq_some hc hchars ht
      have hsplit : c :: rest = t.text.toList ++ rest.dropWhile isWordChar := by
        rw [htext, List.cons_append, List.takeWhile_append_dropWhile]
      rw [hsplit]
      refine Spells.of_map_eq_ok h hlexical ⟨hgap, fun hb _ hnil => ?_, ?_⟩ ?_
      · have hnot := hwords hb hnil c rfl
        rw [isWordChar_of_isIdStart hc] at hnot
        cases hnot
      · rintro rfl
        cases hword
      · intro qs hqs
        refine ih hqs (List.forall_mem_nil _) ?_ ?_
        · intro hplus
          cases t with
          | word id => exact ⟨rfl, id, rfl⟩
          | _ => cases hplus
        · intro _ _ d hd
          have hnot := List.head?_dropWhile_not isWordChar rest
          rw [Option.mem_def.1 hd] at hnot
          simpa using hnot
  | case9 => cases h

/-- Reading the tokens of a text finds what the text spells. -/
theorem spells_iff {text : List Char} {ts : List Token} :
    Spells none ts text ↔ ∃ ps, tokens text = .ok ps ∧ ps.map Placed.token = ts := by
  constructor
  · intro h
    exact tokensFrom_of_spells h 0 fun id hid => by cases hid
  · rintro ⟨ps, hps, rfl⟩
    exact spells_of_tokensFrom hps (List.forall_mem_nil _) nofun fun ⟨_, hb, _⟩ => nomatch hb

end LicenseAudit.Expression
