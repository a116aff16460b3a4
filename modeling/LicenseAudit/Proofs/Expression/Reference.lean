import LicenseAudit.Proofs.Expression.Identifier
import LicenseAudit.Proofs.Text.Search
import Mathlib.Data.List.Infix

/-!
# The words that are expressions

A license reference is a name of the project's own, or leads to one through
named documents; `isReference_iff` writes it out.  A word, all of whose
characters may stand in identifiers, is an expression when it is neither a
keyword nor reserved and has no colon unless it is a reference
(`parse_word_iff`).

The expressions are not the plain words (`IsPlain`): the name of a reference may
have colons of its own and several documents may stand before it, and a reserved
word is plain but no identifier (`word_not_as_plain`).
-/

namespace LicenseAudit

open Text

/-- The text of a reference to a name through some documents, the outermost
first. -/
def referenceText : List (List Char) → List Char → List Char
  | [], name => licenseRefStart ++ name
  | document :: documents, name =>
    documentRefStart ++ (document ++ ':' :: referenceText documents name)

/-- The documents of a reference have names without colons. -/
def AreDocuments (documents : List (List Char)) : Prop :=
  ∀ document ∈ documents, document ≠ [] ∧ ':' ∉ document

/-- A text is cut at its first colon. -/
theorem cut?_colon_iff {cs before rest : List Char} :
    cut? [':'] cs = some (before, rest) ↔ cs = before ++ ':' :: rest ∧ ':' ∉ before := by
  have hnone : cut? [':'] before = none ↔ ':' ∉ before := by
    rw [cut?_eq_none_iff, List.singleton_infix_iff]
  constructor
  · intro h
    exact ⟨eq_append_of_cut? h, hnone.1 (cut?_before_eq_none (List.cons_ne_nil _ _) h)⟩
  · rintro ⟨rfl, hbefore⟩
    have happart : StandsApart ':' [':'] := ⟨[], rfl, List.not_mem_nil⟩
    exact cut?_append_self happart (hnone.2 hbefore) rest

theorem dropStart?_licenseRefStart_append (cs : List Char) :
    dropStart? licenseRefStart (documentRefStart ++ cs) = none :=
  rfl

theorem isReferenceText_own (name : List Char) :
    isReferenceText (licenseRefStart ++ name) = !name.isEmpty := by
  rw [isReferenceText, dropStart?_append_self]

theorem isReferenceText_foreign {document : List Char} (hcolon : ':' ∉ document)
    (inner : List Char) :
    isReferenceText (documentRefStart ++ (document ++ ':' :: inner)) =
      (!document.isEmpty && isReferenceText inner) := by
  have hcut : cut? [':'] (document ++ ':' :: inner) = some (document, inner) :=
    cut?_colon_iff.2 ⟨rfl, hcolon⟩
  have hdrop := dropStart?_append_self documentRefStart (document ++ ':' :: inner)
  rw [isReferenceText, dropStart?_licenseRefStart_append]
  split
  · next h => cases h
  · split
    · next hnone =>
        rw [hdrop] at hnone
        cases hnone
    · next rest hrest =>
        obtain rfl := Option.some.inj (hdrop.symm.trans hrest)
        split
        · next hnone =>
            rw [hcut] at hnone
            cases hnone
        · next hparts =>
            rw [hcut] at hparts
            cases hparts
            rfl

/-- **A reference is a name that stands alone or behind documents.** -/
theorem isReferenceText_iff {cs : List Char} :
    isReferenceText cs = true ↔
      ∃ documents name, AreDocuments documents ∧ name ≠ [] ∧ cs = referenceText documents name := by
  constructor
  · intro h
    fun_induction isReferenceText cs with
    | case1 cs name hname =>
        exact ⟨[], name, nofun, by simpa using h, dropStart?_eq_some_iff.1 hname⟩
    | case2 => cases h
    | case3 => cases h
    | case4 cs hown rest hrest document inner hcut ih =>
        rw [Bool.and_eq_true] at h
        obtain ⟨documents, name, hdocuments, hname, rfl⟩ := ih h.2
        obtain ⟨rfl, hcolon⟩ := cut?_colon_iff.1 hcut
        have hdocument : document ≠ [] ∧ ':' ∉ document := ⟨by simpa using h.1, hcolon⟩
        exact ⟨document :: documents, name, List.forall_mem_cons.2 ⟨hdocument, hdocuments⟩, hname,
          dropStart?_eq_some_iff.1 hrest⟩
  · rintro ⟨documents, name, hdocuments, hname, rfl⟩
    induction documents with
    | nil => simpa [referenceText, isReferenceText_own] using hname
    | cons document documents ih =>
        obtain ⟨⟨hne, hcolon⟩, hrest⟩ := List.forall_mem_cons.1 hdocuments
        simpa [referenceText, isReferenceText_foreign hcolon, hne] using ih hrest

namespace Expression

variable {c : Char} {cs : List Char} {w : String}

/-- A text that is one word holds one token or an error. -/
theorem tokens_word (hc : isIdStart c = true) (hcs : ∀ d ∈ cs, isWordChar d = true) :
    tokens (c :: cs) =
      match Token.ofWord? (c :: cs) with
      | none => .error ⟨.invalidIdentifier (String.ofList (c :: cs)), 0⟩
      | some t => .ok [⟨t, 0⟩] := by
  have htake : cs.takeWhile isWordChar = cs := List.takeWhile_eq_self_iff.2 hcs
  have hdrop : cs.dropWhile isWordChar = [] := List.dropWhile_eq_nil_iff.2 hcs
  have hbounds := toNat_of_isWordChar (isWordChar_of_isIdStart hc)
  have hne (d : Char) (hd : d.toNat < 0x2D) : c ≠ d := by
    rintro rfl
    omega
  have hnil (attachable : Bool) (position : Nat) : tokensFrom attachable position [] = .ok [] := by
    rw [tokensFrom.eq_def]
  rw [tokens, tokensFrom.eq_def]
  simp only [isBlank_of_isIdStart hc, hne '(' (by decide), hne ')' (by decide),
    hne '+' (by decide), hc, htake, hdrop, hnil, Bool.false_eq_true, if_false, if_true]
  cases Token.ofWord? (c :: cs) <;> rfl

/-- A word that is an expression is an identifier. -/
theorem isIdentifier_of_parse_word {e : Expression} (hw : w.toList = c :: cs)
    (hc : isIdStart c = true) (hcs : ∀ d ∈ cs, isWordChar d = true) (h : parse w = .ok e) :
    IsIdentifier w := by
  obtain ⟨ps, s, hps, hfollow, -⟩ := parse_eq_ok_iff.1 h
  rw [hw, tokens_word hc hcs] at hps
  cases ht : Token.ofWord? (c :: cs) with
  | none =>
      rw [ht] at hps
      cases hps
  | some t =>
      rw [ht] at hps
      obtain rfl := Except.ok.inj hps
      obtain ⟨hlexical, hword, htext⟩ := of_ofWord?_eq_some hc hcs ht
      -- Of the tokens that words are only an identifier may stand first.
      cases t with
      | word id =>
          obtain rfl : id = w := String.toList_injective (htext.trans hw.symm)
          exact hlexical
      | reserved text => cases hfollow
      | and => cases hfollow
      | or => cases hfollow
      | «with» => cases hfollow
      | opening => cases hword
      | closing => cases hword
      | plus => cases hword

/-- The words with a meaning of their own. -/
def keywords : List String :=
  ["AND", "OR", "WITH"]

/-- The identifiers among the words. -/
theorem isIdentifier_word_iff (hw : w.toList = c :: cs) (hc : isIdStart c = true)
    (hcs : ∀ d ∈ cs, isWordChar d = true) :
    IsIdentifier w ↔ w ∉ keywords ∧ w ∉ reservedWords ∧
      (':' ∉ w.toList ∨ ∃ documents name, AreDocuments documents ∧ name ≠ [] ∧
        w.toList = referenceText documents name) := by
  have hkeywords : w ∉ keywords ↔ w ≠ "AND" ∧ w ≠ "OR" ∧ w ≠ "WITH" := by simp [keywords]
  rw [hkeywords, ← isReferenceText_iff]
  constructor
  · rintro ⟨-, -, hreference, hkeyword, hreserved⟩
    exact ⟨hkeyword, hreserved, (em (':' ∈ w.toList)).symm.imp_right hreference⟩
  · rintro ⟨hkeyword, hreserved, hcolon⟩
    refine ⟨⟨c, cs, hw, hc⟩, ?_, fun hmem => ?_, hkeyword, hreserved⟩
    · rw [hw]
      exact List.forall_mem_cons.2 ⟨isWordChar_of_isIdStart hc, hcs⟩
    · exact hcolon.resolve_left (not_not_intro hmem)

/-- A word is **plain** when it is no keyword and has no colon, unless it is a
name without colons in one document. -/
def IsPlain (w : String) : Prop :=
  w ∉ keywords ∧ (':' ∉ w.toList ∨ ∃ document name, AreDocuments [document, name] ∧
    w.toList = documentRefStart ++ (document ++ ':' :: (licenseRefStart ++ name)))

/-- **The words that are expressions.**  A word that does not start with a colon
is an expression exactly if it is one license, and this is when it is neither a
keyword nor reserved and has no colon unless it is a reference through any number
of documents to a name that may have colons itself.  All plain words are among
them but the reserved ones. -/
theorem parse_word_iff (hne : w ≠ "") (hchars : ∀ c ∈ w.toList, isWordChar c = true)
    (hstart : w.toList.head? ≠ some ':') :
    ((∃ e, parse w = .ok e) ↔ parse w = .ok (.license ⟨w, false⟩)) ∧
      (parse w = .ok (.license ⟨w, false⟩) ↔ w ∉ keywords ∧ w ∉ reservedWords ∧
        (':' ∉ w.toList ∨ ∃ documents name, AreDocuments documents ∧ name ≠ [] ∧
          w.toList = referenceText documents name)) ∧
      (IsPlain w → (parse w = .ok (.license ⟨w, false⟩) ↔ w ∉ reservedWords)) := by
  obtain ⟨c, cs, hw⟩ : ∃ c cs, w.toList = c :: cs :=
    List.exists_cons_of_ne_nil (by simpa using hne)
  rw [hw, List.forall_mem_cons] at hchars
  have hc : isIdStart c = true := by
    have hcolon : c ≠ ':' := by simpa [hw] using hstart
    simpa [isWordChar, hcolon] using hchars.1
  have hiff := isIdentifier_word_iff hw hc hchars.2
  have hparse : parse w = .ok (.license ⟨w, false⟩) ↔ IsIdentifier w :=
    ⟨isIdentifier_of_parse_word hw hc hchars.2, parse_of_isIdentifier⟩
  refine ⟨⟨?_, fun h => ⟨_, h⟩⟩, hparse.trans hiff, ?_⟩
  · rintro ⟨e, he⟩
    exact hparse.2 (isIdentifier_of_parse_word hw hc hchars.2 he)
  · rintro ⟨hkeyword, hform⟩
    rw [hparse, hiff]
    refine ⟨fun h => h.2.1, fun h => ⟨hkeyword, h, hform.imp_right ?_⟩⟩
    rintro ⟨document, name, hnames, hw'⟩
    obtain ⟨hdocument, hname⟩ := List.forall_mem_cons.1 hnames
    exact ⟨[document], name, List.forall_mem_singleton.2 hdocument,
      (List.forall_mem_singleton.1 hname).1, hw'⟩

theorem parse_word_nested :
    let w := "DocumentRef-a:DocumentRef-b:LicenseRef-c:d"
    w ≠ "" ∧ (∀ c ∈ w.toList, isWordChar c = true) ∧ w.toList.head? ≠ some ':' ∧
      ((∃ e, parse w = .ok e) ↔ parse w = .ok (.license ⟨w, false⟩)) ∧
      (parse w = .ok (.license ⟨w, false⟩) ↔ w ∉ keywords ∧ w ∉ reservedWords ∧
        (':' ∉ w.toList ∨ ∃ documents name, AreDocuments documents ∧ name ≠ [] ∧
          w.toList = referenceText documents name)) ∧
      (IsPlain w → (parse w = .ok (.license ⟨w, false⟩) ↔ w ∉ reservedWords)) := by
  intro w
  have hne : w ≠ "" := by decide
  have hchars : ∀ c ∈ w.toList, isWordChar c = true := List.all_eq_true.1 (by decide)
  have hstart : w.toList.head? ≠ some ':' := by decide
  exact ⟨hne, hchars, hstart, parse_word_iff hne hchars hstart⟩

/-- **Plain words and expressions are not the same**: a reserved word is plain
and no expression, and a reference may have a colon in its name. -/
theorem word_not_as_plain :
    (IsPlain "constructor" ∧
        parse "constructor" = .error ⟨.unexpected (.reserved "constructor"), 0⟩) ∧
      ¬ IsPlain "LicenseRef-a:b" ∧
        parse "LicenseRef-a:b" = .ok (.license ⟨"LicenseRef-a:b", false⟩) := by
  refine ⟨⟨⟨by decide, .inl (by decide)⟩, by decide +kernel⟩, ?_, by decide +kernel⟩
  rintro ⟨-, hcolon | ⟨document, name, -, hw⟩⟩
  · exact hcolon (by decide)
  · cases hw

end Expression

end LicenseAudit
