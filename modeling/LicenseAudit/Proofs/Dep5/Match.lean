import LicenseAudit.Dep5.Reading
import LicenseAudit.Proofs.Except
import Mathlib.Data.List.Induction
import Mathlib.Tactic.SplitIfs

/-!
# What the patterns of the deprecated manifest denote

A pattern is matched by its letters.  Here is what that means for the text it
was written as: a path is cut along the text, and each character or escape of
it stands for one part (`Stands`).  Letters spell a text together when each
spells a part of it (`spells_append`), so the letters of a text spell what it
stands for (`spells_lettersOf_iff`), and nothing in a pattern but its stars,
question marks and backslashes has a meaning of its own.

A manifest that was read keeps its patterns with their letters, and the
paragraph it gives for a path is the last one with a pattern that denotes the
path (`find?_eq_last`).
-/

namespace LicenseAudit

namespace Dep5

open Text

variable {l : Letter} {ls ms : List Letter} {us : List Nat} {c : Char} {cs : List Char}

/-- A letter by itself **takes** a part of a path. -/
def Letter.Takes : Letter → List Nat → Prop
  | .run, _ => True
  | .one, part => ∃ u, part = [u]
  | .exact u, part => part = [u]

theorem spells_run_cons :
    spells (.run :: ls) us = true ↔ ∃ part rest, us = part ++ rest ∧ spells ls rest = true := by
  induction us with
  | nil =>
      simp only [spells, List.nil_eq, List.append_eq_nil_iff]
      constructor
      · exact fun h => ⟨[], [], ⟨rfl, rfl⟩, h⟩
      · rintro ⟨_, _, ⟨-, rfl⟩, h⟩
        exact h
  | cons u us ih =>
      rw [spells, Bool.or_eq_true, ih]
      constructor
      · rintro (h | ⟨part, rest, rfl, h⟩)
        · exact ⟨[], u :: us, rfl, h⟩
        · exact ⟨u :: part, rest, rfl, h⟩
      · rintro ⟨part, rest, hsplit, h⟩
        cases part with
        | nil => exact .inl (hsplit ▸ h)
        | cons v part => exact .inr ⟨part, rest, (List.cons.inj hsplit).2, h⟩

/-- The first letter takes a part, and the others spell the rest. -/
theorem spells_cons :
    spells (l :: ls) us = true ↔
      ∃ part rest, l.Takes part ∧ us = part ++ rest ∧ spells ls rest = true := by
  cases l with
  | run => simp [spells_run_cons, Letter.Takes]
  | one =>
      cases us with
      | nil => simp [spells, Letter.Takes]
      | cons u us => simp [spells, Letter.Takes]
  | exact v =>
      cases us with
      | nil => simp [spells, Letter.Takes]
      | cons u us => simp [spells, Letter.Takes, eq_comm (a := v)]

/-- **Letters spell a text together when each spells a part of it.** -/
theorem spells_append :
    spells (ls ++ ms) us = true ↔
      ∃ front rest, us = front ++ rest ∧ spells ls front = true ∧ spells ms rest = true := by
  induction ls generalizing us with
  | nil => simp [spells]
  | cons l ls ih =>
      rw [List.cons_append, spells_cons]
      simp only [ih, spells_cons]
      constructor
      · rintro ⟨part, _, htakes, rfl, front, rest, rfl, hfront, hrest⟩
        exact ⟨part ++ front, rest, (List.append_assoc ..).symm,
          ⟨part, front, htakes, rfl, hfront⟩, hrest⟩
      · rintro ⟨_, rest, rfl, ⟨part, front, htakes, rfl, hfront⟩, hrest⟩
        exact ⟨part, front ++ rest, htakes, List.append_assoc .., front, rest, rfl, hfront, hrest⟩

theorem spells_exactly : spells (exactly c) us = true ↔ us = units c := by
  have hmap (vs : List Nat) : ∀ us, spells (vs.map .exact) us = true ↔ us = vs := by
    induction vs with
    | nil => simp [spells]
    | cons v vs ih => simp [spells_cons, ih, Letter.Takes]
  exact hmap (units c) us

/-- A text **stands** for the lists of units that can be cut along it. -/
inductive Stands : List Char → List Nat → Prop
  | nil : Stands [] []
  | run {cs : List Char} {us : List Nat} (part : List Nat) (tail : Stands cs us) :
      Stands ('*' :: cs) (part ++ us)
  | one {cs : List Char} {us : List Nat} (u : Nat) (tail : Stands cs us) :
      Stands ('?' :: cs) (u :: us)
  | escaped {cs : List Char} {us : List Nat} (c : Char) (tail : Stands cs us) :
      Stands ('\\' :: c :: cs) (units c ++ us)
  | lone : Stands ['\\'] (units '\\')
  | plain {c : Char} {cs : List Char} {us : List Nat} (h : c ∉ ['*', '?', '\\'])
      (tail : Stands cs us) : Stands (c :: cs) (units c ++ us)

theorem lettersOf_cons (h : c ≠ '\\') :
    lettersOf (c :: cs) =
      (if c = '*' then [.run] else if c = '?' then [.one] else exactly c) ++ lettersOf cs := by
  rw [lettersOf]
  · rintro rfl
    exact absurd rfl h
  · rintro d ds rfl
    exact absurd rfl h

theorem spells_lettersOf (h : Stands cs us) : spells (lettersOf cs) us = true := by
  induction h with
  | nil => simp [lettersOf, spells]
  | run part _ ih => exact spells_run_cons.2 ⟨part, _, rfl, ih⟩
  | one u _ ih => simpa [lettersOf_cons, spells] using ih
  | escaped c _ ih =>
      rw [lettersOf]
      exact spells_append.2 ⟨_, _, rfl, spells_exactly.2 rfl, ih⟩
  | lone => exact spells_exactly.2 rfl
  | plain h _ ih =>
      simp only [List.mem_cons, List.not_mem_nil, or_false, not_or] at h
      rw [lettersOf_cons h.2.2, if_neg h.1, if_neg h.2.1]
      exact spells_append.2 ⟨_, _, rfl, spells_exactly.2 rfl, ih⟩

theorem stands_of_spells (h : spells (lettersOf cs) us = true) : Stands cs us := by
  fun_induction lettersOf cs generalizing us with
  | case1 =>
      obtain rfl := List.isEmpty_iff.1 (by simpa [spells] using h)
      exact .nil
  | case2 =>
      obtain rfl := spells_exactly.1 h
      exact .lone
  | case3 c cs ih =>
      obtain ⟨_, rest, rfl, hc, hrest⟩ := spells_append.1 h
      obtain rfl := spells_exactly.1 hc
      exact .escaped c (ih hrest)
  | case4 c cs hlone hescaped ih =>
      obtain ⟨front, rest, rfl, hc, hrest⟩ := spells_append.1 h
      split_ifs at hc with hstar hmark
      · subst hstar
        exact .run front (ih hrest)
      · subst hmark
        obtain ⟨u, rfl⟩ : ∃ u, front = [u] := by simpa [spells_cons, spells, Letter.Takes] using hc
        exact .one u (ih hrest)
      · obtain rfl := spells_exactly.1 hc
        have hbackslash : c ≠ '\\' := by
          rintro rfl
          cases cs with
          | nil => exact hlone rfl rfl
          | cons d ds => exact hescaped d ds rfl rfl
        exact .plain (by simp [hstar, hmark, hbackslash]) (ih hrest)

theorem spells_lettersOf_iff : spells (lettersOf cs) us = true ↔ Stands cs us :=
  ⟨stands_of_spells, spells_lettersOf⟩

/-- A part for the first character, and what the others stand for: the end of
both is a slash when the text ends with one. -/
theorem exists_append_slash_of_cons {part : List Nat} (tail : Stands cs us)
    (ih : cs.getLast? = some '/' → ∃ name, us = name ++ units '/')
    (hpart : c = '/' → ∃ name, part = name ++ units '/')
    (h : (c :: cs).getLast? = some '/') : ∃ name, part ++ us = name ++ units '/' := by
  cases cs with
  | nil =>
      cases tail
      rw [List.append_nil]
      exact hpart (Option.some.inj h)
  | cons d cs =>
      obtain ⟨name, rfl⟩ := ih (List.getLast?_cons_cons ▸ h)
      exact ⟨part ++ name, (List.append_assoc ..).symm⟩

/-- What a text with a slash at its end stands for ends with a slash too. -/
theorem Stands.exists_eq_append_slash (h : Stands cs us) (hslash : cs.getLast? = some '/') :
    ∃ name, us = name ++ units '/' := by
  induction h with
  | nil => cases hslash
  | lone => cases hslash
  | run part tail ih =>
      exact exists_append_slash_of_cons tail ih (fun h => absurd h (by decide)) hslash
  | one u tail ih =>
      have hpart : '?' = '/' → ∃ name, [u] = name ++ units '/' := fun h => absurd h (by decide)
      exact exists_append_slash_of_cons tail ih hpart hslash
  | escaped c tail ih =>
      exact exists_append_slash_of_cons tail ih (fun h => ⟨[], by rw [h]; rfl⟩)
        (List.getLast?_cons_cons ▸ hslash)
  | plain _ tail ih =>
      exact exists_append_slash_of_cons tail ih (fun h => ⟨[], by rw [h]; rfl⟩) hslash

/-- The text of a source without a dot and a slash at its start. -/
def body (source : String) : List Char :=
  (dropStart? ['.', '/'] source.toList).getD source.toList

/-- A source **denotes** the paths that its text stands for and, with a slash
at its end, all that lies below them. -/
def Denotes (source path : String) : Prop :=
  Stands (body source) (unitsOf path.toList) ∨
    (body source).getLast? = some '/' ∧
      ∃ name below, unitsOf path.toList = name ++ units '/' ++ below ∧
        Stands (body source) (name ++ units '/')

/-- **A pattern matches the paths that its source denotes.** -/
theorem isMatch_ofSource_iff {source path : String} :
    (Pattern.ofSource source).isMatch path = true ↔ Denotes source path := by
  have hletters : (Pattern.ofSource source).letters =
      lettersOf (body source) ++ if (body source).getLast? = some '/' then [.run] else [] := rfl
  rw [Pattern.isMatch, hletters, Denotes]
  by_cases hslash : (body source).getLast? = some '/'
  · rw [if_pos hslash, spells_append]
    constructor
    · rintro ⟨front, below, hsplit, hfront, -⟩
      obtain ⟨name, rfl⟩ := (stands_of_spells hfront).exists_eq_append_slash hslash
      exact .inr ⟨hslash, name, below, hsplit, stands_of_spells hfront⟩
    · rintro (h | ⟨-, name, below, hsplit, h⟩)
      · exact ⟨_, [], (List.append_nil _).symm, spells_lettersOf h, by simp [spells]⟩
      · have hbelow : spells [.run] below = true :=
          spells_run_cons.2 ⟨below, [], by simp, by simp [spells]⟩
        exact ⟨_, below, hsplit, spells_lettersOf h, hbelow⟩
  · rw [if_neg hslash, List.append_nil, spells_lettersOf_iff]
    simp [hslash]

/-- Patterns as they come from a source. -/
def Pattern.IsRead (p : Pattern) : Prop :=
  p = Pattern.ofSource p.source

theorem Pattern.isRead_ofSource (source : String) : (Pattern.ofSource source).IsRead :=
  rfl

theorem Pattern.IsRead.isMatch_iff {p : Pattern} (h : p.IsRead) {path : String} :
    p.isMatch path = true ↔ Denotes p.source path := by
  rw [← isMatch_ofSource_iff, ← h]

theorem Block.isRead_of_paragraph? {b : Block} {p : Paragraph}
    (h : b.paragraph? = .ok (some p)) : ∀ pattern ∈ p.patterns, pattern.IsRead := by
  unfold Block.paragraph? at h
  split at h
  · cases h
  · split at h
    · simp only at h
      split_ifs at h
      cases h
      intro pattern hmem
      obtain ⟨word, -, rfl⟩ := List.mem_map.1 hmem
      exact Pattern.isRead_ofSource _
    · cases h

theorem isRead_of_parse {manifest text : String} {m : Dep5} (h : parse manifest text = .ok m) :
    ∀ p ∈ m.paragraphs, ∀ pattern ∈ p.patterns, pattern.IsRead := by
  obtain ⟨blocks, -, h⟩ := exists_of_bind_eq_ok h
  cases blocks with
  | nil => cases h
  | cons header blocks =>
      simp only at h
      split_ifs at h
      obtain ⟨paragraphs, hparagraphs, h⟩ := exists_of_bind_eq_ok h
      cases h
      intro p hp
      have hmem : some p ∈ paragraphs := by simpa using hp
      obtain ⟨b, -, hb⟩ := exists_of_mem_mapM hparagraphs hmem
      exact Block.isRead_of_paragraph? hb

/-- A paragraph **covers** a path when one of its patterns denotes it. -/
def Paragraph.Covers (p : Paragraph) (path : String) : Prop :=
  ∃ pattern ∈ p.patterns, Denotes pattern.source path

theorem Paragraph.isMatch_iff {p : Paragraph} (h : ∀ pattern ∈ p.patterns, pattern.IsRead)
    {path : String} : p.isMatch path = true ↔ p.Covers path := by
  rw [Paragraph.isMatch, List.any_eq_true]
  exact exists_congr fun pattern => and_congr_right fun hmem => (h pattern hmem).isMatch_iff

theorem getElem?_concat_eq_some_iff {α : Type} {l : List α} {a x : α} {i : Nat} :
    (l ++ [a])[i]? = some x ↔ l[i]? = some x ∨ i = l.length ∧ x = a := by
  rcases Nat.lt_trichotomy i l.length with hi | rfl | hi
  · simp [List.getElem?_append_left hi, Nat.ne_of_lt hi]
  · simp [eq_comm]
  · have hlength : (l ++ [a]).length ≤ i := by
      rw [List.length_append]
      exact hi
    simp [List.getElem?_eq_none hlength, Nat.ne_of_gt hi, Nat.le_of_lt hi]

/-- The last of its kind in a list, with its position. -/
theorem find?_reverse_zipIdx_eq_some_iff {α : Type} {q : α → Bool} {l : List α} {x : α} {i : Nat} :
    (l.zipIdx.reverse.find? fun y => q y.1) = some (x, i) ↔
      l[i]? = some x ∧ q x = true ∧ ∀ j y, i < j → l[j]? = some y → q y = false := by
  induction l using List.reverseRecOn with
  | nil => simp
  | append_singleton l a ih =>
      rw [List.zipIdx_append, List.reverse_append, List.zipIdx_singleton, List.reverse_singleton,
        List.singleton_append, List.find?_cons]
      simp only [getElem?_concat_eq_some_iff, Nat.zero_add]
      cases ha : q a with
      | true =>
          simp only [Option.some.injEq, Prod.mk.injEq]
          constructor
          · rintro ⟨rfl, rfl⟩
            refine ⟨.inr ⟨rfl, rfl⟩, ha, ?_⟩
            rintro j y hj (hy | ⟨rfl, -⟩)
            · exact absurd (List.getElem?_eq_some_iff.1 hy).1 (Nat.lt_asymm hj)
            · exact absurd hj (Nat.lt_irrefl _)
          · rintro ⟨hx | ⟨rfl, rfl⟩, -, hlast⟩
            · have hi : i < l.length := (List.getElem?_eq_some_iff.1 hx).1
              rw [hlast l.length a hi (.inr ⟨rfl, rfl⟩)] at ha
              cases ha
            · exact ⟨rfl, rfl⟩
      | false =>
          rw [ih]
          constructor
          · rintro ⟨hx, hq, hlast⟩
            refine ⟨.inl hx, hq, ?_⟩
            rintro j y hj (hy | ⟨-, rfl⟩)
            · exact hlast j y hj hy
            · exact ha
          · rintro ⟨hx | ⟨-, rfl⟩, hq, hlast⟩
            · exact ⟨hx, hq, fun j y hj hy => hlast j y hj (.inl hy)⟩
            · rw [ha] at hq
              cases hq

/-- **The last paragraph that covers a path counts**: it is the one that is
found, and where none covers the path none is. -/
theorem find?_eq_last {manifest text : String} {m : Dep5} (h : parse manifest text = .ok m)
    (path : String) :
    (∀ p i, m.find? path = some (p, i) ↔
        m.paragraphs[i]? = some p ∧ p.Covers path ∧
          ∀ j q, i < j → m.paragraphs[j]? = some q → ¬q.Covers path) ∧
      (m.find? path = none ↔ ∀ p ∈ m.paragraphs, ¬p.Covers path) := by
  have hcovers {p : Paragraph} (hp : p ∈ m.paragraphs) : p.isMatch path = true ↔ p.Covers path :=
    Paragraph.isMatch_iff (isRead_of_parse h p hp)
  have hnot {p : Paragraph} (hp : p ∈ m.paragraphs) : p.isMatch path = false ↔ ¬p.Covers path := by
    rw [← hcovers hp, Bool.not_eq_true]
  have hfind : m.find? path = m.paragraphs.zipIdx.reverse.find? fun y => y.1.isMatch path := rfl
  rw [hfind]
  constructor
  · intro p i
    rw [find?_reverse_zipIdx_eq_some_iff (q := fun p : Paragraph => p.isMatch path)]
    refine and_congr_right fun hi => and_congr (hcovers (List.mem_of_getElem? hi)) ?_
    refine forall_congr' fun j => forall_congr' fun q => imp_congr_right fun _ => ?_
    exact imp_congr_right fun hj => hnot (List.mem_of_getElem? hj)
  · rw [List.find?_eq_none]
    constructor
    · intro hnone p hp hcover
      obtain ⟨i, hi⟩ := List.mem_iff_getElem?.1 hp
      have hmem : (p, i) ∈ m.paragraphs.zipIdx.reverse :=
        List.mem_reverse.2 (List.mem_zipIdx_iff_getElem?.2 hi)
      exact hnone _ hmem ((hcovers hp).2 hcover)
    · rintro hnone ⟨p, i⟩ hmem hmatch
      have hp : p ∈ m.paragraphs :=
        List.mem_of_getElem? (List.mem_zipIdx_iff_getElem?.1 (List.mem_reverse.1 hmem))
      exact hnone p hp ((hcovers hp).1 hmatch)

/-- A manifest with two paragraphs about the files of a directory. -/
def nested : Dep5 where
  path := "dep5"
  paragraphs := [
    { patterns := [Pattern.ofSource "./src/"], copyrights := ["A"], license := "MIT" },
    { patterns := [Pattern.ofSource "*.c", Pattern.ofSource "src/\\?.?\\"]
      copyrights := ["B"]
      license := "ISC" }]

/-- Its text. -/
def nestedText : String :=
  "Format: x\n\nFiles: ./src/\nCopyright: A\nLicense: MIT\n\n" ++
    "Files: *.c src/\\?.?\\\nCopyright: B\nLicense: ISC\n"

theorem find?_eq_last_nested :
    parse "dep5" nestedText = .ok nested ∧
      (nested.find? "src/?.h\\").map Prod.snd = some 1 ∧
      ∀ p ∈ nested.paragraphs, ¬p.Covers "lib/a.h" := by
  have hparse : parse "dep5" nestedText = .ok nested := by decide +kernel
  refine ⟨hparse, ?_, ?_⟩
  · have hplain {c : Char} (h : c ∉ ['*', '?', '\\']) {cs us} := @Stands.plain c cs us h
    have hstands : Stands "src/\\?.?\\".toList (unitsOf "src/?.h\\".toList) :=
      hplain (by decide) <| hplain (by decide) <| hplain (by decide) <| hplain (by decide) <|
        .escaped '?' <| hplain (by decide) <| .one 0x68 .lone
    have hcovers : Paragraph.Covers nested.paragraphs[1] "src/?.h\\" :=
      ⟨Pattern.ofSource "src/\\?.?\\", by decide +kernel, .inl hstands⟩
    have hlast : ∀ j q, 1 < j → nested.paragraphs[j]? = some q → ¬q.Covers "src/?.h\\" := by
      intro j q hj hq
      have hnone : nested.paragraphs[j]? = none := List.getElem?_eq_none hj
      rw [hnone] at hq
      cases hq
    rw [((find?_eq_last hparse "src/?.h\\").1 nested.paragraphs[1] 1).2 ⟨rfl, hcovers, hlast⟩]
    rfl
  · have hnone : nested.find? "lib/a.h" = none := by
      simp [find?, nested, Paragraph.isMatch, Pattern.isMatch, Pattern.ofSource, dropStart?,
        lettersOf, exactly, units, unitsOf, spells]
    exact (find?_eq_last hparse "lib/a.h").2.1 hnone

end Dep5

end LicenseAudit
