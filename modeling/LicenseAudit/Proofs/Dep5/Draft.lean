import LicenseAudit.Proofs.Dep5.Lines
import Mathlib.Logic.Relation

/-!
# Reading without line numbers

Line numbers appear in the faults of a manifest and in nothing else that is read
from it.  A draft is therefore **skimmed**, its lines read as if all had the
number zero, and what can be skimmed can be read, with the same fields in the
same paragraphs (`exists_blocksOf_of_skim`).

Comments leave every draft as it is, and a second blank line leaves what the
first has left, so lines of both kinds may be put in without changing what is
skimmed (`skim_eq_of_isPadded`).
-/

namespace LicenseAudit.Dep5

open Text

/-- A paragraph without the number of its first line. -/
def Block.unnumbered (b : Block) : Block :=
  { b with line := 0 }

theorem Block.unnumbered_extend (b : Block) (value : String) :
    (b.extend value).unnumbered = b.unnumbered.extend value := by
  simp only [Block.extend, Block.unnumbered]
  split <;> rfl

namespace Draft

variable {d e : Draft} {line : Line} {lines lines' : List Line}

/-- A draft without line numbers. -/
def unnumbered (d : Draft) : Draft :=
  ⟨d.closed.map Block.unnumbered, d.current.map Block.unnumbered⟩

theorem unnumbered_blocks (d : Draft) :
    d.unnumbered.blocks = d.blocks.map Block.unnumbered := by
  cases hcurrent : d.current <;> simp [blocks, unnumbered, hcurrent]

/-- A line is read alike whatever its number. -/
theorem toOption_read_unnumbered (d : Draft) (n : Nat) (line : Line) :
    (d.unnumbered.read 0 line).toOption = (d.read n line).toOption.map unnumbered := by
  obtain ⟨closed, current⟩ := d
  cases line with
  | blank =>
      have hblocks := unnumbered_blocks ⟨closed, current⟩
      simp only [read, Except.toOption, Option.map_some, hblocks]
      rfl
  | comment => rfl
  | continuation value =>
      cases current with
      | none => rfl
      | some b => simp [read, unnumbered, Except.toOption, Block.unnumbered_extend]
  | field name value =>
      cases current with
      | none => rfl
      | some b => rfl
  | other => rfl

/-- The draft after some lines, their numbers left out. -/
def skim (d : Draft) (lines : List Line) : Option Draft :=
  lines.foldlM (fun d line => (d.read 0 line).toOption) d

theorem skim_cons (d : Draft) (line : Line) (lines : List Line) :
    d.skim (line :: lines) = ((d.read 0 line).toOption).bind (·.skim lines) :=
  List.foldlM_cons

theorem skim_append (d : Draft) (lines lines' : List Line) :
    d.skim (lines ++ lines') = (d.skim lines).bind (·.skim lines') :=
  List.foldlM_append

/-- What can be skimmed can be read. -/
theorem exists_foldlM_of_skim (h : d.unnumbered.skim lines = some e) (n : Nat) :
    ∃ d', (lines.zipIdx n).foldlM (fun (d : Draft) (line, n) => d.read n line) d = .ok d' ∧
      d'.unnumbered = e := by
  induction lines generalizing d n with
  | nil =>
      exact ⟨d, rfl, Option.some.inj h⟩
  | cons line lines ih =>
      rw [skim_cons, toOption_read_unnumbered d n] at h
      cases hread : d.read n line with
      | error fault =>
          rw [hread] at h
          cases h
      | ok next =>
          rw [hread] at h
          obtain ⟨d', hfold, hd'⟩ := ih h (n + 1)
          refine ⟨d', ?_, hd'⟩
          rw [List.zipIdx_cons, List.foldlM_cons]
          simp only [hread]
          exact hfold

/-- Continuations are further values of the field above them. -/
theorem skim_continuations (closed : List Block) (name : String) (values : List String)
    (rest : List (String × List String)) (more : List String) (lines : List Line) :
    skim ⟨closed, some ⟨0, (name, values) :: rest⟩⟩ (more.map .continuation ++ lines) =
      skim ⟨closed, some ⟨0, (name, values ++ more) :: rest⟩⟩ lines := by
  induction more generalizing values with
  | nil => rw [List.map_nil, List.nil_append, List.append_nil]
  | cons value more ih =>
      have hread : read ⟨closed, some ⟨0, (name, values) :: rest⟩⟩ 0 (.continuation value) =
          .ok ⟨closed, some ⟨0, (name, values ++ [value]) :: rest⟩⟩ := rfl
      rw [List.map_cons, List.cons_append, skim_cons, hread, Except.toOption, Option.bind_some, ih,
        List.append_assoc, List.singleton_append]

/-- The paragraphs of a text that can be skimmed have the fields that are
skimmed. -/
theorem exists_blocksOf_of_skim {text : String} {ls : List (List Char)}
    (hlines : pieces '\n' (unixText text.toList) = ls)
    (h : skim ⟨[], none⟩ (ls.map Line.ofChars) = some e) :
    ∃ blocks, blocksOf text = .ok blocks ∧ blocks.map Block.back = e.blocks.map Block.back := by
  obtain ⟨d, hfold, rfl⟩ := exists_foldlM_of_skim (d := ⟨[], none⟩) h 1
  refine ⟨d.blocks, ?_, ?_⟩
  · rw [blocksOf, linesOf, hlines, hfold]
    rfl
  · rw [unnumbered_blocks, List.map_map]
    rfl

theorem skim_comment (d : Draft) (lines : List Line) : d.skim (.comment :: lines) = d.skim lines :=
  skim_cons d .comment lines

/-- After a blank line another leaves no more than it. -/
theorem skim_blank_blank (d : Draft) (lines : List Line) :
    d.skim (.blank :: .blank :: lines) = d.skim (.blank :: lines) := by
  have htwice : read ⟨d.blocks, none⟩ 0 .blank = .ok ⟨d.blocks, none⟩ := by
    simp [read, blocks]
  rw [skim_cons, skim_cons]
  simp only [read, Except.toOption, Option.bind_some]
  rw [skim_cons, htwice]
  rfl

end Draft

/-- One more line: a comment anywhere, or a blank line beside another. -/
inductive IsPadded : List (List Char) → List (List Char) → Prop
  | comment (front back : List (List Char)) (cs : List Char) :
      IsPadded (front ++ back) (front ++ ('#' :: cs) :: back)
  | blank (front back : List (List Char)) {line one two : List Char}
      (hline : ∀ c ∈ line, isBlank c = true) (hone : ∀ c ∈ one, isBlank c = true)
      (htwo : ∀ c ∈ two, isBlank c = true) :
      IsPadded (front ++ line :: back) (front ++ one :: two :: back)

/-- One more line changes nothing that is skimmed. -/
theorem Draft.skim_eq_of_isPadded {ls ls' : List (List Char)} (h : IsPadded ls ls') (d : Draft) :
    d.skim (ls'.map Line.ofChars) = d.skim (ls.map Line.ofChars) := by
  cases h with
  | comment front back cs =>
      simp only [List.map_append, List.map_cons, skim_append, ofChars_comment, skim_comment]
  | blank front back hline hone htwo =>
      simp only [List.map_append, List.map_cons, skim_append, ofChars_of_isBlank hline,
        ofChars_of_isBlank hone, ofChars_of_isBlank htwo, skim_blank_blank]

/-- No number of further lines changes what is skimmed. -/
theorem Draft.skim_eq_of_padded {ls ls' : List (List Char)}
    (h : Relation.ReflTransGen IsPadded ls ls') (d : Draft) :
    d.skim (ls'.map Line.ofChars) = d.skim (ls.map Line.ofChars) := by
  induction h with
  | refl => rfl
  | tail _ hstep ih => exact (skim_eq_of_isPadded hstep d).trans ih

end LicenseAudit.Dep5
