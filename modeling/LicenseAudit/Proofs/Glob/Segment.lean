import LicenseAudit.Glob.Segment
import LicenseAudit.Proofs.Path

/-!
# What a segment spans

The texts that a segment of a pattern stands for: a star is any run of
characters without a slash, two stars are any run, and every other letter is
its character.  A segment is **literal** when none of the special forms
separates it from these texts, and then it accepts the names among them and no
others (`accepts_iff_spans`).

Two kinds of segments are not literal.  A marked bar next to a star separates
alternatives, and the tail after a star is compared as it is written, with the
backslashes of its marked characters.
-/

namespace LicenseAudit.Glob

open Text

/-- A letter by itself **takes** a run of characters. -/
def Letter.Takes : Letter → List Char → Prop
  | .star, run => '/' ∉ run
  | .plain c, run => run = [c]
  | .marked c, run => run = [c]

/-- A segment **spans** the texts that it stands for. -/
def Spans : List Letter → List Char → Prop
  | [], cs => cs = []
  | .star :: .star :: ls, cs => ∃ run rest, cs = run ++ rest ∧ Spans ls rest
  | l :: ls, cs => ∃ run rest, l.Takes run ∧ cs = run ++ rest ∧ Spans ls rest

variable {l : Letter} {ls : List Letter} {cs name : List Char}

/-- A letter that is not the first of two stars takes a run of its own. -/
theorem spans_cons (h : l = .star → ls.head? ≠ some .star) :
    Spans (l :: ls) cs ↔ ∃ run rest, l.Takes run ∧ cs = run ++ rest ∧ Spans ls rest := by
  rw [Spans]
  rintro ls' rfl rfl
  exact h rfl rfl

theorem spells_star_cons :
    spells (.star :: ls) cs = true ↔ ∃ run rest, cs = run ++ rest ∧ spells ls rest = true := by
  induction cs with
  | nil =>
      simp only [spells, List.nil_eq, List.append_eq_nil_iff]
      constructor
      · exact fun h => ⟨[], [], ⟨rfl, rfl⟩, h⟩
      · rintro ⟨_, _, ⟨-, rfl⟩, h⟩
        exact h
  | cons c cs ih =>
      rw [spells, Bool.or_eq_true, ih]
      constructor
      · rintro (h | ⟨run, rest, rfl, h⟩)
        · exact ⟨[], c :: cs, rfl, h⟩
        · exact ⟨c :: run, rest, rfl, h⟩
      · rintro ⟨run, rest, hsplit, h⟩
        cases run with
        | nil => exact .inl (hsplit ▸ h)
        | cons d run => exact .inr ⟨run, rest, (List.cons.inj hsplit).2, h⟩

theorem spells_char_cons {c : Char} (h : l.char? = some c) :
    spells (l :: ls) cs = true ↔ ∃ rest, cs = c :: rest ∧ spells ls rest = true := by
  have hnil : spells (l :: ls) [] = false := by
    cases l with
    | star => cases h
    | plain d => rw [spells]
    | marked d => rw [spells]
  have hcons (d : Char) (rest : List Char) :
      spells (l :: ls) (d :: rest) = (c == d && spells ls rest) := by
    cases l with
    | star => cases h
    | plain d => obtain rfl := Option.some.inj h; rw [spells]
    | marked d => obtain rfl := Option.some.inj h; rw [spells]
  cases cs with
  | nil => simp [hnil]
  | cons d rest =>
      rw [hcons, Bool.and_eq_true, beq_iff_eq]
      constructor
      · rintro ⟨rfl, hrest⟩
        exact ⟨rest, rfl, hrest⟩
      · rintro ⟨_, hsplit, hrest⟩
        obtain ⟨rfl, rfl⟩ := List.cons.inj hsplit
        exact ⟨rfl, hrest⟩

/-- In a text without slashes a letter spells what it takes. -/
theorem spells_cons (hslash : '/' ∉ cs) :
    spells (l :: ls) cs = true ↔
      ∃ run rest, l.Takes run ∧ cs = run ++ rest ∧ spells ls rest = true := by
  cases l with
  | star =>
      rw [spells_star_cons]
      constructor
      · rintro ⟨run, rest, rfl, h⟩
        exact ⟨run, rest, fun hrun => hslash (List.mem_append_left rest hrun), rfl, h⟩
      · rintro ⟨run, rest, -, rfl, h⟩
        exact ⟨run, rest, rfl, h⟩
  | plain c => simp [spells_char_cons (show (Letter.plain c).char? = some c from rfl), Letter.Takes]
  | marked c => simp [spells_char_cons (show (Letter.marked c).char? = some c from rfl), Letter.Takes]

/-- In a text without slashes the letters spell what they span. -/
theorem spells_iff_spans (hslash : '/' ∉ cs) : spells ls cs = true ↔ Spans ls cs := by
  fun_induction Spans ls cs with
  | case1 cs => rw [spells, List.isEmpty_iff]
  | case2 ls cs ih =>
      -- Two stars in a row spell a run of characters as one does.
      simp only [spells_star_cons]
      constructor
      · rintro ⟨run, _, rfl, run', rest, rfl, h⟩
        simp only [List.mem_append, not_or] at hslash
        exact ⟨run ++ run', rest, (List.append_assoc ..).symm, (ih rest hslash.2.2).1 h⟩
      · rintro ⟨run, rest, rfl, h⟩
        simp only [List.mem_append, not_or] at hslash
        exact ⟨[], run ++ rest, rfl, run, rest, rfl, (ih rest hslash.2).2 h⟩
  | case3 l ls cs _ ih =>
      rw [spells_cons hslash]
      refine exists_congr fun run => exists_congr fun rest => and_congr_right fun _ =>
        and_congr_right ?_
      rintro rfl
      exact ih rest fun hrest => hslash (List.mem_append_right run hrest)

/-- Letters without stars spell their characters. -/
theorem spells_iff_of_not_mem (h : .star ∉ ls) :
    spells ls cs = true ↔ ls.filterMap Letter.char? = cs := by
  induction ls generalizing cs with
  | nil => rw [spells, List.isEmpty_iff, List.filterMap_nil, eq_comm]
  | cons l ls ih =>
      obtain ⟨hl, hls⟩ := not_or.1 (mt List.mem_cons.2 h)
      obtain ⟨c, hc⟩ : ∃ c, l.char? = some c := by
        cases l with
        | star => exact absurd rfl hl
        | plain c => exact ⟨c, rfl⟩
        | marked c => exact ⟨c, rfl⟩
      rw [spells_char_cons hc, List.filterMap_cons_some hc]
      constructor
      · rintro ⟨rest, rfl, hrest⟩
        rw [(ih hls).1 hrest]
      · rintro rfl
        exact ⟨_, rfl, (ih hls).2 rfl⟩

/-- All the stars at the start spell one run. -/
theorem spells_stars :
    spells (.star :: ls) cs = true ↔
      ∃ run rest, cs = run ++ rest ∧ spells (ls.dropWhile (· == .star)) rest = true := by
  induction ls generalizing cs with
  | nil => exact spells_star_cons
  | cons l ls ih =>
      by_cases hl : l = .star
      · subst hl
        have hdrop : (Letter.star :: ls).dropWhile (· == .star) = ls.dropWhile (· == .star) :=
          List.dropWhile_cons_of_pos rfl
        rw [spells_star_cons, hdrop]
        simp only [ih]
        constructor
        · rintro ⟨run, _, rfl, run', rest, rfl, h⟩
          exact ⟨run ++ run', rest, (List.append_assoc ..).symm, h⟩
        · rintro ⟨run, rest, rfl, h⟩
          exact ⟨[], run ++ rest, rfl, run, rest, rfl, h⟩
      · rw [List.dropWhile_cons_of_neg (by simpa using hl)]
        exact spells_star_cons

/-- Whether a letter is marked. -/
def Letter.isMarked : Letter → Bool
  | .marked _ => true
  | _ => false

/-- A segment is **literal** when no special form separates it from the texts
that it spans: next to a star no bar is marked, and nothing is marked in a plain
tail after stars. -/
def IsLiteral (ls : List Letter) : Prop :=
  .star ∈ ls → .marked '|' ∉ ls ∧ ((plainTail? ls).isSome = true → ls.any Letter.isMarked = false)

instance (ls : List Letter) : Decidable (IsLiteral ls) :=
  inferInstanceAs (Decidable (_ → _))

/-- Without a marked bar there is one alternative. -/
theorem alternatives_eq (h : .marked '|' ∉ ls) : alternatives ls = [ls] := by
  induction ls with
  | nil => rfl
  | cons l ls ih =>
      obtain ⟨hl, hls⟩ := not_or.1 (mt List.mem_cons.2 h)
      rw [alternatives, if_neg (Ne.symm hl), ih hls]

/-- Letters that are written as they are read have no stars and no marks. -/
theorem flatMap_written_eq (hstop : (ls.flatMap Letter.written).any isTailStop = false)
    (hmarked : ls.any Letter.isMarked = false) :
    .star ∉ ls ∧ ls.flatMap Letter.written = ls.filterMap Letter.char? := by
  induction ls with
  | nil => exact ⟨List.not_mem_nil, rfl⟩
  | cons l ls ih =>
      rw [List.flatMap_cons, List.any_append, Bool.or_eq_false_iff] at hstop
      rw [List.any_cons, Bool.or_eq_false_iff] at hmarked
      obtain ⟨hstar, hwritten⟩ := ih hstop.2 hmarked.2
      cases l with
      | star => exact absurd hstop.1 (by decide)
      | plain c =>
          refine ⟨by simpa using hstar, ?_⟩
          have hchar : (Letter.plain c).char? = some c := rfl
          rw [List.flatMap_cons, List.filterMap_cons_some hchar, hwritten]
          rfl
      | marked c => exact absurd hmarked.1 (by simp [Letter.isMarked])

theorem isDots_eq (h : Path.IsName (String.ofList name)) : isDots name = false := by
  have hne {dots : List Char} (hdots : String.ofList name ≠ String.ofList dots) : name ≠ dots :=
    fun he => hdots (congrArg _ he)
  simpa [isDots] using ⟨hne h.ne_here, hne h.ne_above⟩

/-- Stars and a plain tail without marks spell the texts that end with it. -/
theorem spells_iff_of_plainTail? {tail : List Char} (htail : plainTail? ls = some tail)
    (hmarked : ls.any Letter.isMarked = false) :
    spells ls cs = true ↔ ∃ before, cs = before ++ tail := by
  match ls with
  | .star :: ls =>
      have hdrop : (Letter.star :: ls).dropWhile (· == .star) = ls.dropWhile (· == .star) :=
        List.dropWhile_cons_of_pos rfl
      simp only [plainTail?, hdrop, Option.ite_none_left_eq_some, Bool.not_eq_true,
        Option.some.injEq] at htail
      obtain ⟨hstop, rfl⟩ := htail
      have hrest : (ls.dropWhile (· == .star)).any Letter.isMarked = false := by
        rw [List.any_eq_false] at hmarked ⊢
        exact fun l hl =>
          hmarked l (List.mem_cons_of_mem _ ((List.dropWhile_sublist _).subset hl))
      obtain ⟨hfree, hwritten⟩ := flatMap_written_eq hstop hrest
      rw [spells_stars, hwritten]
      simp only [spells_iff_of_not_mem hfree, exists_eq_right']

/-- A literal segment accepts the names that its letters spell. -/
theorem accepts_iff_spells (hliteral : IsLiteral ls) (hname : Path.IsName (String.ofList name)) :
    accepts ls name = true ↔ spells ls name = true := by
  have hdots := isDots_eq hname
  by_cases hstar : .star ∈ ls
  · obtain ⟨hbar, hmarks⟩ := hliteral hstar
    have hcontains : ls.contains .star = true := by simpa using hstar
    rw [accepts, hcontains]
    cases htail : plainTail? ls with
    | none => simp [acceptsStarred, alternatives_eq hbar, unbound, hdots]
    | some tail =>
        rw [spells_iff_of_plainTail? htail (hmarks (by rw [htail]; rfl))]
        cases tail with
        | nil => simpa [hdots] using hname.ne_empty
        | cons c tail => simpa using isSome_dropEnd?_iff
  · have hcontains : ls.contains .star = false := by simpa using hstar
    rw [accepts, hcontains, spells_iff_of_not_mem hstar]
    simp

/-- **A literal segment accepts the names that it spans.** -/
theorem accepts_iff_spans (hliteral : IsLiteral ls) (hname : Path.IsName (String.ofList name)) :
    accepts ls name = true ↔ Spans ls name := by
  have hslash : '/' ∉ name := by simpa using hname.no_slash
  rw [accepts_iff_spells hliteral hname, spells_iff_spans hslash]

end LicenseAudit.Glob
