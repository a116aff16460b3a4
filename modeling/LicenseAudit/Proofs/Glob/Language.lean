import LicenseAudit.Glob.Pattern
import LicenseAudit.Proofs.Glob.Segment

/-!
# The language of a path pattern

Segments **describe** the names of a path: a globstar stands for any run of
names, which is not empty when nothing follows, and every other segment for a
run of names whose path it spans.  The parts of a variant **fit** names when
every globstar stands for such a run and every segment spans one name.

What the variants of a pattern fit is what its segments describe
(`describes_iff_variantsOf`).  The two ways to read two stars inside a segment
are staying in a name and crossing into another one, and a run of names is
spanned through the one or the other (`fits_crossings`).
-/

namespace LicenseAudit.Glob

open Text

/-- Segments **describe** the names of a path. -/
inductive Describes : List (List Letter) → List (List Char) → Prop
  | nil : Describes [] []
  | globstar {segments : List (List Letter)} {run names : List (List Char)}
      (hrun : segments = [] → run ≠ []) (h : Describes segments names) :
      Describes ([.star, .star] :: segments) (run ++ names)
  | segment {ls : List Letter} {segments : List (List Letter)} {run names : List (List Char)}
      (hls : ls ≠ [.star, .star]) (hrun : run ≠ []) (hspans : Spans ls (joined ['/'] run))
      (h : Describes segments names) : Describes (ls :: segments) (run ++ names)

/-- The parts of a variant **fit** names. -/
inductive Fits : List Part → List (List Char) → Prop
  | nil : Fits [] []
  | globstar {ps : List Part} {run names : List (List Char)} (hrun : ps = [] → run ≠ [])
      (h : Fits ps names) : Fits (.globstar :: ps) (run ++ names)
  | segment {ls : List Letter} {ps : List Part} {name : List Char} {names : List (List Char)}
      (hspans : Spans ls name) (h : Fits ps names) : Fits (.segment ls :: ps) (name :: names)

variable {ls s : List Letter} {ss e : List (List Letter)} {segments : List (List Letter)}
variable {ps qs : List Part} {cs : List Char} {names : List (List Char)}

theorem fits_nil : Fits [] names ↔ names = [] :=
  ⟨fun | .nil => rfl, fun h => h ▸ .nil⟩

theorem fits_globstar_cons :
    Fits (.globstar :: ps) names ↔
      ∃ run rest, names = run ++ rest ∧ (ps = [] → run ≠ []) ∧ Fits ps rest :=
  ⟨fun | .globstar hrun h => ⟨_, _, rfl, hrun, h⟩,
    fun ⟨_, _, hsplit, hrun, h⟩ => hsplit ▸ .globstar hrun h⟩

theorem fits_segment_cons :
    Fits (.segment ls :: ps) names ↔
      ∃ name rest, names = name :: rest ∧ Spans ls name ∧ Fits ps rest :=
  ⟨fun | .segment hspans h => ⟨_, _, rfl, hspans, h⟩,
    fun ⟨_, _, hsplit, hspans, h⟩ => hsplit ▸ .segment hspans h⟩

/-- Three stars in a row are no segment's letters. -/
def HasNoTriple (ls : List Letter) : Prop :=
  ¬ [.star, .star, .star] <:+: ls

instance (ls : List Letter) : Decidable (HasNoTriple ls) :=
  inferInstanceAs (Decidable (¬ _))

theorem HasNoTriple.of_cons {l : Letter} (h : HasNoTriple (l :: ls)) : HasNoTriple ls :=
  fun hside => h (hside.trans (List.infix_cons (List.infix_refl ls)))

theorem HasNoTriple.head?_ne (h : HasNoTriple (.star :: .star :: ls)) :
    ls.head? ≠ some .star := by
  intro hhead
  obtain ⟨ls, rfl⟩ := List.head?_eq_some_iff.1 hhead
  exact h (List.prefix_append [.star, .star, .star] ls).isInfix

theorem ne_nil_of_mem_crossings (h : e ∈ crossings ls) : e ≠ [] := by
  fun_induction crossings ls with
  | case1 =>
      obtain rfl := List.mem_singleton.1 h
      exact List.cons_ne_nil _ _
  | case2 ls ih =>
      obtain ⟨e', -, he⟩ := List.mem_flatMap.1 h
      cases e' with
      | nil => cases he
      | cons s ss => rcases List.mem_pair.1 he with rfl | rfl <;> exact List.cons_ne_nil _ _
  | case3 l ls _ ih =>
      obtain ⟨e', -, rfl⟩ := List.mem_map.1 h
      cases e' <;> exact List.cons_ne_nil _ _

theorem mem_crossings_double :
    e ∈ crossings (.star :: .star :: ls) ↔ ∃ s ss, s :: ss ∈ crossings ls ∧
      (e = (.star :: s) :: ss ∨ e = [.star] :: [.star, .star] :: (.star :: s) :: ss) := by
  rw [crossings, List.mem_flatMap]
  constructor
  · rintro ⟨e', he', he⟩
    obtain ⟨s, ss, rfl⟩ := List.exists_cons_of_ne_nil (ne_nil_of_mem_crossings he')
    exact ⟨s, ss, he', List.mem_pair.1 he⟩
  · rintro ⟨s, ss, he', he⟩
    exact ⟨_, he', List.mem_pair.2 he⟩

theorem head?_ne_of_single {l : Letter} (h : ∀ ls', l = .star → ls = .star :: ls' → False)
    (hl : l = .star) : ls.head? ≠ some .star := by
  intro hhead
  obtain ⟨ls', rfl⟩ := List.head?_eq_some_iff.1 hhead
  exact h ls' hl rfl

theorem mem_crossings_cons {l : Letter} (h : l = .star → ls.head? ≠ some .star) :
    e ∈ crossings (l :: ls) ↔ ∃ s ss, s :: ss ∈ crossings ls ∧ e = (l :: s) :: ss := by
  rw [crossings, List.mem_map]
  · constructor
    · rintro ⟨e', he', rfl⟩
      obtain ⟨s, ss, rfl⟩ := List.exists_cons_of_ne_nil (ne_nil_of_mem_crossings he')
      exact ⟨s, ss, he', rfl⟩
    · rintro ⟨s, ss, he', rfl⟩
      exact ⟨_, he', rfl⟩
  · rintro ls' rfl rfl
    exact h rfl rfl

/-- A crossing begins as its segment does. -/
theorem head?_of_mem_crossings (h : s :: ss ∈ crossings ls) : s.head? = ls.head? := by
  induction ls using crossings.induct with
  | case1 =>
      obtain ⟨rfl, -⟩ : s = [] ∧ ss = [] := by simpa [crossings] using h
      rfl
  | case2 ls ih =>
      obtain ⟨s', ss', -, he | he⟩ := mem_crossings_double.1 h <;>
      · obtain ⟨rfl, -⟩ := List.cons.inj he
        rfl
  | case3 l ls hsingle ih =>
      obtain ⟨s', ss', -, he⟩ := (mem_crossings_cons (head?_ne_of_single hsingle)).1 h
      obtain ⟨rfl, -⟩ := List.cons.inj he
      rfl

theorem ne_globstar_of_mem_crossings (hstars : HasNoTriple ls) (h : s :: ss ∈ crossings ls) :
    s ≠ [.star, .star] := by
  rintro rfl
  induction ls using crossings.induct with
  | case1 => simp [crossings] at h
  | case2 ls _ =>
      obtain ⟨s', ss', hmem, he | he⟩ := mem_crossings_double.1 h
      · obtain ⟨hs, -⟩ := List.cons.inj he
        obtain rfl := (List.cons.inj hs).2
        exact hstars.head?_ne (head?_of_mem_crossings hmem).symm
      · exact absurd (List.cons.inj he).1 (by simp)
  | case3 l ls hsingle _ =>
      have hl := head?_ne_of_single hsingle
      obtain ⟨s', ss', hmem, he⟩ := (mem_crossings_cons hl).1 h
      obtain ⟨hs, -⟩ := List.cons.inj he
      obtain ⟨rfl, rfl⟩ := List.cons.inj hs
      exact hl rfl (head?_of_mem_crossings hmem).symm

theorem ofLetters_star_cons (h : s.head? ≠ some .star) :
    Part.ofLetters (.star :: s) = .segment (.star :: s) := by
  refine if_neg fun he => h ?_
  rw [(List.cons.inj he).2]
  rfl

/-- A letter takes a run of the first of the names that are spanned. -/
theorem spans_cons_joined {l : Letter} {run : List (List Char)}
    (h : l = .star → ls.head? ≠ some .star) (hslash : l.char? ≠ some '/') :
    Spans (l :: ls) (joined ['/'] (cs :: run)) ↔
      ∃ a b, l.Takes a ∧ cs = a ++ b ∧ Spans ls (joined ['/'] (b :: run)) := by
  have hfree {a : List Char} (ha : l.Takes a) : '/' ∉ a := by
    cases l with
    | star => exact ha
    | plain c => obtain rfl := ha; simpa [Letter.char?, eq_comm] using hslash
    | marked c => obtain rfl := ha; simpa [Letter.char?, eq_comm] using hslash
  rw [spans_cons h]
  constructor
  · rintro ⟨a, rest, ha, hjoined, hrest⟩
    obtain ⟨b, rfl, rfl⟩ := (joined_eq_append_iff (hfree ha)).1 hjoined
    exact ⟨a, b, ha, rfl, hrest⟩
  · rintro ⟨a, b, ha, rfl, hrest⟩
    exact ⟨a, _, ha, joined_append_cons .., hrest⟩

/-- The first segment of a crossing takes the rest `cs` of a name, and what
follows it fits the names after that. -/
def Crosses (ls : List Letter) (qs : List Part) (cs : List Char) (names : List (List Char)) :
    Prop :=
  ∃ s ss, s :: ss ∈ crossings ls ∧ Spans s cs ∧ Fits (ss.map Part.ofLetters ++ qs) names

/-- A segment spans the rest `cs` of a name and a run of names after it, and
`qs` fits the others. -/
def Reaches (ls : List Letter) (qs : List Part) (cs : List Char) (names : List (List Char)) :
    Prop :=
  ∃ run rest, names = run ++ rest ∧ Spans ls (joined ['/'] (cs :: run)) ∧ Fits qs rest

theorem crosses_nil : Crosses [] qs cs names ↔ cs = [] ∧ Fits qs names := by
  constructor
  · rintro ⟨s, ss, hmem, hspans, hfits⟩
    obtain ⟨rfl, rfl⟩ : s = [] ∧ ss = [] := by simpa [crossings] using hmem
    exact ⟨hspans, hfits⟩
  · rintro ⟨hcs, hfits⟩
    exact ⟨[], [], List.mem_singleton_self _, hcs, hfits⟩

theorem reaches_nil : Reaches [] qs cs names ↔ cs = [] ∧ Fits qs names := by
  constructor
  · rintro ⟨run, rest, rfl, hspans, hfits⟩
    cases run with
    | nil => exact ⟨hspans, hfits⟩
    | cons name run => simp [Spans, joined] at hspans
  · rintro ⟨hcs, hfits⟩
    exact ⟨[], names, rfl, hcs, hfits⟩

theorem crosses_cons {l : Letter} (h : l = .star → ls.head? ≠ some .star) :
    Crosses (l :: ls) qs cs names ↔ ∃ a b, l.Takes a ∧ cs = a ++ b ∧ Crosses ls qs b names := by
  have hhead {s ss} (hmem : s :: ss ∈ crossings ls) : l = .star → s.head? ≠ some .star := by
    rwa [head?_of_mem_crossings hmem]
  constructor
  · rintro ⟨_, ss, hcross, hfirst, hfits⟩
    obtain ⟨s, _, hmem, he⟩ := (mem_crossings_cons h).1 hcross
    obtain ⟨rfl, rfl⟩ := List.cons.inj he
    obtain ⟨a, b, ha, rfl, hspans⟩ := (spans_cons (hhead hmem)).1 hfirst
    exact ⟨a, b, ha, rfl, s, ss, hmem, hspans, hfits⟩
  · rintro ⟨a, b, ha, rfl, s, ss, hmem, hspans, hfits⟩
    exact ⟨l :: s, ss, (mem_crossings_cons h).2 ⟨s, ss, hmem, rfl⟩,
      (spans_cons (hhead hmem)).2 ⟨a, b, ha, rfl, hspans⟩, hfits⟩

theorem reaches_cons {l : Letter} (h : l = .star → ls.head? ≠ some .star)
    (hslash : l.char? ≠ some '/') :
    Reaches (l :: ls) qs cs names ↔ ∃ a b, l.Takes a ∧ cs = a ++ b ∧ Reaches ls qs b names := by
  constructor
  · rintro ⟨run, rest, rfl, hwhole, hfits⟩
    obtain ⟨a, b, ha, rfl, hspans⟩ := (spans_cons_joined h hslash).1 hwhole
    exact ⟨a, b, ha, rfl, run, rest, rfl, hspans, hfits⟩
  · rintro ⟨a, b, ha, rfl, run, rest, rfl, hspans, hfits⟩
    exact ⟨run, rest, rfl, (spans_cons_joined h hslash).2 ⟨a, b, ha, rfl, hspans⟩, hfits⟩

/-- Two stars stay in the name or cross into one after it. -/
theorem crosses_double (h : HasNoTriple (.star :: .star :: ls)) (hcs : '/' ∉ cs)
    (hnames : ∀ name ∈ names, '/' ∉ name) :
    Crosses (.star :: .star :: ls) qs cs names ↔
      (∃ a b, cs = a ++ b ∧ Crosses ls qs b names) ∨
        ∃ skipped a b others, names = skipped ++ (a ++ b) :: others ∧ Crosses ls qs b others := by
  have hspans {s ss cs} (hmem : s :: ss ∈ crossings ls) (hcs : '/' ∉ cs) :
      Spans (.star :: s) cs ↔ ∃ a b, cs = a ++ b ∧ Spans s b := by
    have hhead : s.head? ≠ some .star := by
      rw [head?_of_mem_crossings hmem]
      exact h.head?_ne
    rw [spans_cons fun _ => hhead]
    refine exists_congr fun a => exists_congr fun b => and_iff_right_of_imp ?_
    rintro ⟨rfl, -⟩ ha
    exact hcs (List.mem_append_left b ha)
  have hpart {s ss} (hmem : s :: ss ∈ crossings ls) :
      Part.ofLetters (.star :: s) = .segment (.star :: s) :=
    ofLetters_star_cons (by rw [head?_of_mem_crossings hmem]; exact h.head?_ne)
  constructor
  · rintro ⟨_, _, hcross, hfirst, hfits⟩
    obtain ⟨s, ss, hmem, he | he⟩ := mem_crossings_double.1 hcross
    · obtain ⟨rfl, rfl⟩ := List.cons.inj he
      obtain ⟨a, b, rfl, hb⟩ := (hspans hmem hcs).1 hfirst
      exact .inl ⟨a, b, rfl, s, _, hmem, hb, hfits⟩
    · obtain ⟨rfl, rfl⟩ := List.cons.inj he
      rw [List.map_cons, List.map_cons, hpart hmem] at hfits
      obtain ⟨skipped, _, rfl, -, hlater⟩ := fits_globstar_cons.1 hfits
      obtain ⟨name, others, rfl, hname, hothers⟩ := fits_segment_cons.1 hlater
      obtain ⟨a, b, rfl, hb⟩ := (hspans hmem (hnames name (by simp))).1 hname
      exact .inr ⟨skipped, a, b, others, rfl, s, ss, hmem, hb, hothers⟩
  · rintro (⟨a, b, rfl, s, ss, hmem, hb, hfits⟩ | ⟨skipped, a, b, others, rfl, s, ss, hmem, hb, hfits⟩)
    · exact ⟨_, ss, mem_crossings_double.2 ⟨s, ss, hmem, .inl rfl⟩,
        (hspans hmem hcs).2 ⟨a, b, rfl, hb⟩, hfits⟩
    · have hstar : Spans [.star] cs := (spans_cons (by simp)).2 ⟨cs, [], hcs, by simp, rfl⟩
      have hname : Spans (.star :: s) (a ++ b) :=
        (hspans hmem (hnames _ (by simp))).2 ⟨a, b, rfl, hb⟩
      refine ⟨_, _, mem_crossings_double.2 ⟨s, ss, hmem, .inr rfl⟩, hstar, ?_⟩
      rw [List.map_cons, List.map_cons, hpart hmem]
      exact .globstar nofun (.segment hname hfits)

theorem reaches_double :
    Reaches (.star :: .star :: ls) qs cs names ↔
      (∃ a b, cs = a ++ b ∧ Reaches ls qs b names) ∨
        ∃ skipped a b others, names = skipped ++ (a ++ b) :: others ∧ Reaches ls qs b others := by
  constructor
  · rintro ⟨run, rest, rfl, ⟨before, _, hbefore, hspans⟩, hfits⟩
    rcases exists_joined_eq_append_iff.1 ⟨before, hbefore⟩ with
      ⟨a, b, rfl, rfl⟩ | ⟨skipped, a, b, others, rfl, rfl⟩
    · exact .inl ⟨a, b, rfl, run, rest, rfl, hspans, hfits⟩
    · exact .inr ⟨skipped, a, b, others ++ rest, by simp, others, rest, rfl, hspans, hfits⟩
  · rintro (⟨a, b, rfl, run, rest, rfl, hspans, hfits⟩ |
      ⟨skipped, a, b, _, rfl, run, rest, rfl, hspans, hfits⟩)
    · obtain ⟨before, hbefore⟩ := exists_joined_eq_append_iff.2 (.inl ⟨a, b, rfl, rfl⟩)
      exact ⟨run, rest, rfl, ⟨before, _, hbefore, hspans⟩, hfits⟩
    · obtain ⟨before, hbefore⟩ :=
        exists_joined_eq_append_iff.2 (.inr ⟨skipped, a, b, run, rfl, rfl⟩)
      exact ⟨skipped ++ (a ++ b) :: run, rest, by simp, ⟨before, _, hbefore, hspans⟩, hfits⟩

/-- **What the crossings of a segment take is what it reaches.** -/
theorem crosses_iff_reaches (hstars : HasNoTriple ls) (hslashes : ∀ l ∈ ls, l.char? ≠ some '/')
    (hcs : '/' ∉ cs) (hnames : ∀ name ∈ names, '/' ∉ name) :
    Crosses ls qs cs names ↔ Reaches ls qs cs names := by
  have hrest {a b : List Char} (h : '/' ∉ a ++ b) : '/' ∉ b :=
    fun hb => h (List.mem_append_right a hb)
  induction ls using crossings.induct generalizing cs names with
  | case1 => rw [crosses_nil, reaches_nil]
  | case2 ls ih =>
      have hiff {cs : List Char} {names : List (List Char)} :=
        @ih cs names hstars.of_cons.of_cons fun l hl => hslashes l (by simp [hl])
      rw [crosses_double hstars hcs hnames, reaches_double]
      refine or_congr ?_ ?_
      · refine exists_congr fun a => exists_congr fun b => and_congr_right ?_
        rintro rfl
        exact hiff (hrest hcs) hnames
      · refine exists_congr fun skipped => exists_congr fun a => exists_congr fun b =>
          exists_congr fun others => and_congr_right ?_
        rintro rfl
        have hname : '/' ∉ a ++ b := hnames (a ++ b) (by simp)
        exact hiff (hrest hname) fun n hn => hnames n (by simp [hn])
  | case3 l ls hsingle ih =>
      have hl := head?_ne_of_single hsingle
      rw [crosses_cons hl, reaches_cons hl (hslashes l List.mem_cons_self)]
      refine exists_congr fun a => exists_congr fun b => and_congr_right fun _ =>
        and_congr_right ?_
      rintro rfl
      exact ih hstars.of_cons (fun l hl => hslashes l (List.mem_cons_of_mem _ hl)) (hrest hcs) hnames

theorem describes_nil : Describes [] names ↔ names = [] :=
  ⟨fun | .nil => rfl, fun h => h ▸ .nil⟩

theorem describes_globstar_cons :
    Describes ([.star, .star] :: segments) names ↔
      ∃ run rest, names = run ++ rest ∧ (segments = [] → run ≠ []) ∧ Describes segments rest := by
  constructor
  · intro h
    cases h with
    | globstar hrun h => exact ⟨_, _, rfl, hrun, h⟩
    | segment hls => exact absurd rfl hls
  · rintro ⟨run, rest, rfl, hrun, h⟩
    exact .globstar hrun h

theorem describes_segment_cons (hls : ls ≠ [.star, .star]) :
    Describes (ls :: segments) names ↔
      ∃ run rest, names = run ++ rest ∧ run ≠ [] ∧ Spans ls (joined ['/'] run) ∧
        Describes segments rest := by
  constructor
  · intro h
    cases h with
    | globstar => exact absurd rfl hls
    | segment _ hrun hspans h => exact ⟨_, _, rfl, hrun, hspans, h⟩
  · rintro ⟨run, rest, rfl, hrun, hspans, h⟩
    exact .segment hls hrun hspans h

/-- The letters of a segment are **regular** when no three stars stand in a row
and none is a slash. -/
structure IsRegular (ls : List Letter) : Prop where
  stars : HasNoTriple ls
  slashes : ∀ l ∈ ls, l.char? ≠ some '/'

/-- What the expansions of a segment fit is a run of names that it spans. -/
theorem fits_expansions (hls : ls ≠ [.star, .star]) (hregular : IsRegular ls)
    (hnames : ∀ name ∈ names, '/' ∉ name) :
    (∃ e ∈ expansions ls, Fits (e.map Part.ofLetters ++ qs) names) ↔
      ∃ run rest, names = run ++ rest ∧ run ≠ [] ∧ Spans ls (joined ['/'] run) ∧ Fits qs rest := by
  have hpart {s ss} (hmem : s :: ss ∈ crossings ls) : Part.ofLetters s = .segment s :=
    if_neg (ne_globstar_of_mem_crossings hregular.stars hmem)
  have hiff {cs others} (h : names = cs :: others) := @crosses_iff_reaches ls qs cs others
    hregular.stars hregular.slashes (hnames cs (by simp [h])) fun n hn => hnames n (by simp [h, hn])
  rw [expansions, if_neg hls]
  constructor
  · rintro ⟨e, hmem, hfits⟩
    obtain ⟨s, ss, rfl⟩ := List.exists_cons_of_ne_nil (ne_nil_of_mem_crossings hmem)
    rw [List.map_cons, hpart hmem] at hfits
    obtain ⟨cs, others, rfl, hspans, hfits⟩ := fits_segment_cons.1 hfits
    obtain ⟨run, rest, rfl, hspans, hfits⟩ := (hiff rfl).1 ⟨s, ss, hmem, hspans, hfits⟩
    exact ⟨cs :: run, rest, rfl, List.cons_ne_nil _ _, hspans, hfits⟩
  · rintro ⟨run, rest, rfl, hrun, hspans, hfits⟩
    obtain ⟨cs, run, rfl⟩ := List.exists_cons_of_ne_nil hrun
    obtain ⟨s, ss, hmem, hspans, hfits⟩ := (hiff rfl).2 ⟨run, rest, rfl, hspans, hfits⟩
    refine ⟨s :: ss, hmem, ?_⟩
    rw [List.map_cons, hpart hmem]
    exact .segment hspans hfits

theorem ne_nil_of_mem_expansions (h : e ∈ expansions ls) : e ≠ [] := by
  unfold expansions at h
  split at h
  · exact List.mem_singleton.1 h ▸ List.cons_ne_nil _ _
  · exact ne_nil_of_mem_crossings h

theorem mem_variantsOf_cons {v : List (List Letter)} :
    v ∈ variantsOf (ls :: segments) ↔
      ∃ e ∈ expansions ls, ∃ v' ∈ variantsOf segments, v = e ++ v' := by
  simp only [variantsOf, List.mem_flatMap, List.mem_map, eq_comm]

/-- Only no segments have an empty variant. -/
theorem eq_nil_iff_of_mem_variantsOf {v : List (List Letter)} (h : v ∈ variantsOf segments) :
    v = [] ↔ segments = [] := by
  cases segments with
  | nil => exact iff_of_true (List.mem_singleton.1 h) rfl
  | cons ls segments =>
      obtain ⟨e, he, v', -, rfl⟩ := mem_variantsOf_cons.1 h
      exact iff_of_false (by simp [ne_nil_of_mem_expansions he]) (List.cons_ne_nil _ _)

/-- **What segments describe is what one of their variants fits.** -/
theorem describes_iff_variantsOf (hregular : ∀ ls ∈ segments, IsRegular ls)
    (hnames : ∀ name ∈ names, '/' ∉ name) :
    Describes segments names ↔ ∃ v ∈ variantsOf segments, Fits (v.map Part.ofLetters) names := by
  induction segments generalizing names with
  | nil => simp [describes_nil, variantsOf, fits_nil]
  | cons ls segments ih =>
      have hrest {run rest} (h : names = run ++ rest) :=
        @ih rest (fun ls hls => hregular ls (List.mem_cons_of_mem _ hls))
          fun n hn => hnames n (h ▸ List.mem_append_right run hn)
      by_cases hls : ls = [.star, .star]
      · subst hls
        rw [describes_globstar_cons]
        constructor
        · rintro ⟨run, rest, hsplit, hrun, h⟩
          obtain ⟨v, hv, hfits⟩ := (hrest hsplit).1 h
          have hend : v.map Part.ofLetters = [] → run ≠ [] := fun hnil =>
            hrun ((eq_nil_iff_of_mem_variantsOf hv).1 (List.map_eq_nil_iff.1 hnil))
          exact ⟨_, mem_variantsOf_cons.2 ⟨_, List.mem_singleton_self _, v, hv, rfl⟩,
            hsplit ▸ .globstar hend hfits⟩
        · rintro ⟨_, hmem, hfits⟩
          obtain ⟨e, he, v, hv, rfl⟩ := mem_variantsOf_cons.1 hmem
          obtain rfl := List.mem_singleton.1 he
          obtain ⟨run, rest, hsplit, hend, hfits⟩ := fits_globstar_cons.1 hfits
          refine ⟨run, rest, hsplit, fun hnil => hend ?_, (hrest hsplit).2 ⟨v, hv, hfits⟩⟩
          rw [(eq_nil_iff_of_mem_variantsOf hv).2 hnil]
          rfl
      · have hexpand {qs} := @fits_expansions ls qs names hls
          (hregular ls List.mem_cons_self) hnames
        rw [describes_segment_cons hls]
        constructor
        · rintro ⟨run, rest, hsplit, hrun, hspans, h⟩
          obtain ⟨v, hv, hfits⟩ := (hrest hsplit).1 h
          obtain ⟨e, he, hfits⟩ := hexpand.2 ⟨run, rest, hsplit, hrun, hspans, hfits⟩
          exact ⟨e ++ v, mem_variantsOf_cons.2 ⟨e, he, v, hv, rfl⟩, by rwa [List.map_append]⟩
        · rintro ⟨_, hmem, hfits⟩
          obtain ⟨e, he, v, hv, rfl⟩ := mem_variantsOf_cons.1 hmem
          rw [List.map_append] at hfits
          obtain ⟨run, rest, hsplit, hrun, hspans, hfits⟩ := hexpand.1 ⟨e, he, hfits⟩
          exact ⟨run, rest, hsplit, hrun, hspans, (hrest hsplit).2 ⟨v, hv, hfits⟩⟩

end LicenseAudit.Glob
