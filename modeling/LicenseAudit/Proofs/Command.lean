import LicenseAudit.Command
import LicenseAudit.Proofs.Path.Steps

/-!
# Files that users name

A file is named as seen from a working directory, and what is named may lie
anywhere.  Inside the root exactly one place leads to it, the path from the
root (`place_iff`).  The path from the root to what does not lie inside is
empty or begins with a step up (`relative_of_not_isInside`).

`projectPath` tells the two apart by the first characters of the path.  So it
gives the place of what lies inside the root, unless the first name on the way
begins with two dots: such a file is reported as one outside
(`projectPath_cases`).
-/

namespace LicenseAudit

open Text

namespace Path

variable {here there names : List String} {root p : String}

/-- Between places that part, the way begins with a step up. -/
theorem exists_between_eq (h : ¬ here <+: there) :
    ∃ rest, between here there = ".." :: rest := by
  induction here generalizing there with
  | nil => exact absurd List.nil_prefix h
  | cons a here ih =>
      cases there with
      | nil => exact ⟨_, rfl⟩
      | cons b there =>
          by_cases hab : a = b
          · subst hab
            have hpart : ¬ here <+: there := fun hprefix => h ((List.prefix_cons_inj a).2 hprefix)
            obtain ⟨rest, hrest⟩ := ih hpart
            exact ⟨rest, by rw [between, if_pos rfl, hrest]⟩
          · exact ⟨_, by rw [between, if_neg hab, List.map_cons, List.cons_append]⟩

theorem startsWith_joined_cons (n : String) (names : List String) :
    startsWith (joined (n :: names)) n = true := by
  rw [startsWith, Option.isSome_iff_exists]
  cases names with
  | nil => exact ⟨[], dropStart?_eq_some_iff.2 (by simp [joined_singleton])⟩
  | cons b names =>
      refine ⟨'/' :: (joined (b :: names)).toList, dropStart?_eq_some_iff.2 ?_⟩
      simp [joined_cons_cons]

/-- The way to what does not lie inside a directory is none, or begins with a
step up. -/
theorem relative_of_not_isInside (h : ¬ IsInside root p) :
    relative root p = "" ∨ startsWith (relative root p) ".." = true := by
  by_cases hprefix : steps true root <+: steps true p
  · obtain ⟨names, hnames⟩ := hprefix
    have hnil : names = [] := by
      by_contra hne
      exact h ⟨names, hne, hnames.symm⟩
    refine .inl ?_
    rw [relative_of_steps hnames.symm, hnil]
    rfl
  · obtain ⟨rest, hrest⟩ := exists_between_eq hprefix
    refine .inr ?_
    rw [relative, hrest]
    exact startsWith_joined_cons ".." rest

/-- The steps to a place are those of the directory and its names. -/
theorem stepsFrom_joined (root : String) (hne : names ≠ []) (hnames : ∀ n ∈ names, IsName n) :
    stepsFrom root (joined names) = steps true root ++ names := by
  have hsteps : steps false (joined names) = names := by
    rw [steps, split_joined hne fun n hn => (hnames n hn).no_slash, foldl_advance_names hnames]
    simp
  have hplace : IsPlace (joined names) := ⟨names, hne, hnames, rfl⟩
  have hdirect : IsDirect (joined names) := by
    refine ⟨hplace.isAbsolute_eq, ?_⟩
    rw [hsteps]
    exact fun habove => (hnames ".." habove).ne_above rfl
  rw [hdirect.stepsFrom_eq, hsteps]

/-- Inside a directory the path from it is the only place that leads there. -/
theorem place_iff (hp : IsResolved p) (h : IsInside root p) (other : String) :
    IsPlace other ∧ resolve root other = p ↔ other = relative root p := by
  obtain ⟨names, hne, hsteps⟩ := h
  have hnames : ∀ n ∈ names, IsName n := by
    intro n hn
    refine isName_of_mem_steps (p := p) ?_
    rw [hsteps]
    exact List.mem_append_right _ hn
  rw [relative_of_steps hsteps]
  constructor
  · rintro ⟨⟨others, hothers, hisName, rfl⟩, hresolve⟩
    have hsame : steps true root ++ others = steps true root ++ names := by
      rw [← stepsFrom_joined root hothers hisName, ← steps_resolve, hresolve, hsteps]
    rw [List.append_cancel_left hsame]
  · rintro rfl
    refine ⟨⟨names, hne, hnames, rfl⟩, ?_⟩
    obtain ⟨base, hbase, rfl⟩ := hp
    rw [resolve, stepsFrom_joined root hne hnames, ← hsteps, steps_ofSteps hbase]

end Path

/-- What is reported about a file that is not inside the root. -/
def outsideProject (root file : String) : Failure :=
  .advise .usage "File outside project."
    (file ++ " is not inside the project root " ++ root ++ ".")
    (some "Pass files under the project root, or point --root at their project.") none

theorem projectPath_eq (root directory file : String) :
    projectPath root directory file =
      if Path.relative root (Path.resolve directory file) = "" ∨
          startsWith (Path.relative root (Path.resolve directory file)) ".." then
        .error (outsideProject root file)
      else .ok (Path.relative root (Path.resolve directory file)) :=
  rfl

/-- A file inside the root is given by the one place that leads to it, unless
that begins with two dots; every other file is reported as outside. -/
theorem projectPath_cases (root directory file : String) :
    (Path.IsInside root (Path.resolve directory file) →
      ∃ path,
        (∀ other, Path.IsPlace other ∧ Path.resolve root other = Path.resolve directory file ↔
          other = path) ∧
        projectPath root directory file =
          if startsWith path ".." then .error (outsideProject root file) else .ok path) ∧
    (¬ Path.IsInside root (Path.resolve directory file) →
      projectPath root directory file = .error (outsideProject root file)) := by
  rw [projectPath_eq]
  constructor
  · intro hinside
    have hplaces := Path.place_iff (Path.isResolved_resolve directory file) hinside
    have hne := ((hplaces _).2 rfl).1.ne_empty
    refine ⟨_, hplaces, ?_⟩
    simp only [hne, false_or]
  · intro houtside
    rw [if_pos (Path.relative_of_not_isInside houtside)]

/-- A file that is named by its absolute path, and one next to the root. -/
theorem projectPath_elsewhere :
    Path.IsInside "/project" (Path.resolve "/elsewhere" "/project/docs/guide.md") ∧
      ¬ Path.IsInside "/project" (Path.resolve "/project" "../other/a.py") ∧
      projectPath "/project" "/elsewhere" "/project/docs/guide.md" = .ok "docs/guide.md" ∧
      projectPath "/project" "/project" "../other/a.py" =
        .error (outsideProject "/project" "../other/a.py") := by
  have hinside : Path.IsInside "/project" (Path.resolve "/elsewhere" "/project/docs/guide.md") :=
    ⟨["docs", "guide.md"], by decide, by decide +kernel⟩
  have houtside : ¬ Path.IsInside "/project" (Path.resolve "/project" "../other/a.py") := by
    rintro ⟨names, -, hnames⟩
    have hother : Path.steps true (Path.resolve "/project" "../other/a.py") =
        ["other", "a.py"] := by
      decide +kernel
    have hroot : Path.steps true "/project" = ["project"] := by decide +kernel
    rw [hother, hroot] at hnames
    exact absurd (List.cons.inj hnames).1 (by decide)
  refine ⟨hinside, houtside, ?_, (projectPath_cases _ _ _).2 houtside⟩
  obtain ⟨path, hplaces, hpath⟩ := (projectPath_cases _ _ _).1 hinside
  have hguide : "docs/guide.md" = path :=
    (hplaces "docs/guide.md").1 ⟨by decide +kernel, by decide +kernel⟩
  have hdots : startsWith "docs/guide.md" ".." = false := by decide +kernel
  rw [hpath, ← hguide, hdots, if_neg Bool.false_ne_true]

/-- The file `..a.py` lies in the root, and the place `..a.py` leads there, but
it is reported as one outside. -/
theorem projectPath_dots :
    Path.IsInside "/project" (Path.resolve "/project" "..a.py") ∧ Path.IsPlace "..a.py" ∧
      projectPath "/project" "/project" "..a.py" =
        .error (outsideProject "/project" "..a.py") := by
  refine ⟨⟨["..a.py"], by decide, by decide +kernel⟩, by decide +kernel, ?_⟩
  have hdots : startsWith (Path.relative "/project" (Path.resolve "/project" "..a.py")) ".." := by
    decide +kernel
  rw [projectPath_eq, if_pos (.inr hdots)]

end LicenseAudit
