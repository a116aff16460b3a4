import LicenseAudit.Proofs.Compliance
import LicenseAudit.Proofs.Path.Steps
import LicenseAudit.Proofs.Scan.Survey
import Mathlib.Data.List.DropRight

/-!
# Where the license directory is

The inventory and the path filter are told the same license directory.  The
inventory follows it from the root of the project and takes the way back; the
filter shortens it and does not look at the root.

Both come to the same path when the directory is direct, and only then
(`exists_rest_iff`).  So every path below the directory of the inventory is
excluded for lying there, and no stored license text is a target of a scan
(`stored_not_mem_targets`).  A directory that is absolute, or that leads above
the root and back, names nothing to the filter, although the inventory finds
its texts (`isExcluded_stored_iff`, `otherwiseStored_not_isExcluded`).
-/

namespace LicenseAudit

open Text Coverage

variable {directory path rest : String} {options : CoverageOptions} {vcs : Vcs} {f : PathFilter}

namespace Coverage

theorem toList_normalizeDirectory (directory : String) :
    (normalizeDirectory directory).toList =
      (Path.normalize directory).toList.rdropWhile (· == '/') := by
  rw [normalizeDirectory, String.toList_ofList]
  rfl

/-- A directory that is not absolute comes to the path of its steps. -/
theorem normalizeDirectory_of_relative (hrelative : Path.isAbsolute directory = false)
    (hsteps : Path.steps false directory ≠ []) :
    normalizeDirectory directory = Path.joined (Path.steps false directory) := by
  obtain ⟨cs, c, hcs, hc⟩ := Path.exists_toList_joined hsteps fun _ => Path.isStep_of_mem_steps
  have hdirectory : directory ≠ "" := by
    intro hempty
    rw [hempty] at hsteps
    exact hsteps (by decide +kernel)
  have hc' : ¬ (c == '/') = true := by simpa using hc
  have hkept : (cs ++ [c]).rdropWhile (· == '/') = cs ++ [c] :=
    List.rdropWhile_concat_neg _ _ _ hc'
  apply String.toList_injective
  rw [toList_normalizeDirectory, Path.normalize, if_neg hdirectory]
  by_cases hend : endsWith directory "/" = true
  · have hdropped : (cs ++ [c] ++ ['/']).rdropWhile (· == '/') = cs ++ [c] := by
      rw [List.rdropWhile_concat_pos _ _ _ rfl, hkept]
    simpa [hrelative, hsteps, hend, hcs] using hdropped
  · simpa [hrelative, hsteps, hend, hcs] using hkept

/-- An absolute directory stays so. -/
theorem normalizeDirectory_of_absolute (h : Path.isAbsolute directory = true) :
    ∃ cs, (normalizeDirectory directory ++ "/").toList = '/' :: cs := by
  have hdirectory : directory ≠ "" := by
    intro hempty
    rw [hempty] at h
    cases h
  obtain ⟨cs, hcs⟩ : ∃ cs, (Path.normalize directory).toList = '/' :: cs := by
    rw [Path.normalize, if_neg hdirectory]
    simp [h]
  have hkept := List.rdropWhile_prefix (· == '/') (Path.normalize directory).toList
  rw [hcs] at hkept
  rw [String.toList_append, toList_normalizeDirectory, hcs]
  rcases List.prefix_cons_iff.1 hkept with hnil | ⟨others, hothers, -⟩
  · exact ⟨[], by rw [hnil]; rfl⟩
  · exact ⟨others ++ ['/'], by rw [hothers]; rfl⟩

end Coverage

namespace Path

variable {root : String} {names : List String}

/-- The steps of a direct directory inside the root are those on the way to
it. -/
theorem IsDirect.steps_eq (hdirect : IsDirect directory)
    (hnames : steps true (resolve root directory) = steps true root ++ names) :
    steps false directory = names := by
  rw [steps_resolve, hdirect.stepsFrom_eq] at hnames
  exact List.append_cancel_left hnames

/-- A place in the project begins with no absolute directory. -/
theorem isAbsolute_eq_false_of_place {other : String} (hplace : IsPlace path)
    (h : path ++ "/" ++ rest = normalizeDirectory directory ++ "/" ++ other) :
    isAbsolute directory = false := by
  by_contra habsolute
  rw [Bool.not_eq_false] at habsolute
  obtain ⟨cs, hcs⟩ := normalizeDirectory_of_absolute habsolute
  obtain ⟨c, ds, hds, hc⟩ := hplace.exists_toList_eq
  have hstart : (path ++ "/" ++ rest).toList = c :: (ds ++ '/' :: rest.toList) := by
    simp [hds]
  rw [h, String.toList_append, hcs] at hstart
  exact hc (List.cons.inj hstart).1.symm

/-- A relative directory that a path of names begins with leads nowhere above
its start. -/
theorem above_not_mem_steps {other : String} (hne : names ≠ []) (hnames : ∀ n ∈ names, IsName n)
    (hrelative : isAbsolute directory = false)
    (h : joined names ++ "/" ++ rest = normalizeDirectory directory ++ "/" ++ other) :
    ".." ∉ steps false directory := by
  intro habove
  have hsteps := List.ne_nil_of_mem habove
  have hsplit := congrArg (split '/') h
  rw [split_append, split_append, normalizeDirectory_of_relative hrelative hsteps,
    split_joined hne fun n hn => (hnames n hn).no_slash,
    split_joined hsteps fun n hn => (isStep_of_mem_steps hn).no_slash] at hsplit
  -- The one path begins with a name, and the other with a step up.
  have hhead := congrArg List.head? hsplit
  rw [List.head?_append_of_ne_nil _ hne, List.head?_append_of_ne_nil _ hsteps,
    head?_steps habove] at hhead
  exact (hnames ".." (List.mem_of_head? hhead)).ne_above rfl

/-- What lies in a directory inside the root lies in the directory of the
filter exactly when that is direct. -/
theorem exists_rest_iff (hne : names ≠ [])
    (hnames : steps true (resolve root directory) = steps true root ++ names) :
    (∃ other, joined names ++ "/" ++ rest = normalizeDirectory directory ++ "/" ++ other) ↔
      IsDirect directory := by
  have hisName : ∀ n ∈ names, IsName n := by
    intro n hn
    refine isName_of_mem_steps (p := resolve root directory) ?_
    rw [hnames]
    exact List.mem_append_right _ hn
  constructor
  · intro hinside
    obtain ⟨other, hother⟩ := hinside
    have hrelative := isAbsolute_eq_false_of_place ⟨names, hne, hisName, rfl⟩ hother
    exact ⟨hrelative, above_not_mem_steps hne hisName hrelative hother⟩
  · intro hdirect
    have hsteps := hdirect.steps_eq hnames
    refine ⟨rest, ?_⟩
    rw [normalizeDirectory_of_relative hdirect.relative (hsteps ▸ hne), hsteps]

end Path

theorem Inventory.directory_of_scan {tree : Tree} {root : String} {catalog : Catalog}
    {inventory : Inventory} (h : scan tree root directory catalog = .ok inventory) :
    inventory.directory = Path.relative root (Path.resolve root directory) := by
  obtain ⟨names, -, h⟩ := exists_of_bind_eq_ok h
  obtain ⟨records, -, h⟩ := exists_of_bind_eq_ok h
  cases h
  rfl

namespace PathFilter

/-- The first excluded directory of a filter is the license directory. -/
theorem directories_of (h : of options vcs = .ok f) :
    ∃ submodules, f.directories = normalizeDirectory options.licenseDirectory :: submodules := by
  obtain ⟨ignored, -, h⟩ := exists_of_bind_eq_ok h
  dsimp only at h
  split at h
  all_goals
    obtain ⟨submodules, -, h⟩ := exists_of_bind_eq_ok h
    obtain rfl := Except.ok.inj h
    exact ⟨submodules.map normalizeDirectory, rfl⟩

/-- A filter that does not know the license directory. -/
def withoutLicenses (f : PathFilter) : PathFilter :=
  { f with directories := f.directories.tail }

theorem isInExcludedDirectory_eq (h : of options vcs = .ok f) :
    f.isInExcludedDirectory path =
      ((Path.below? (normalizeDirectory options.licenseDirectory) path).isSome ||
        f.withoutLicenses.isInExcludedDirectory path) := by
  obtain ⟨submodules, hdirectories⟩ := directories_of h
  rw [isInExcludedDirectory, hdirectories, List.any_cons, Bool.or_left_comm]
  simp only [isInExcludedDirectory, withoutLicenses, hdirectories, List.tail_cons]

/-- A filter excludes what lies in the license directory as it knows it, and
what it would exclude without. -/
theorem isExcluded_iff (h : of options vcs = .ok f) :
    f.isExcluded path = true ↔
      (∃ other, path = normalizeDirectory options.licenseDirectory ++ "/" ++ other) ∨
        f.withoutLicenses.isExcluded path = true := by
  rw [← Path.isSome_below?_iff, ← Bool.or_eq_true, isExcluded, isInExcludedLocation,
    isInExcludedDirectory_eq h, Bool.or_assoc (Option.isSome _), Bool.or_left_comm]
  rfl

end PathFilter

/-- **The filter excludes stored license texts exactly when the license
directory is direct**: of a license directory inside the root, whatever lies
below the directory of the inventory is excluded for lying there if and only
if the configured path leads down at every step. -/
theorem isExcluded_stored_iff {tree : Tree} {root : String} {catalog : Catalog}
    {inventory : Inventory} (hf : PathFilter.of options vcs = .ok f)
    (hscan : Inventory.scan tree root options.licenseDirectory catalog = .ok inventory)
    (hinside : Path.IsInside root (Path.resolve root options.licenseDirectory)) (rest : String) :
    f.isExcluded (inventory.directory ++ "/" ++ rest) = true ↔
      Path.IsDirect options.licenseDirectory ∨
        f.withoutLicenses.isExcluded (inventory.directory ++ "/" ++ rest) = true := by
  obtain ⟨names, hne, hnames⟩ := hinside
  rw [PathFilter.isExcluded_iff hf, Inventory.directory_of_scan hscan,
    Path.relative_of_steps hnames, Path.exists_rest_iff hne hnames]

/-- The text that is stored below `LICENSES` is excluded, and would be without
knowing that directory. -/
theorem isExcluded_storedText :
    let f : PathFilter := ⟨"REUSE.toml", false, ["LICENSES"], []⟩
    PathFilter.of {} .none = .ok f ∧
      Inventory.scan storedText "/p" "LICENSES" ⟨["MIT"], [], []⟩ = .ok storedInventory ∧
      Path.IsInside "/p" (Path.resolve "/p" "LICENSES") ∧
      (f.isExcluded "LICENSES/MIT.txt" = true ↔
        Path.IsDirect "LICENSES" ∨ f.withoutLicenses.isExcluded "LICENSES/MIT.txt" = true) := by
  intro f
  have hdirectory : normalizeDirectory "LICENSES" = "LICENSES" := by decide +kernel
  have hf : PathFilter.of {} .none = .ok f := by
    rw [PathFilter.of_none, hdirectory]
  have hinside : Path.IsInside "/p" (Path.resolve "/p" "LICENSES") :=
    ⟨["LICENSES"], by decide, by decide +kernel⟩
  exact ⟨hf, scan_storedText, hinside, isExcluded_stored_iff hf scan_storedText hinside "MIT.txt"⟩

/-- A project at `/p` with one license text in a directory of another name. -/
def otherwiseStored : Tree :=
  .withProject [("texts", .folder [("MIT.txt", .file [120, 10])])]

/-- By way of the folder of the project the inventory finds the text, which the
filter does not exclude and the walk covers. -/
theorem otherwiseStored_not_isExcluded :
    let f : PathFilter := ⟨"REUSE.toml", false, ["../p/texts"], []⟩
    PathFilter.of { licenseDirectory := "../p/texts" } .none = .ok f ∧
      Inventory.scan otherwiseStored "/p" "../p/texts" ⟨["MIT"], [], []⟩ =
        .ok ⟨"texts", [⟨"MIT", "texts/MIT.txt", true, false, true⟩]⟩ ∧
      Path.IsInside "/p" (Path.resolve "/p" "../p/texts") ∧
      f.isExcluded "texts/MIT.txt" = false ∧
      "texts/MIT.txt" ∈ (ProjectFiles.of otherwiseStored "/p" f).covered := by
  intro f
  have hdirectory : normalizeDirectory "../p/texts" = "../p/texts" := by decide +kernel
  have hkept : f.isExcluded "texts/MIT.txt" = false := by decide +kernel
  have hfile : otherwiseStored.HasFile "/p" "texts/MIT.txt" [120, 10] :=
    Tree.hasFile_withProject
      (show split '/' "texts/MIT.txt" = ["texts", "MIT.txt"] by decide +kernel) rfl
  have hcovered : "texts/MIT.txt" ∈ (ProjectFiles.of otherwiseStored "/p" f).covered :=
    (ProjectFiles.mem_covered_iff (by decide +kernel) (Tree.find_withProject _)).2
      ⟨_, hfile, by decide, by decide +kernel, hkept⟩
  refine ⟨by rw [PathFilter.of_none, hdirectory], ?_, ⟨["texts"], by decide, by decide +kernel⟩,
    hkept, hcovered⟩
  have hplace : Path.resolve "/p" "../p/texts" = "/p/texts" := by decide +kernel
  have hrelative : Path.relative "/p" "/p/texts" = "texts" := by decide +kernel
  have hpath : Path.join "/p/texts" "MIT.txt" = "/p/texts/MIT.txt" := by decide +kernel
  have hnames : Inventory.namesIn otherwiseStored "/p/texts" = .ok ["MIT.txt"] :=
    Inventory.namesIn_of_find (Tree.find_folder
      (show Tree.GoesBy "/p/texts" ["p", "texts"] by decide) rfl) rfl
  have hstored : Inventory.isStoredFile otherwiseStored "/p/texts/MIT.txt" = .ok true :=
    Inventory.isStoredFile_of_find (Tree.find_file
      (show Tree.GoesBy "/p/texts/MIT.txt" (["p", "texts"] ++ ["MIT.txt"]) by decide) rfl)
  have hcandidates : (sortedOn id ["MIT.txt"]).filter Inventory.isCandidate = ["MIT.txt"] := by
    decide +kernel
  have hrecord : Catalog.describe ⟨["MIT"], [], []⟩ "MIT.txt" ("texts" ++ "/" ++ "MIT.txt") =
      ⟨"MIT", "texts/MIT.txt", true, false, true⟩ := by decide +kernel
  simp only [Inventory.scan, Inventory.ofNames, Inventory.enlistFile, hplace, hrelative, hnames,
    hcandidates, hpath, hstored, hrecord, List.foldlM_cons, List.foldlM_nil, bind, Except.bind]
  cbv

namespace Project

variable {p : Project} {answer : Except Failure Vcs} {s : Survey}

/-- No target of a scan is excluded. -/
theorem isExcluded_of_mem_targets (hs : p.survey answer = .ok s) {selection : Selection}
    (h : path ∈ selection.targets s) : s.filter.isExcluded path = false := by
  obtain ⟨-, -, -, hfiles⟩ := survey_eq_ok_iff.1 hs
  cases selection with
  | covered =>
      rw [Selection.targets, hfiles] at h
      exact ProjectFiles.isExcluded_of_mem_covered h
  | only paths =>
      have hkept := (List.mem_filter.1 h).2
      rwa [Bool.not_eq_true'] at hkept

/-- No file below a direct license directory is a target. -/
theorem stored_not_mem_targets (hs : p.survey answer = .ok s)
    (hinside : Path.IsInside p.root (Path.resolve p.root p.config.licenseDirectory))
    (hdirect : Path.IsDirect p.config.licenseDirectory) (rest : String) (selection : Selection) :
    s.inventory.directory ++ "/" ++ rest ∉ selection.targets s := by
  intro htarget
  obtain ⟨-, ⟨v, -, -, hf⟩, hscan, -⟩ := survey_eq_ok_iff.1 hs
  have hexcluded := (isExcluded_stored_iff hf hscan hinside rest).2 (.inl hdirect)
  rw [isExcluded_of_mem_targets hs htarget] at hexcluded
  cases hexcluded

end Project

end LicenseAudit
