import LicenseAudit.Proofs.Coverage.Pattern
import LicenseAudit.Proofs.Text.Order
import LicenseAudit.Proofs.Tree

/-!
# What the walk covers

`Tree.HasFile` says which files a project has without walking it.  In a
proper tree the walk meets exactly these, each once, but for those that it
passes over (`mem_walked_iff`, `nodup_walked`); so the covered files and the
manifests are said in terms of the files alone (`mem_covered_iff`,
`mem_manifests_iff`).

The patterns that the walk passes over stand for the directories of a path
filter, and name all that lies in those that read back.  They name a little
more: `IsMissed` says which files outside these directories the walk does not
meet either, and `mem_covered_iff_of_hasFile` that it covers every other file
that the filter does not exclude.  This holds where the walk shows the paths of
the project as they are (`Tree.ShowsPaths`).
-/

namespace LicenseAudit

open Text Coverage

variable {tree : Tree} {root path : String} {bytes : List UInt8} {f : PathFilter}

/-- The project at a root path **has** a file at a path: the names of the
path lead to the file from the root, and through no link. -/
def Tree.HasFile (tree : Tree) (root path : String) (bytes : List UInt8) : Prop :=
  ∃ folder, tree.find root = .ok folder ∧ folder.at? (split '/' path) = some (.file bytes)

/-- A root path below which there is a file leads to a folder. -/
theorem Tree.HasFile.exists_folder (h : tree.HasFile root path bytes) :
    ∃ entries, tree.find root = .ok (.folder entries) := by
  obtain ⟨folder, hroot, hat⟩ := h
  obtain ⟨n, names, hsplit⟩ := List.exists_cons_of_ne_nil (Path.split_ne_nil path)
  rw [hsplit] at hat
  cases folder with
  | file => cases hat
  | link => cases hat
  | folder entries => exact ⟨entries, hroot⟩

/-- In a proper tree the path of a file is a place. -/
theorem Tree.HasFile.isPlace (ht : tree.IsProper) (h : tree.HasFile root path bytes) :
    Path.IsPlace path := by
  obtain ⟨folder, hroot, hat⟩ := h
  have hproper := ht.find hroot
  exact Path.isPlace_iff.2 (hproper.isName_of_mem_leaves (hproper.mem_leaves_iff.2 hat))

/-- The walk **shows the paths** of a project as they are when none starts with
a dot and a backslash; it takes such a path for another, which may be that of a
file as well. -/
def Tree.ShowsPaths (tree : Tree) (root : String) : Prop :=
  ∀ path bytes, tree.HasFile root path bytes → PathFilter.shown path = path

theorem Tree.showsPaths_of_leaves {folder : Tree} (ht : tree.IsProper)
    (hroot : tree.find root = .ok folder)
    (h : ∀ leaf ∈ folder.leaves, PathFilter.shown (Path.joined leaf.1) = Path.joined leaf.1) :
    tree.ShowsPaths root := by
  rintro path bytes ⟨found, hfound, hat⟩
  obtain rfl : folder = found := Except.ok.inj (hroot.symm.trans hfound)
  have hleaf := h _ ((ht.find hroot).mem_leaves_iff.2 hat)
  rwa [Path.joined_split] at hleaf

/-- A tree with a project at `/p`. -/
def Tree.withProject (entries : List (String × Tree)) : Tree :=
  .folder [("p", .folder entries)]

theorem Tree.at?_withProject (entries : List (String × Tree)) :
    (withProject entries).at? ["p"] = some (.folder entries) := rfl

/-- The entries of the project are below its root. -/
theorem Tree.at?_entry (entries : List (String × Tree)) (name : String) :
    (withProject entries).at? ["p", name] = entries.lookup name :=
  Option.bind_fun_some (entries.lookup name)

theorem Tree.find_withProject (entries : List (String × Tree)) :
    (withProject entries).find "/p" = .ok (.folder entries) :=
  find_folder (show GoesBy "/p" ["p"] by decide) (at?_withProject entries)

section Entry

variable {entries : List (String × Tree)} {name : String} {rest : List String}

/-- A file in the root of the project is found. -/
theorem Tree.find_entry (hpath : GoesBy path ["p", name])
    (h : entries.lookup name = some (.file bytes)) :
    (withProject entries).find path = .ok (.file bytes) :=
  find_file (show GoesBy path (["p"] ++ [name]) from hpath) ((at?_entry entries name).trans h)

/-- A path below the root leads nowhere when its first name is not there. -/
theorem Tree.find_absent (hpath : GoesBy path ("p" :: name :: rest))
    (h : entries.lookup name = none) : (withProject entries).find path = .error .missing :=
  find_missing (show GoesBy path (["p"] ++ name :: rest) from hpath) (at?_withProject entries)
    ((at?_entry entries name).trans h)

end Entry

theorem Tree.hasFile_withProject {entries : List (String × Tree)} {names : List String}
    (hsplit : split '/' path = names) (hat : (folder entries).at? names = some (.file bytes)) :
    (withProject entries).HasFile "/p" path bytes :=
  ⟨_, find_withProject entries, by rw [hsplit, hat]⟩

namespace PathFilter

/-- Of the files outside excluded directories the walk **misses** those
whose path has a line end, those with the name of an excluded directory, and
those in the place of one. -/
def IsMissed (f : PathFilter) (path : String) : Prop :=
  path.toList.any isLineEnd = true ∨ Path.name path ∈ excludedDirectoryNames ∨
    path ∈ f.directories

instance (f : PathFilter) (path : String) : Decidable (f.IsMissed path) :=
  inferInstanceAs (Decidable (_ ∨ _ ∨ _))

/-- A filter knows the name of manifests from its options. -/
theorem manifestName_of {options : CoverageOptions} {vcs : Vcs} (h : of options vcs = .ok f) :
    f.manifestName = options.manifestName := by
  obtain ⟨ignored, -, h⟩ := exists_of_bind_eq_ok h
  dsimp only at h
  split at h
  all_goals
    obtain ⟨submodules, -, h⟩ := exists_of_bind_eq_ok h
    obtain rfl := Except.ok.inj h
    rfl

/-- Without version control a filter knows one excluded directory. -/
theorem of_none (options : CoverageOptions) :
    of options .none = .ok ⟨options.manifestName, options.includeSubprojects,
      [normalizeDirectory options.licenseDirectory], []⟩ := by
  rw [of]
  cases options.includeSubmodules <;> rfl

theorem isInExcludedDirectory_eq_false (h : f.isExcluded path = false) :
    f.isInExcludedDirectory path = false := by
  rw [isExcluded, isInExcludedLocation, Bool.or_eq_false_iff, Bool.or_eq_false_iff,
    Bool.or_eq_false_iff] at h
  exact h.2.1

/-- The walk passes over what lies in an excluded directory, and what it
misses. -/
theorem isPassedOver_iff (hpath : Path.IsPlace path) (hshown : shown path = path)
    (hdirectories : ∀ d ∈ f.directories, Path.IsPlace d ∧ DirectoryPattern.ReadsBack d) :
    f.isPassedOver root (split '/' path) = true ↔
      f.isInExcludedDirectory path = true ∨ f.IsMissed path := by
  obtain ⟨before, n, hsplit, hname⟩ := hpath.exists_split_eq
  have hdirectory : (∃ d ∈ f.directories, names root d path = true) ↔
      path ∈ f.directories ∨ ∃ d ∈ f.directories, (Path.below? d path).isSome = true := by
    constructor
    · rintro ⟨d, hd, h⟩
      obtain ⟨hplace, hback⟩ := hdirectories d hd
      rcases (names_iff hplace hback).1 h with rfl | h
      · exact .inl hd
      · exact .inr ⟨d, hd, h⟩
    · rintro (hd | ⟨d, hd, h⟩)
      · obtain ⟨hplace, hback⟩ := hdirectories path hd
        exact ⟨path, hd, (names_iff hplace hback).2 (.inl rfl)⟩
      · obtain ⟨hplace, hback⟩ := hdirectories d hd
        exact ⟨d, hd, (names_iff hplace hback).2 (.inr h)⟩
  have hjoined : shown (Path.joined (before ++ [n])) = path := by
    rw [← hsplit, Path.joined_split, hshown]
  simp only [isPassedOver, isInExcludedDirectory, IsMissed, hsplit, hjoined, hname,
    List.dropLast_concat, List.any_append, List.any_cons, List.any_nil, Bool.or_false,
    Bool.or_eq_true, List.any_eq_true, hdirectory, List.contains_iff_mem]
  constructor
  · rintro (((h | h | h) | h) | h | h)
    · exact .inr (.inl h)
    · exact .inl (.inl (.inl h))
    · exact .inr (.inr (.inl h))
    · exact .inl (.inl (.inr h))
    · exact .inr (.inr (.inr h))
    · exact .inl (.inr h)
  · rintro (((h | h) | h) | h | h | h)
    · exact .inl (.inl (.inr (.inl h)))
    · exact .inl (.inr h)
    · exact .inr (.inr h)
    · exact .inl (.inl (.inl h))
    · exact .inl (.inl (.inr (.inr h)))
    · exact .inr (.inl h)

end PathFilter

namespace ProjectFiles

/-- The files that the walk meets, each by its path. -/
def walked (tree : Tree) (root : String) (f : PathFilter) : List (String × List UInt8) :=
  (met tree root f).map fun leaf => (Path.joined leaf.1, leaf.2)

theorem covered_of (tree : Tree) (root : String) (f : PathFilter) :
    (of tree root f).covered = sortedOn id (((walked tree root f).filter fun file =>
      !file.2.isEmpty && !f.isExcluded file.1).map Prod.fst) := rfl

theorem manifests_of (tree : Tree) (root : String) (f : PathFilter) :
    (of tree root f).manifests = (((walked tree root f).map Prod.fst).filter fun path =>
      f.isManifest path && !f.isInExcludedLocation path).mergeSort isManifestAtMost := rfl

/-- The steps to a file below a folder are the names of its path. -/
theorem split_joined_of_mem_leaves {entries : List (String × Tree)} {steps : List String}
    (ht : (Tree.folder entries).IsProper) (h : (steps, bytes) ∈ (Tree.folder entries).leaves) :
    split '/' (Path.joined steps) = steps := by
  obtain ⟨e, -, rest, -, rfl⟩ := Tree.mem_leaves_folder.1 h
  exact Path.split_joined (by simp) fun n hn => (ht.isName_of_mem_leaves h n hn).no_slash

section Listed

variable {entries : List (String × Tree)}
variable (ht : tree.IsProper) (hroot : tree.find root = .ok (.folder entries))
include ht hroot

/-- The walk meets the files of a project that it does not pass over. -/
theorem mem_walked_iff :
    (path, bytes) ∈ walked tree root f ↔
      tree.HasFile root path bytes ∧ f.isPassedOver root (split '/' path) = false := by
  have hproper := ht.find hroot
  simp only [walked, met, hroot, List.mem_map, List.mem_filter, Bool.not_eq_true', Prod.mk.injEq]
  constructor
  · rintro ⟨⟨steps, b⟩, ⟨hmem, hpassed⟩, rfl, rfl⟩
    have hsteps := split_joined_of_mem_leaves hproper hmem
    rw [hsteps]
    exact ⟨⟨_, hroot, by rw [hsteps]; exact hproper.mem_leaves_iff.1 hmem⟩, hpassed⟩
  · rintro ⟨⟨folder, hfolder, hat⟩, hpassed⟩
    obtain rfl : Tree.folder entries = folder := Except.ok.inj (hroot.symm.trans hfolder)
    exact ⟨(split '/' path, bytes), ⟨hproper.mem_leaves_iff.2 hat, hpassed⟩,
      Path.joined_split path, rfl⟩

/-- The walk meets no file twice. -/
theorem nodup_walked (f : PathFilter) : ((walked tree root f).map Prod.fst).Nodup := by
  have hproper := ht.find hroot
  have hmet : met tree root f =
      (Tree.folder entries).leaves.filter fun leaf => !f.isPassedOver root leaf.1 := by
    simp [met, hroot]
  have hnodup : ((met tree root f).map Prod.fst).Nodup :=
    hproper.nodup_leaves.sublist (hmet ▸ List.filter_sublist.map Prod.fst)
  have hpaths : (walked tree root f).map Prod.fst =
      ((met tree root f).map Prod.fst).map Path.joined := by
    simp [walked, Function.comp_def]
  have hsplit : ∀ steps ∈ (met tree root f).map Prod.fst,
      split '/' (Path.joined steps) = steps := by
    intro steps hsteps
    obtain ⟨leaf, hleaf, rfl⟩ := List.mem_map.1 hsteps
    rw [hmet] at hleaf
    exact split_joined_of_mem_leaves hproper (List.mem_of_mem_filter hleaf)
  rw [hpaths]
  refine (List.nodup_map_iff_inj_on hnodup).2 fun a ha b hb hab => ?_
  rw [← hsplit a ha, hab, hsplit b hb]

/-- A file is covered when the walk meets it, it is not empty, and the
filter does not exclude it. -/
theorem mem_covered_iff :
    path ∈ (of tree root f).covered ↔
      ∃ bytes, tree.HasFile root path bytes ∧ bytes ≠ [] ∧
        f.isPassedOver root (split '/' path) = false ∧ f.isExcluded path = false := by
  simp only [covered_of, mem_sortedOn, List.mem_map, List.mem_filter, Prod.exists,
    mem_walked_iff ht hroot, Bool.and_eq_true, Bool.not_eq_true', List.isEmpty_eq_false_iff]
  grind

theorem mem_manifests_iff :
    path ∈ (of tree root f).manifests ↔
      (∃ bytes, tree.HasFile root path bytes) ∧ f.isPassedOver root (split '/' path) = false ∧
        f.isManifest path = true ∧ f.isInExcludedLocation path = false := by
  simp only [manifests_of, List.mem_mergeSort, List.mem_filter, List.mem_map, Prod.exists,
    mem_walked_iff ht hroot, Bool.and_eq_true, Bool.not_eq_true']
  constructor
  · rintro ⟨⟨p, b, ⟨hfile, hpassed⟩, rfl⟩, hrest⟩
    exact ⟨⟨b, hfile⟩, hpassed, hrest⟩
  · rintro ⟨⟨b, hfile⟩, hpassed, hrest⟩
    exact ⟨⟨path, b, ⟨hfile, hpassed⟩, rfl⟩, hrest⟩

/-- No file is covered twice. -/
theorem nodup_covered (f : PathFilter) : (of tree root f).covered.Nodup := by
  rw [covered_of]
  refine (List.mergeSort_perm _ _).nodup_iff.2 ?_
  exact (nodup_walked ht hroot f).sublist (List.filter_sublist.map Prod.fst)

/-- The covered files are listed in ascending order. -/
theorem isListing_covered (f : PathFilter) :
    IsListing Before (fun path => ∃ bytes, tree.HasFile root path bytes ∧ bytes ≠ [] ∧
      f.isPassedOver root (split '/' path) = false ∧ f.isExcluded path = false)
      (of tree root f).covered := by
  have hnodup := nodup_covered ht hroot f
  rw [covered_of, sortedOn, (List.mergeSort_perm _ _).nodup_iff, ← List.map_id (List.map _ _)]
    at hnodup
  rw [covered_of]
  refine (isListing_sortedOn hnodup).congr fun path => ?_
  rw [← mem_covered_iff ht hroot, covered_of, mem_sortedOn]

end Listed

/-- No covered file is excluded by the filter. -/
theorem isExcluded_of_mem_covered (h : path ∈ (of tree root f).covered) :
    f.isExcluded path = false := by
  rw [covered_of, mem_sortedOn] at h
  obtain ⟨file, hfile, rfl⟩ := List.mem_map.1 h
  have htest := (List.mem_filter.1 hfile).2
  rw [Bool.and_eq_true, Bool.not_eq_true', Bool.not_eq_true'] at htest
  exact htest.2

/-- **The walk covers what the filter keeps, unless it misses it**: of the
files of a project that are not empty, the walk covers exactly those that the
filter does not exclude and that it does not miss.  The excluded directories
are places that read back from their patterns, and no path of the project is
taken for another. -/
theorem mem_covered_iff_of_hasFile (ht : tree.IsProper) (hshown : tree.ShowsPaths root)
    (hdirectories : ∀ d ∈ f.directories, Path.IsPlace d ∧ DirectoryPattern.ReadsBack d)
    (hfile : tree.HasFile root path bytes) (hbytes : bytes ≠ []) :
    path ∈ (of tree root f).covered ↔ f.isExcluded path = false ∧ ¬ f.IsMissed path := by
  obtain ⟨entries, hroot⟩ := hfile.exists_folder
  have hpassed : f.isPassedOver root (split '/' path) = true ↔
      f.isInExcludedDirectory path = true ∨ f.IsMissed path :=
    PathFilter.isPassedOver_iff (hfile.isPlace ht) (hshown path bytes hfile) hdirectories
  rw [mem_covered_iff ht hroot]
  constructor
  · rintro ⟨-, -, -, hmet, hkept⟩
    refine ⟨hkept, fun hmissed => ?_⟩
    rw [hpassed.2 (.inr hmissed)] at hmet
    cases hmet
  · rintro ⟨hkept, hmissed⟩
    refine ⟨bytes, hfile, hbytes, ?_, hkept⟩
    rw [← Bool.not_eq_true, hpassed]
    rintro (hinside | h)
    · rw [PathFilter.isInExcludedDirectory_eq_false hkept] at hinside
      cases hinside
    · exact hmissed h

/-- A folder with two files, one with the name of a directory of license
texts. -/
def likeDirectory : Tree :=
  .folder [("LICENSES", .file [120, 10]), ("a.c", .file [120, 10])]

theorem mem_covered_likeDirectory :
    let tree := Tree.withProject [("docs", likeDirectory)]
    let directories := ["LICENSES", "docs/a.c[1]\\d", "it's (old)!"]
    tree.IsProper ∧ tree.ShowsPaths "/p" ∧
      (∀ d ∈ directories, Path.IsPlace d ∧ DirectoryPattern.ReadsBack d) ∧
      tree.HasFile "/p" "docs/a.c" [120, 10] ∧
      "docs/a.c" ∈ (of tree "/p" ⟨"REUSE.toml", false, directories, []⟩).covered := by
  intro tree directories
  have ht : tree.IsProper := by decide +kernel
  have hshown : tree.ShowsPaths "/p" :=
    Tree.showsPaths_of_leaves ht (Tree.find_withProject _) (by decide +kernel)
  have hdirectories : ∀ d ∈ directories, Path.IsPlace d ∧ DirectoryPattern.ReadsBack d := by
    decide +kernel
  have hfile : tree.HasFile "/p" "docs/a.c" [120, 10] :=
    Tree.hasFile_withProject (show split '/' "docs/a.c" = ["docs", "a.c"] by decide +kernel) rfl
  exact ⟨ht, hshown, hdirectories, hfile,
    (mem_covered_iff_of_hasFile ht hshown hdirectories hfile (by decide)).2 (by decide +kernel)⟩

/-- A file with the name of an excluded directory is not excluded, but the
walk misses it. -/
theorem likeDirectory_not_mem_covered :
    let tree := Tree.withProject [("docs", likeDirectory)]
    let f : PathFilter := ⟨"REUSE.toml", false, ["LICENSES"], []⟩
    PathFilter.of {} .none = .ok f ∧ tree.IsProper ∧
      tree.HasFile "/p" "docs/LICENSES" [120, 10] ∧ f.isExcluded "docs/LICENSES" = false ∧
      "docs/LICENSES" ∉ (of tree "/p" f).covered := by
  intro tree f
  have ht : tree.IsProper := by decide +kernel
  have hdirectory : normalizeDirectory "LICENSES" = "LICENSES" := by decide +kernel
  have hpassed : f.isPassedOver "/p" (split '/' "docs/LICENSES") = true := by decide +kernel
  refine ⟨by rw [PathFilter.of_none, hdirectory], ht, ?_, by decide +kernel, fun h => ?_⟩
  · exact Tree.hasFile_withProject
      (show split '/' "docs/LICENSES" = ["docs", "LICENSES"] by decide +kernel) rfl
  · obtain ⟨bytes, -, -, hmet, -⟩ := (mem_covered_iff ht (Tree.find_withProject _)).1 h
    rw [hpassed] at hmet
    cases hmet

end ProjectFiles

end LicenseAudit
