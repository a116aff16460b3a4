import LicenseAudit.Proofs.Coverage.Walk
import LicenseAudit.Proofs.Path.Steps

/-!
# Excluded locations

A path filter compares texts: names one by one, a name with the one before it,
the beginning of a path with a directory and a slash.  All of it comes to
asking which directories are **above** a path, name by name
(`isInExcludedLocation_iff`): a path lies in an excluded location when one of
them is excluded, or when an ignored entry is the path or, with a slash at its
end, the beginning of it.

So what excludes a path excludes everything below the same directory, and an
entry makes no difference to a path unless its names are the first names of the
path: `isInExcludedLocation_of`.
-/

namespace LicenseAudit

open Text Coverage

variable {f : PathFilter} {p n entry : String} {names : List String}

namespace Path

/-- The names of a directory **above** a path are some of its first names, but
not all of them. -/
structure IsAbove (names : List String) (p : String) : Prop where
  ne_nil : names ≠ []
  goes_on : ∃ below, below ≠ [] ∧ split '/' p = names ++ below

/-- The names of an entry: none follows a slash at its end. -/
def entryNames (entry : String) : List String :=
  if endsWith entry "/" then (split '/' entry).dropLast else split '/' entry

/-- An entry **leads to** a path when its names are the first names of the
path. -/
def LeadsTo (entry p : String) : Prop :=
  entryNames entry <+: split '/' p

instance (entry p : String) : Decidable (LeadsTo entry p) :=
  inferInstanceAs (Decidable (_ <+: _))

/-- A directory is above what its path and a slash begin. -/
theorem exists_isAbove_iff {directory : String} :
    (∃ names, joined names = directory ∧ IsAbove names p) ↔
      ∃ rest, p = directory ++ "/" ++ rest := by
  constructor
  · rintro ⟨names, rfl, hne, below, hbelow, hsplit⟩
    refine ⟨joined below, ?_⟩
    rw [← joined_append hne hbelow, ← hsplit, joined_split]
  · rintro ⟨rest, rfl⟩
    exact ⟨split '/' directory, joined_split directory, split_ne_nil directory,
      split '/' rest, split_ne_nil rest, split_append directory rest⟩

theorem endsWith_slash_iff : endsWith entry "/" = true ↔ ∃ directory, entry = directory ++ "/" := by
  rw [endsWith, isSome_dropEnd?_iff]
  constructor
  · rintro ⟨before, hentry⟩
    exact ⟨String.ofList before, String.toList_injective (by simpa using hentry)⟩
  · rintro ⟨directory, rfl⟩
    exact ⟨directory.toList, String.toList_append⟩

/-- A slash at the end of an entry adds no name. -/
theorem entryNames_append_slash (directory : String) :
    entryNames (directory ++ "/") = split '/' directory := by
  have hempty : directory ++ "/" = directory ++ "/" ++ "" := by simp
  rw [entryNames, if_pos (endsWith_slash_iff.2 ⟨directory, rfl⟩), hempty, split_append]
  exact List.dropLast_concat

theorem entryNames_isPrefix (entry : String) : entryNames entry <+: split '/' entry := by
  rw [entryNames]
  split
  · exact List.dropLast_prefix _
  · exact List.prefix_rfl

theorem leadsTo_self (p : String) : LeadsTo p p :=
  entryNames_isPrefix p

/-- An entry with a slash at its end leads to what it begins. -/
theorem leadsTo_append (hslash : endsWith entry "/" = true) (rest : String) :
    LeadsTo entry (entry ++ rest) := by
  obtain ⟨directory, rfl⟩ := endsWith_slash_iff.1 hslash
  rw [LeadsTo, entryNames_append_slash, split_append]
  exact List.prefix_append _ _

/-- A directory leads to what it is above. -/
theorem IsAbove.leadsTo (h : IsAbove names p) : LeadsTo (joined names) p := by
  obtain ⟨rest, rfl⟩ := exists_isAbove_iff.1 ⟨names, rfl, h⟩
  rw [LeadsTo, split_append]
  exact (entryNames_isPrefix (joined names)).trans (List.prefix_append _ _)

/-- All names of a path but the last are those of the directories above it. -/
theorem mem_dropLast_iff {names : List String} :
    n ∈ names.dropLast ↔ ∃ front back, back ≠ [] ∧ names = front ++ n :: back := by
  constructor
  · intro hn
    have hne : names ≠ [] := by
      rintro rfl
      cases hn
    obtain ⟨front, back, hsplit⟩ := List.append_of_mem hn
    refine ⟨front, back ++ [names.getLast hne], by simp, ?_⟩
    rw [← List.cons_append, ← List.append_assoc, ← hsplit, List.dropLast_append_getLast]
  · rintro ⟨front, back, hback, rfl⟩
    rw [List.dropLast_append_of_ne_nil (List.cons_ne_nil n back),
      List.dropLast_cons_of_ne_nil hback]
    exact List.mem_append_right _ List.mem_cons_self

end Path

/-- The options exclude a **directory** by its name, by the name of the
directory that it lies in, or as the license directory or a submodule. -/
inductive CoverageOptions.Excludes (options : CoverageOptions) (submodules : List String) :
    List String → Prop
  | named {above : List String} {n : String} (h : n ∈ excludedDirectoryNames) :
      Excludes options submodules (above ++ [n])
  | subproject {above : List String} {n : String} (h : options.includeSubprojects = false) :
      Excludes options submodules (above ++ [subprojectParent, n])
  | licenses {names : List String}
      (h : Path.joined names = normalizeDirectory options.licenseDirectory) :
      Excludes options submodules names
  | submodule {names : List String} {directory : String} (h : options.includeSubmodules = false)
      (hmem : directory ∈ submodules) (hnames : Path.joined names = normalizeDirectory directory) :
      Excludes options submodules names

namespace PathFilter

/-- Some directory above a path has an excluded name. -/
theorem any_excludedName_iff :
    ((split '/' p).dropLast.any (excludedDirectoryNames.contains ·)) = true ↔
      ∃ above n, n ∈ excludedDirectoryNames ∧ Path.IsAbove (above ++ [n]) p := by
  simp only [List.any_eq_true, List.contains_iff_mem, Path.mem_dropLast_iff]
  constructor
  · rintro ⟨n, ⟨above, below, hbelow, hsplit⟩, hn⟩
    exact ⟨above, n, hn, by simp, below, hbelow, by simp [hsplit]⟩
  · rintro ⟨above, n, hn, -, below, hbelow, hsplit⟩
    exact ⟨n, ⟨above, below, hbelow, by simp [hsplit]⟩, hn⟩

/-- Some directory above a path lies directly in one of a given name. -/
theorem contains_dropLast_iff {parent : String} :
    (split '/' p).dropLast.dropLast.contains parent = true ↔
      ∃ above n, Path.IsAbove (above ++ [parent, n]) p := by
  rw [List.contains_iff_mem, Path.mem_dropLast_iff]
  constructor
  · rintro ⟨above, back, hback, hsplit⟩
    obtain ⟨n, others, rfl⟩ := List.exists_cons_of_ne_nil hback
    have hn : n ∈ (split '/' p).dropLast := by simp [hsplit]
    have hne : split '/' p ≠ [] := Path.split_ne_nil p
    refine ⟨above, n, by simp, others ++ [(split '/' p).getLast hne], by simp, ?_⟩
    conv_lhs => rw [← List.dropLast_append_getLast hne, hsplit]
    simp
  · rintro ⟨above, n, -, below, hbelow, hsplit⟩
    refine ⟨above, n :: below.dropLast, by simp, ?_⟩
    rw [hsplit, List.dropLast_append_of_ne_nil hbelow]
    simp

theorem isInExcludedDirectory_iff :
    f.isInExcludedDirectory p = true ↔
      (∃ above n, n ∈ excludedDirectoryNames ∧ Path.IsAbove (above ++ [n]) p) ∨
        (f.includeSubprojects = false ∧
          ∃ above n, Path.IsAbove (above ++ [subprojectParent, n]) p) ∨
        ∃ names, Path.joined names ∈ f.directories ∧ Path.IsAbove names p := by
  have hdirectories : (f.directories.any fun d => (Path.below? d p).isSome) = true ↔
      ∃ names, Path.joined names ∈ f.directories ∧ Path.IsAbove names p := by
    simp only [List.any_eq_true, Path.isSome_below?_iff, ← Path.exists_isAbove_iff]
    constructor
    · rintro ⟨_, hmem, names, rfl, habove⟩
      exact ⟨names, hmem, habove⟩
    · rintro ⟨names, hmem, habove⟩
      exact ⟨Path.joined names, hmem, names, rfl, habove⟩
  rw [isInExcludedDirectory, Bool.or_eq_true, Bool.or_eq_true, Bool.and_eq_true,
    Bool.not_eq_true', any_excludedName_iff, contains_dropLast_iff, hdirectories, or_assoc]

theorem isIgnored_iff {ignored : List String} :
    isIgnored ignored p = true ↔
      p ∈ ignored ∨ ∃ entry ∈ ignored, endsWith entry "/" = true ∧ ∃ rest, p = entry ++ rest := by
  simp only [isIgnored, Bool.or_eq_true, List.contains_iff_mem, List.any_eq_true,
    mem_ancestorsOf_iff]
  refine or_congr_right ⟨?_, ?_⟩
  · rintro ⟨d, ⟨before, rest, rfl, hp⟩, hmem⟩
    refine ⟨_, hmem, Path.endsWith_slash_iff.2 ⟨String.ofList before, ?_⟩, String.ofList rest, ?_⟩
    · exact String.toList_injective (by simp)
    · exact String.toList_injective (by simpa using hp)
  · rintro ⟨entry, hmem, hslash, rest, rfl⟩
    obtain ⟨directory, rfl⟩ := Path.endsWith_slash_iff.1 hslash
    exact ⟨(directory ++ "/").toList, ⟨directory.toList, rest.toList, by simp, by simp⟩,
      by simpa using hmem⟩

/-- A filter without one of its entries, be it a directory or ignored. -/
def without (f : PathFilter) (entry : String) : PathFilter :=
  { f with
    directories := f.directories.filter (· ≠ entry)
    ignored := f.ignored.filter (· ≠ entry) }

/-- An entry makes no difference to a path that it does not lead to. -/
theorem isInExcludedLocation_without (h : ¬ Path.LeadsTo entry p) :
    (f.without entry).isInExcludedLocation p = f.isInExcludedLocation p := by
  have hdirectory :
      (∃ names, Path.joined names ∈ (f.without entry).directories ∧ Path.IsAbove names p) ↔
        ∃ names, Path.joined names ∈ f.directories ∧ Path.IsAbove names p := by
    refine exists_congr fun names => and_congr_left fun habove => ?_
    have hne : Path.joined names ≠ entry := by
      rintro rfl
      exact h habove.leadsTo
    simp [without, hne]
  have hself : p ∈ (f.without entry).ignored ↔ p ∈ f.ignored := by
    have hne : p ≠ entry := by
      rintro rfl
      exact h (Path.leadsTo_self p)
    simp [without, hne]
  have hbegins : (∃ e ∈ (f.without entry).ignored, endsWith e "/" = true ∧ ∃ rest, p = e ++ rest) ↔
      ∃ e ∈ f.ignored, endsWith e "/" = true ∧ ∃ rest, p = e ++ rest := by
    refine exists_congr fun e => and_congr_left fun ⟨hslash, rest, hp⟩ => ?_
    have hne : e ≠ entry := by
      rintro rfl
      exact h (hp ▸ Path.leadsTo_append hslash rest)
    simp [without, hne]
  rw [Bool.eq_iff_iff, isInExcludedLocation, isInExcludedLocation, Bool.or_eq_true,
    Bool.or_eq_true, isInExcludedDirectory_iff, isInExcludedDirectory_iff, isIgnored_iff,
    isIgnored_iff, hdirectory, hself, hbegins]
  rfl

/-- The filter of a project is made of its options and of what version control
answers. -/
theorem of_eq_ok (options : CoverageOptions) (name : String) (ignored submodules : List String) :
    of options ⟨name, .ok ignored, .ok submodules⟩ =
      .ok ⟨options.manifestName, options.includeSubprojects,
        (options.licenseDirectory :: if options.includeSubmodules then [] else submodules).map
          normalizeDirectory, ignored⟩ := by
  rw [of]
  cases options.includeSubmodules <;> rfl

variable {options : CoverageOptions} {name directory : String} {ignored submodules : List String}

/-- The directories of a filter are the license directory and, unless they are
included, the submodules. -/
theorem mem_directories_iff (h : of options ⟨name, .ok ignored, .ok submodules⟩ = .ok f) :
    directory ∈ f.directories ↔
      directory = normalizeDirectory options.licenseDirectory ∨
        options.includeSubmodules = false ∧
          ∃ submodule ∈ submodules, directory = normalizeDirectory submodule := by
  obtain rfl := Except.ok.inj ((of_eq_ok options name ignored submodules).symm.trans h)
  cases options.includeSubmodules <;> simp [eq_comm]

/-- A path lies in an excluded directory of a filter when the options exclude a
directory above it. -/
theorem isInExcludedDirectory_of (h : of options ⟨name, .ok ignored, .ok submodules⟩ = .ok f) :
    f.isInExcludedDirectory p = true ↔
      ∃ names, options.Excludes submodules names ∧ Path.IsAbove names p := by
  have hinclude : f.includeSubprojects = options.includeSubprojects := by
    obtain rfl := Except.ok.inj ((of_eq_ok options name ignored submodules).symm.trans h)
    rfl
  rw [isInExcludedDirectory_iff, hinclude]
  constructor
  · rintro (⟨above, n, hn, habove⟩ | ⟨hincluded, above, n, habove⟩ | ⟨names, hmem, habove⟩)
    · exact ⟨_, .named hn, habove⟩
    · exact ⟨_, .subproject hincluded, habove⟩
    · rcases (mem_directories_iff h).1 hmem with hnames | ⟨hincluded, submodule, hmem, hnames⟩
      · exact ⟨names, .licenses hnames, habove⟩
      · exact ⟨names, .submodule hincluded hmem hnames, habove⟩
  · rintro ⟨names, hexcludes, habove⟩
    cases hexcludes with
    | named hn => exact .inl ⟨_, _, hn, habove⟩
    | subproject hincluded => exact .inr (.inl ⟨hincluded, _, _, habove⟩)
    | licenses hnames =>
        exact .inr (.inr ⟨names, (mem_directories_iff h).2 (.inl hnames), habove⟩)
    | submodule hincluded hmem hnames =>
        exact .inr (.inr ⟨names, (mem_directories_iff h).2 (.inr ⟨hincluded, _, hmem, hnames⟩),
          habove⟩)

/-- A path lies in an excluded location when a directory above it is excluded,
or an ignored entry is the path or a directory that the path begins with. -/
theorem isInExcludedLocation_iff (h : of options ⟨name, .ok ignored, .ok submodules⟩ = .ok f) :
    f.isInExcludedLocation p = true ↔
      (∃ names, options.Excludes submodules names ∧ Path.IsAbove names p) ∨ p ∈ ignored ∨
        ∃ entry ∈ ignored, endsWith entry "/" = true ∧ ∃ rest, p = entry ++ rest := by
  have hignored : f.ignored = ignored := by
    obtain rfl := Except.ok.inj ((of_eq_ok options name ignored submodules).symm.trans h)
    rfl
  rw [isInExcludedLocation, Bool.or_eq_true, isInExcludedDirectory_of h, isIgnored_iff, hignored]

/-- **What excludes a location**: for all options, ignored entries and
submodules there is a filter, and it excludes a path for the directories above
it and for the ignored entries that it is or begins with, and for nothing else.
All that lies below an excluded or ignored directory is excluded with it, and
an entry whose names are not the first names of a path makes no difference to
it. -/
theorem isInExcludedLocation_of (options : CoverageOptions) (name : String)
    (ignored submodules : List String) :
    ∃ f, of options ⟨name, .ok ignored, .ok submodules⟩ = .ok f ∧
      (∀ p, f.isInExcludedLocation p = true ↔
        (∃ names, options.Excludes submodules names ∧ Path.IsAbove names p) ∨ p ∈ ignored ∨
          ∃ entry ∈ ignored, endsWith entry "/" = true ∧ ∃ rest, p = entry ++ rest) ∧
      (∀ names, options.Excludes submodules names →
        ∀ p, Path.IsAbove names p → f.isInExcludedLocation p = true) ∧
      (∀ entry ∈ ignored, endsWith entry "/" = true →
        ∀ rest, f.isInExcludedLocation (entry ++ rest) = true) ∧
      ∀ entry p, ¬ Path.LeadsTo entry p →
        (f.without entry).isInExcludedLocation p = f.isInExcludedLocation p := by
  have hf := of_eq_ok options name ignored submodules
  refine ⟨_, hf, fun p => isInExcludedLocation_iff hf, ?_, ?_, ?_⟩
  · intro names hexcludes p habove
    exact (isInExcludedLocation_iff hf).2 (.inl ⟨names, hexcludes, habove⟩)
  · intro entry hmem hslash rest
    exact (isInExcludedLocation_iff hf).2 (.inr (.inr ⟨entry, hmem, hslash, rest, rfl⟩))
  · intro entry p hleads
    exact isInExcludedLocation_without hleads

/-- A license directory, shortened, and an ignored directory exclude what lies
below them; a name that only begins like the ignored directory is not its. -/
theorem isInExcludedLocation_partialName :
    let options : CoverageOptions := { licenseDirectory := "./docs//licenses/" }
    ∃ f, of options ⟨"git", .ok ["build/"], .ok ["vendor/lib"]⟩ = .ok f ∧
      options.Excludes ["vendor/lib"] ["docs", "licenses"] ∧
      Path.IsAbove ["docs", "licenses"] "docs/licenses/MIT.txt" ∧
      f.isInExcludedLocation "docs/licenses/MIT.txt" = true ∧
      f.isInExcludedLocation "build/out.c" = true ∧
      ¬ Path.LeadsTo "build/" "buildings.txt" ∧
      (f.without "build/").isInExcludedLocation "buildings.txt" =
        f.isInExcludedLocation "buildings.txt" := by
  intro options
  obtain ⟨f, hf, -, hbelow, hignored, hpartial⟩ :=
    isInExcludedLocation_of options "git" ["build/"] ["vendor/lib"]
  have hexcludes : options.Excludes ["vendor/lib"] ["docs", "licenses"] :=
    .licenses (by decide +kernel)
  have habove : Path.IsAbove ["docs", "licenses"] "docs/licenses/MIT.txt" :=
    ⟨by simp, ["MIT.txt"], by simp, by decide +kernel⟩
  have hleads : ¬ Path.LeadsTo "build/" "buildings.txt" := by decide +kernel
  exact ⟨f, hf, hexcludes, habove, hbelow _ hexcludes _ habove,
    hignored "build/" (by simp) (by decide +kernel) "out.c", hleads, hpartial _ _ hleads⟩

end PathFilter

end LicenseAudit
