import LicenseAudit.Proofs.Coverage.Manifests
import LicenseAudit.Proofs.Scan.Workers

/-!
# What the outcome of a file depends on

What a scan finds out about a file depends on the file, its sidecar, the
deprecated manifest and the manifests in the directories above it.  Two trees
that **agree** on these (`Project.Agree`) may differ in everything else: in
other files, in manifests elsewhere and in the license texts.

The entries of a manifest match only paths below its directory, so of all
manifests those above the file are left (`filter_isMatch_entries`), and
these are the same in both trees (`filter_manifests_eq`).  The rest of what
comes of a file is read from the places that the trees agree on
(`outcomeAt_eq`).
-/

namespace LicenseAudit

open Text

/-- A directory is **above** a path when the path lies in it; the root
directory, which has the empty path, is above every path. -/
def IsAbove (directory path : String) : Prop :=
  directory = "" ∨ ∃ rest, path = directory ++ "/" ++ rest

instance (directory path : String) : Decidable (IsAbove directory path) :=
  decidable_of_iff (directory = "" ∨ (Path.below? directory path).isSome = true)
    (or_congr_right Path.isSome_below?_iff)

namespace Project

/-- The project with other files. -/
def withTree (p : Project) (tree : Tree) : Project :=
  { p with tree }

variable (p : Project) (tree : Tree)

@[simp] theorem tree_withTree : (p.withTree tree).tree = tree := rfl

@[simp] theorem root_withTree : (p.withTree tree).root = p.root := rfl

@[simp] theorem config_withTree : (p.withTree tree).config = p.config := rfl

end Project

/-- Two trees **agree** on a path of a project when they have the same at the
path, at that of its sidecar and at that of the deprecated manifest, and in
each directory above the path the same manifest or none. -/
structure Project.Agree (p : Project) (t₁ t₂ : Tree) (path : String) : Prop where
  file : t₁.read (Path.join p.root path) = t₂.read (Path.join p.root path)
  sidecar : t₁.read (Path.join p.root path ++ Collection.sidecarEnding) =
    t₂.read (Path.join p.root path ++ Collection.sidecarEnding)
  deprecated : t₁.read (Path.join p.root p.config.dep5Path) =
    t₂.read (Path.join p.root p.config.dep5Path)
  manifests : ∀ directory, IsAbove directory path →
    let manifest := Manifest.within directory p.config.manifestName
    ((∃ bytes, t₁.HasFile p.root manifest bytes) ↔ ∃ bytes, t₂.HasFile p.root manifest bytes) ∧
      t₁.read (Path.join p.root manifest) = t₂.read (Path.join p.root manifest)

section Reading

variable {p : Project} {t₁ t₂ : Tree} {root path : String}

theorem Collection.speaker_congr
    (hfile : t₁.read (Path.join root path) = t₂.read (Path.join root path))
    (hsidecar : t₁.read (Path.join root path ++ sidecarEnding) =
      t₂.read (Path.join root path ++ sidecarEnding)) (headerBytes : Nat) :
    speaker t₁ root path headerBytes = speaker t₂ root path headerBytes := by
  simp only [speaker, hasFile, bytesOf, hfile, hsidecar, Tree.isFile_eq_of_read_eq hsidecar]

namespace Project

theorem textAt_congr (h : t₁.read (Path.join p.root path) = t₂.read (Path.join p.root path)) :
    (p.withTree t₁).textAt path = (p.withTree t₂).textAt path := by
  simp only [textAt, tree_withTree, root_withTree, h]

theorem entriesAt_congr (h : t₁.read (Path.join p.root path) = t₂.read (Path.join p.root path)) :
    (p.withTree t₁).entriesAt path = (p.withTree t₂).entriesAt path := by
  simp only [entriesAt, manifestAt, textAt_congr h]

theorem dep5_congr (h : t₁.read (Path.join p.root p.config.dep5Path) =
    t₂.read (Path.join p.root p.config.dep5Path)) :
    (p.withTree t₁).dep5? = (p.withTree t₂).dep5? := by
  have hholds := Tree.holds_eq_of_read_eq h
  cases hfound : t₂.holds (Path.join p.root p.config.dep5Path) <;>
    simp [dep5?, hholds, hfound, textAt_congr h]

end Project

/-- What comes of a file is decided by the text that speaks for it, the
deprecated manifest and the entries that match its path. -/
theorem Sources.outcomeAt_congr {s₁ s₂ : Sources}
    (hcatalog : s₁.project.catalog = s₂.project.catalog)
    (hconfig : s₁.project.config = s₂.project.config)
    (hspeaker : ∀ headerBytes,
      Collection.speaker s₁.project.tree s₁.project.root path headerBytes =
        Collection.speaker s₂.project.tree s₂.project.root path headerBytes)
    (hdep5 : s₁.dep5 = s₂.dep5)
    (hentries : s₁.entries.filter (·.isMatch path) = s₂.entries.filter (·.isMatch path)) :
    s₁.outcomeAt path = s₂.outcomeAt path := by
  have hresolve := Resolution.resolve_congr hentries
  simp only [outcomeAt, outcome, inform, collect, hcatalog, hconfig, hspeaker, hdep5, hresolve]

end Reading

/-- The entries of a manifest are those that its text spells. -/
theorem Project.exists_parse_of_mem_entriesAt {p : Project} {manifest : String} {e : Entry}
    (he : e ∈ p.entriesAt manifest) :
    ∃ text m, p.textAt manifest = .ok text ∧ Manifest.parse manifest text = .ok m ∧
      e ∈ m.entries := by
  unfold entriesAt manifestAt at he
  cases htext : p.textAt manifest with
  | error reason => simp [htext] at he
  | ok text =>
      cases hparse : Manifest.parse manifest text with
      | error fault => simp [htext, hparse, Except.mapError] at he
      | ok m => exact ⟨text, m, rfl, hparse, by simpa [htext, hparse, Except.mapError] using he⟩

/-- They lie in its directory. -/
theorem Project.directory_of_mem_entriesAt {p : Project} {manifest : String} {e : Entry}
    (he : e ∈ p.entriesAt manifest) : e.directory = Manifest.directoryOf manifest := by
  obtain ⟨text, m, -, hparse, hmem⟩ := exists_parse_of_mem_entriesAt he
  exact Entry.directory_of_parse hparse hmem

/-- An entry that matches a path lies in a directory above it. -/
theorem Entry.isAbove_of_isMatch {e : Entry} {path : String} (h : e.isMatch path = true) :
    IsAbove e.directory path := by
  refine (below_of_isMatch h).imp_right fun ⟨rest, hrest⟩ => ⟨String.ofList rest, ?_⟩
  exact String.toList_injective (by simpa using hrest)

namespace Project

/-- Of the manifests of a project only those above a path have entries that
match it. -/
theorem filter_isMatch_entries (p : Project) (manifests : List String) (path : String) :
    (manifests.flatMap p.entriesAt).filter (·.isMatch path) =
      (manifests.filter fun m => decide (IsAbove (Manifest.directoryOf m) path)).flatMap fun m =>
        (p.entriesAt m).filter (·.isMatch path) := by
  induction manifests with
  | nil => rfl
  | cons m manifests ih =>
      rw [List.flatMap_cons, List.filter_append, ih]
      by_cases habove : IsAbove (Manifest.directoryOf m) path
      · rw [List.filter_cons_of_pos (by simpa using habove), List.flatMap_cons]
      · have hnone : (p.entriesAt m).filter (·.isMatch path) = [] := by
          refine List.filter_eq_nil_iff.2 fun e he hmatch => habove ?_
          rw [← directory_of_mem_entriesAt he]
          exact Entry.isAbove_of_isMatch hmatch
        rw [List.filter_cons_of_neg (by simpa using habove), hnone, List.nil_append]

variable {p : Project} {t₁ t₂ : Tree} {path : String} {f : PathFilter}

/-- A manifest above the path is the same in both trees. -/
theorem Agree.manifest (h : p.Agree t₁ t₂ path) {m : String} (hplace : Path.IsPlace m)
    (hname : Path.name m = p.config.manifestName) (habove : IsAbove (Manifest.directoryOf m) path) :
    ((∃ bytes, t₁.HasFile p.root m bytes) ↔ ∃ bytes, t₂.HasFile p.root m bytes) ∧
      t₁.read (Path.join p.root m) = t₂.read (Path.join p.root m) := by
  have hwithin : Manifest.within (Manifest.directoryOf m) p.config.manifestName = m := by
    rw [← hname, Manifest.within_directoryOf hplace]
  have hmanifest := h.manifests _ habove
  rwa [hwithin] at hmanifest

section Trees

variable {entries₁ entries₂ : List (String × Tree)}
variable (h : p.Agree t₁ t₂ path) (h₁ : t₁.IsProper) (h₂ : t₂.IsProper)
variable (hroot₁ : t₁.find p.root = .ok (.folder entries₁))
variable (hroot₂ : t₂.find p.root = .ok (.folder entries₂))
variable (hf : f.manifestName = p.config.manifestName)
include h h₁ h₂ hroot₁ hroot₂ hf

/-- The walks of both trees meet the same manifests above the path, in the same
order. -/
theorem Agree.filter_manifests_eq :
    (ProjectFiles.of t₁ p.root f).manifests.filter
        (fun m => decide (IsAbove (Manifest.directoryOf m) path)) =
      (ProjectFiles.of t₂ p.root f).manifests.filter
        fun m => decide (IsAbove (Manifest.directoryOf m) path) := by
  have hlisting₁ := (ProjectFiles.isListing_manifests (f := f) h₁ hroot₁).filter
    fun m => decide (IsAbove (Manifest.directoryOf m) path)
  have hlisting₂ := (ProjectFiles.isListing_manifests (f := f) h₂ hroot₂).filter
    fun m => decide (IsAbove (Manifest.directoryOf m) path)
  refine (hlisting₁.congr fun m => ?_).unique (fun _ _ hab => hab.asymm) hlisting₂
  have hname (hm : f.isManifest m = true) : Path.name m = p.config.manifestName := by
    rw [← hf]
    exact beq_iff_eq.1 hm
  simp only [decide_eq_true_eq]
  constructor
  · rintro ⟨⟨⟨bytes, hfile⟩, hpassed, hm, hplace⟩, habove⟩
    exact ⟨⟨(h.manifest (hfile.isPlace h₁) (hname hm) habove).1.1 ⟨bytes, hfile⟩, hpassed, hm,
      hplace⟩, habove⟩
  · rintro ⟨⟨⟨bytes, hfile⟩, hpassed, hm, hplace⟩, habove⟩
    exact ⟨⟨(h.manifest (hfile.isPlace h₂) (hname hm) habove).1.2 ⟨bytes, hfile⟩, hpassed, hm,
      hplace⟩, habove⟩

/-- The entries that match the path are the same in both trees. -/
theorem Agree.filter_entries_eq :
    ((ProjectFiles.of t₁ p.root f).manifests.flatMap (p.withTree t₁).entriesAt).filter
        (·.isMatch path) =
      ((ProjectFiles.of t₂ p.root f).manifests.flatMap (p.withTree t₂).entriesAt).filter
        (·.isMatch path) := by
  rw [filter_isMatch_entries, filter_isMatch_entries,
    h.filter_manifests_eq h₁ h₂ hroot₁ hroot₂ hf]
  refine List.flatMap_congr fun m hm => ?_
  obtain ⟨hm, habove⟩ := List.mem_filter.1 hm
  obtain ⟨⟨bytes, hfile⟩, -, hname, -⟩ := (ProjectFiles.mem_manifests_iff h₂ hroot₂).1 hm
  have hagree := h.manifest (hfile.isPlace h₂) ((beq_iff_eq.1 hname).trans hf)
    (of_decide_eq_true habove)
  rw [entriesAt_congr hagree.2]

/-- What comes of the file is the same in both trees. -/
theorem Agree.outcomeAt_eq :
    (Sources.of (p.withTree t₁) (ProjectFiles.of t₁ p.root f).manifests).outcomeAt path =
      (Sources.of (p.withTree t₂) (ProjectFiles.of t₂ p.root f).manifests).outcomeAt path := by
  have hdep5 : (p.withTree t₁).dep5?.bind Except.toOption =
      (p.withTree t₂).dep5?.bind Except.toOption := by rw [dep5_congr h.deprecated]
  exact Sources.outcomeAt_congr rfl rfl (Collection.speaker_congr h.file h.sidecar) hdep5
    (h.filter_entries_eq h₁ h₂ hroot₁ hroot₂ hf)

end Trees

end Project

namespace Report

/-- What a report says of the file at a path: what is known about it, or why
it cannot be read. -/
def outcome? (r : Report) (path : String) : Option Outcome :=
  match r.files.find? (·.path = path) with
  | some info => some (.known info)
  | none => (r.findings.readErrors.find? (·.path = path)).map .unread

end Report

namespace Scan

variable {p : Project} {s : Survey} {selection : Selection} {path : String}

/-- The report of a scan says of each target what comes of it. -/
theorem outcome?_reportOf (h : path ∈ selection.targets s) :
    (reportOf p s selection).outcome? path =
      some ((Sources.of p s.files.manifests).outcomeAt path) := by
  have hfiles : (reportOf p s selection).files.find? (·.path = path) =
      ((Sources.of p s.files.manifests).outcomeAt path).info? :=
    Sources.find?_part Outcome.isPart_info h
  have herrors : (reportOf p s selection).findings.readErrors.find? (·.path = path) =
      ((Sources.of p s.files.manifests).outcomeAt path).readError? := by
    cases selection <;> exact Sources.find?_part Outcome.isPart_readError h
  rw [Report.outcome?, hfiles, herrors]
  cases (Sources.of p s.files.manifests).outcomeAt path <;> rfl

end Scan

namespace Project

variable {p : Project} {t₁ t₂ : Tree} {vcs : Except Failure Vcs} {s s₁ s₂ : Survey} {path : String}

/-- The scan of a surveyed project ends with a report, and whichever it may
end with says of a covered file what comes of it. -/
theorem outcome?_of_mayReport (hs : p.survey vcs = .ok s) (hpath : path ∈ s.files.covered) :
    (∃ r, (lintProject p vcs).map Scan.report = .ok r ∧ p.MayReport vcs .covered r) ∧
      ∀ r, p.MayReport vcs .covered r →
        r.outcome? path = some ((Sources.of p s.files.manifests).outcomeAt path) := by
  refine ⟨⟨_, report_scan hs .covered, (mayReport_iff_of_survey hs).2 rfl⟩, fun r hr => ?_⟩
  rw [(mayReport_iff_of_survey hs).1 hr, Scan.outcome?_reportOf hpath]

/-- A file and a manifest, and other files next to them. -/
def withOthers (others : List (String × Tree)) : List (String × Tree) :=
  [("REUSE.toml", .file [10]), ("a.c", .file [120, 10])] ++ others

/-- Another file, and a folder that has a manifest of its own; its name begins
like that of the file. -/
def otherFiles : List (String × Tree) :=
  [("b.c", .file [121, 10]), ("a", .folder [("REUSE.toml", .file [10]), ("b.c", .file [10])])]

theorem agree_plain :
    (plain []).Agree (plain (withOthers [])).tree (plain (withOthers otherFiles)).tree "a.c" := by
  have hfile : Path.join "/p" "a.c" = "/p/a.c" := by decide +kernel
  have hsidecar : "/p/a.c" ++ Collection.sidecarEnding = "/p/a.c.license" := by decide +kernel
  have hdep5 : Path.join "/p" ".reuse/dep5" = "/p/.reuse/dep5" := by decide +kernel
  have hmanifest : Path.join "/p" "REUSE.toml" = "/p/REUSE.toml" := by decide +kernel
  have hwithin : Manifest.within "" "REUSE.toml" = "REUSE.toml" := by decide +kernel
  refine ⟨?_, ?_, ?_, ?_⟩
  · have hpath : Tree.GoesBy "/p/a.c" ["p", "a.c"] := by decide
    rw [root_plain, hfile]
    exact Tree.read_congr ((Tree.find_entry hpath rfl).trans (Tree.find_entry hpath rfl).symm)
  · have hpath : Tree.GoesBy "/p/a.c.license" ["p", "a.c.license"] := by decide
    rw [root_plain, hfile, hsidecar]
    exact Tree.read_congr ((Tree.find_absent hpath rfl).trans (Tree.find_absent hpath rfl).symm)
  · have hpath : Tree.GoesBy "/p/.reuse/dep5" ["p", ".reuse", "dep5"] := by decide
    rw [root_plain, dep5Path_plain, hdep5]
    exact Tree.read_congr ((Tree.find_absent hpath rfl).trans (Tree.find_absent hpath rfl).symm)
  · rintro directory (rfl | ⟨rest, hpath⟩)
    · rw [root_plain, manifestName_plain, hwithin]
      dsimp only
      rw [hmanifest]
      have hsplit : split '/' "REUSE.toml" = ["REUSE.toml"] := by decide +kernel
      have hpath : Tree.GoesBy "/p/REUSE.toml" ["p", "REUSE.toml"] := by decide
      exact ⟨⟨fun _ => ⟨[10], Tree.hasFile_withProject hsplit rfl⟩,
        fun _ => ⟨[10], Tree.hasFile_withProject hsplit rfl⟩⟩,
        Tree.read_congr ((Tree.find_entry hpath rfl).trans (Tree.find_entry hpath rfl).symm)⟩
    · -- The path has no slash, so only the root directory is above it.
      have hslash : '/' ∈ "a.c".toList := by rw [hpath]; simp
      exact absurd hslash (by decide)

end Project

end LicenseAudit
