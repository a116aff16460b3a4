import LicenseAudit.Proofs.Scan.Canonical
import LicenseAudit.Proofs.Scan.Workers

/-!
# Files that cannot be read

Evidence without lines is refused.  All who make evidence look first: a text
is asked for tags, an entry for lines, an entry that fills in for lines of one
kind, and a paragraph always has its license.  They look at lines as they were
found, and evidence has them in order and without repetitions.  One list has a
line exactly if the other has, so no evidence is refused.

Then a file cannot be read for one reason only, that something **obstructs**
it: something other than its absence keeps its sidecar from being found, or
there is no sidecar and the file does not open (`collect_eq_error_iff`).  The
read errors of a report are about the targets that are obstructed, with the
sentence about the obstacle (`evidence_hasLines`).
-/

namespace LicenseAudit

open Text

variable {tree : Tree} {root path place : String}

namespace Collection

/-- The evidence of an extraction has its tags. -/
theorem exists_evidenceOf (origin : Origin) (path : String) (found : Extraction) :
    ∃ records, evidenceOf origin path found = .ok records := by
  unfold evidenceOf
  split
  · next htags => exact ⟨_, by rw [Evidence.of_eq_ok htags]; rfl⟩
  · exact ⟨[], rfl⟩

/-- The evidence of the deprecated manifest has the license of a
paragraph. -/
theorem exists_deprecatedEvidence (manifest : Option Dep5) (path : String) :
    ∃ records, deprecatedEvidence manifest path = .ok records := by
  unfold deprecatedEvidence
  cases manifest with
  | none => exact ⟨[], rfl⟩
  | some m =>
      dsimp only
      cases m.find? path with
      | none => exact ⟨[], rfl⟩
      | some found =>
          have hlicense : (⟨found.1.copyrights, [found.1.license], []⟩ : Fields).any = true := by
            simp [Fields.any]
          exact ⟨_, by dsimp only; rw [Evidence.of_eq_ok hlicense]; rfl⟩

/-- What **obstructs** the file at a place: it cannot be told whether it has a
sidecar, or it has none and cannot be read itself. -/
inductive Obstructs (tree : Tree) (place : String) (f : FileError) : Prop where
  | sidecar (look : hasFile tree (place ++ sidecarEnding) = .error (.unreadable f))
  | file (look : hasFile tree (place ++ sidecarEnding) = .ok false)
      (read_eq : tree.read place = .error f)

theorem obstructs_iff {f : FileError} :
    Obstructs tree place f ↔
      hasFile tree (place ++ sidecarEnding) = .error (.unreadable f) ∨
        hasFile tree (place ++ sidecarEnding) = .ok false ∧ tree.read place = .error f := by
  constructor
  · intro h
    cases h with
    | sidecar look => exact .inl look
    | file look hread => exact .inr ⟨look, hread⟩
  · rintro (look | ⟨look, hread⟩)
    · exact .sidecar look
    · exact .file look hread

/-- Only one error obstructs a file. -/
theorem Obstructs.unique {f g : FileError} (hf : Obstructs tree place f)
    (hg : Obstructs tree place g) : f = g := by
  rcases obstructs_iff.1 hf with hsidecar | ⟨hnone, hread⟩
  · rcases obstructs_iff.1 hg with hsidecar' | ⟨hnone', -⟩
    · exact CollectionError.unreadable.inj (Except.error.inj (hsidecar.symm.trans hsidecar'))
    · cases hsidecar.symm.trans hnone'
  · rcases obstructs_iff.1 hg with hsidecar' | ⟨-, hread'⟩
    · cases hnone.symm.trans hsidecar'
    · exact Except.error.inj (hread.symm.trans hread')

/-- Whether a path has a file cannot be told when something other than its
absence is in the way. -/
theorem hasFile_eq_error_iff {e : CollectionError} :
    hasFile tree path = .error e ↔
      ∃ f, e = .unreadable f ∧ tree.isFile path = .error f ∧
        f.obstacle ≠ .missing ∧ f.obstacle ≠ .notFolder := by
  unfold hasFile
  cases hlook : tree.isFile path with
  | ok answer => simp
  | error f =>
      by_cases habsent : f.obstacle = .missing ∨ f.obstacle = .notFolder
      · simp only [if_pos habsent, reduceCtorEq, false_iff, not_exists, not_and]
        rintro f' - hf hmissing
        obtain rfl := Except.error.inj hf
        exact not_not.2 (habsent.resolve_left hmissing)
      · simp only [if_neg habsent, Except.error.injEq]
        rw [not_or] at habsent
        constructor
        · rintro rfl
          exact ⟨f, rfl, rfl, habsent⟩
        · rintro ⟨f', rfl, rfl, -⟩
          rfl

/-- What has a file can be read. -/
theorem exists_bytesOf (h : hasFile tree path = .ok true) :
    ∃ bytes, bytesOf tree path = .ok bytes := by
  rw [bytesOf, Tree.read_eq]
  rw [hasFile, Tree.isFile_eq] at h
  cases hfind : tree.find path with
  | error o =>
      rw [hfind] at h
      dsimp only at h
      split at h <;> cases h
  | ok t =>
      rw [hfind] at h
      cases t with
      | file bytes => exact ⟨bytes, rfl⟩
      | link target => cases h
      | folder entries => cases h

/-- Nothing speaks for a file exactly if something obstructs it. -/
theorem speaker_eq_error_iff {headerBytes : Nat} {e : CollectionError} :
    speaker tree root path headerBytes = .error e ↔
      ∃ f, e = .unreadable f ∧ Obstructs tree (Path.join root path) f := by
  simp only [obstructs_iff, speaker]
  cases hsidecar : hasFile tree (Path.join root path ++ sidecarEnding) with
  | error e' =>
      obtain ⟨f, rfl, -⟩ := hasFile_eq_error_iff.1 hsidecar
      simp [bind, Except.bind, eq_comm]
  | ok answer =>
      cases answer with
      | true =>
          obtain ⟨bytes, hbytes⟩ := exists_bytesOf hsidecar
          simp [hbytes, bind, Except.bind, pure, Except.pure]
      | false =>
          cases hread : tree.read (Path.join root path) with
          | ok bytes => simp [bytesOf, hread, Except.mapError, bind, Except.bind, pure, Except.pure]
          | error f => simp [bytesOf, hread, Except.mapError, bind, Except.bind, eq_comm]

end Collection

open Collection

/-- Evidence about a file cannot be collected exactly if something obstructs
the file. -/
theorem collect_eq_error_iff {headerBytes : Nat} {manifest : Option Dep5}
    {extract : String → Extraction} {e : CollectionError} :
    collect tree root headerBytes manifest extract path = .error e ↔
      ∃ f, e = .unreadable f ∧ Obstructs tree (Path.join root path) f := by
  have hsilent : speaker tree root path headerBytes = .error e ↔ _ := speaker_eq_error_iff
  rw [← hsilent]
  unfold collect
  cases hspeaker : speaker tree root path headerBytes with
  | error e' => simp [bind, Except.bind]
  | ok found =>
      obtain ⟨origin, source, text⟩ := found
      obtain ⟨own, hown⟩ := exists_evidenceOf origin source ((text.map extract).getD ⟨Fields.none, []⟩)
      obtain ⟨deprecated, hdeprecated⟩ := exists_deprecatedEvidence manifest path
      simp [hown, hdeprecated, bind, Except.bind, pure, Except.pure]

/-- A file is unread exactly if something obstructs it, and the sentence about
it is that about the obstacle. -/
theorem Sources.outcome_eq_unread_iff {s : Sources} {extract : String → Extraction}
    {e : ReadError} :
    s.outcome extract path = .unread e ↔
      ∃ f, Obstructs s.project.tree (Path.join s.project.root path) f ∧ e = ⟨path, f.message⟩ := by
  cases hcollect : collect s.project.tree s.project.root s.project.config.headerBytes s.dep5 extract
      path with
  | error e' =>
      obtain ⟨f, rfl, hobstructs⟩ := collect_eq_error_iff.1 hcollect
      have houtcome : s.outcome extract path = .unread ⟨path, f.message⟩ := by
        rw [outcome, inform, hcollect]
        rfl
      rw [houtcome]
      constructor
      · intro he
        exact ⟨f, hobstructs, (Outcome.unread.inj he).symm⟩
      · rintro ⟨g, hg, rfl⟩
        rw [hobstructs.unique hg]
  | ok found =>
      have houtcome : ∃ info, s.outcome extract path = .known info := by
        simp only [outcome, inform, hcollect, Except.mapError, Resolution.resolve_eq_ok, bind,
          Except.bind]
        exact ⟨_, rfl⟩
      obtain ⟨info, houtcome⟩ := houtcome
      rw [houtcome]
      constructor
      · intro he
        cases he
      · rintro ⟨f, hobstructs, -⟩
        have hfails : collect s.project.tree s.project.root s.project.config.headerBytes s.dep5
            extract path = .error (.unreadable f) :=
          collect_eq_error_iff.2 ⟨f, rfl, hobstructs⟩
        cases hcollect.symm.trans hfails

/-- The read errors of a report are about the targets that are obstructed. -/
theorem Scan.mem_readErrors_reportOf {p : Project} {s : Survey} {selection : Selection}
    {e : ReadError} :
    e ∈ (reportOf p s selection).findings.readErrors ↔
      e.path ∈ selection.targets s ∧
        ∃ f, Obstructs p.tree (Path.join p.root e.path) f ∧ e.message = f.message := by
  have hunread : ((Sources.of p s.files.manifests).outcomeAt e.path).readError? = some e ↔
      (Sources.of p s.files.manifests).outcomeAt e.path = .unread e := by
    cases (Sources.of p s.files.manifests).outcomeAt e.path <;> simp [Outcome.readError?]
  have hproject : (Sources.of p s.files.manifests).project = p := rfl
  obtain ⟨path, message⟩ := e
  rw [readErrors_reportOf, mem_sortedOn, outcomes, Sources.mem_part Outcome.isPart_readError,
    hunread, Sources.outcomeAt, Sources.outcome_eq_unread_iff, hproject]
  simp

/-- **Evidence never lacks lines**: what is read of a file is evidence unless
something obstructs the file, the evidence is always resolved, and so the read
errors of a report are just those of the targets that are obstructed. -/
theorem evidence_hasLines :
    (∀ (tree : Tree) (root path : String) (headerBytes : Nat) (manifest : Option Dep5)
      (extract : String → Extraction) (e : CollectionError),
      collect tree root headerBytes manifest extract path = .error e ↔
        ∃ f, e = .unreadable f ∧ Obstructs tree (Path.join root path) f) ∧
    (∀ (path : String) (records : List Evidence) (entries : List Entry)
      (options : Resolution.Options), ∃ info, resolve path records entries options = .ok info) ∧
    ∀ (p : Project) (vcs : Except Failure Vcs) (s : Survey) (selection : Selection),
      p.survey vcs = .ok s → ∀ r, p.MayReport vcs selection r → ∀ e,
        e ∈ r.findings.readErrors ↔
          e.path ∈ selection.targets s ∧
            ∃ f, Obstructs p.tree (Path.join p.root e.path) f ∧ e.message = f.message := by
  refine ⟨fun _ _ _ _ _ _ _ => collect_eq_error_iff,
    fun path records entries options => ⟨_, Resolution.resolve_eq_ok path records entries options⟩,
    ?_⟩
  intro p vcs s selection hs r hr e
  obtain rfl := (Project.mayReport_iff_of_survey hs).1 hr
  exact Scan.mem_readErrors_reportOf

/-- A file that is not there is the one that is unread. -/
theorem evidence_hasLines_absent :
    let p := Project.plain [("a.c", .file [120, 10])]
    let selection : Selection := .only ["b.c"]
    p.survey (.ok .none) = .ok (Project.plainSurvey [("a.c", .file [120, 10])]) ∧
      ∃ r, p.MayReport (.ok .none) selection r ∧
        ⟨"b.c", "ENOENT: no such file or directory, open '/p/b.c'"⟩ ∈ r.findings.readErrors := by
  intro p selection
  have hs := Project.survey_plain [("a.c", .file [120, 10])] rfl
  have hmay : p.MayReport (.ok .none) selection _ := (Project.mayReport_iff_of_survey hs).2 rfl
  have hplace : Path.join "/p" "b.c" = "/p/b.c" := by decide +kernel
  have hsidecar : hasFile p.tree ("/p/b.c" ++ sidecarEnding) = .ok false :=
    hasFile_of_missing (Tree.find_absent
      (show Tree.GoesBy ("/p/b.c" ++ sidecarEnding) ["p", "b.c.license"] by decide) rfl)
  have hread : p.tree.read "/p/b.c" = .error ⟨.missing, "open", some "/p/b.c"⟩ := by
    rw [Tree.read_eq, show p.tree.find "/p/b.c" = _ from
      Tree.find_absent (show Tree.GoesBy "/p/b.c" ["p", "b.c"] by decide) rfl]
  have htarget : "b.c" ∈ selection.targets (Project.plainSurvey [("a.c", .file [120, 10])]) := by
    decide +kernel
  refine ⟨hs, _, hmay, (evidence_hasLines.2.2 p (.ok .none) _ selection hs _ hmay _).2
    ⟨htarget, ⟨.missing, "open", some "/p/b.c"⟩, ?_, by decide +kernel⟩⟩
  rw [show p.root = "/p" from rfl, hplace]
  exact .file hsidecar hread

end LicenseAudit
