import LicenseAudit.Proofs.Compliance
import LicenseAudit.Proofs.Resolution
import LicenseAudit.Scan

/-!
# What a scan makes of its targets

What comes of a file depends on its path and on the project, and not on
what a validator has validated before: `outcomeAt` says what it is without
any validator, and `scanFile_eq` that reading the file with a validator that
serves the project gives it, after which the validator serves the project
still.  It keeps the path of the file (`path_outcomeAt`), so what comes of
several files is told apart by their paths.

The report that is made of what comes of the targets is `reportOf`, and the
scan that goes from one target to the next makes this report
(`report_conduct`).
-/

namespace LicenseAudit

open Text

variable {α : Type}

/-- A validator **serves** a catalog when it is one of that catalog and
sound. -/
structure Validator.Serves (v : Validator) (catalog : Catalog) : Prop where
  sound : v.Sound
  catalog_eq : v.catalog = catalog

theorem Validator.serves_new (catalog : Catalog) : (new catalog).Serves catalog :=
  ⟨sound_new catalog, rfl⟩

/-- The path of the file that an outcome is about. -/
def Outcome.path : Outcome → String
  | .known info => info.path
  | .unread e => e.path

/-- A **part** of what comes of a file keeps its path, under a key of its
own. -/
def Outcome.IsPart (part : Outcome → Option α) (key : α → String) : Prop :=
  ∀ o a, part o = some a → key a = o.path

theorem Outcome.isPart_info : IsPart info? FileInfo.path := by
  rintro (info | e) a h
  · obtain rfl : info = a := Option.some.inj h
    rfl
  · cases h

theorem Outcome.isPart_readError : IsPart readError? ReadError.path := by
  rintro (info | e) a h
  · cases h
  · obtain rfl : e = a := Option.some.inj h
    rfl

namespace Collection

variable {tree : Tree} {root path : String} {bytes : List UInt8} {headerBytes : Nat}

theorem hasFile_of_missing (h : tree.find path = .error .missing) :
    hasFile tree path = .ok false := by
  simp [hasFile, Tree.isFile_eq, h]

/-- A file without a sidecar speaks for itself. -/
theorem speaker_of_find {place : String} (hplace : Path.join root path = place)
    (hfile : tree.find place = .ok (.file bytes))
    (hsidecar : tree.find (place ++ sidecarEnding) = .error .missing) :
    speaker tree root path headerBytes =
      .ok (.header, path, textOf? (some headerBytes) bytes) := by
  have hbytes : bytesOf tree place = .ok bytes := by
    rw [bytesOf, Tree.read_eq, hfile]
    rfl
  simp [speaker, hplace, hasFile_of_missing hsidecar, hbytes, bind, Except.bind, pure, Except.pure]

end Collection

namespace Sources

/-- What comes of the file at a path when it is read as the catalog of the
project says. -/
def outcomeAt (s : Sources) (path : String) : Outcome :=
  s.outcome (.ofText s.project.catalog) path

variable {s : Sources} {v : Validator}

/-- A validator that serves the project gives what comes of a file, and
serves the project afterwards. -/
theorem scanFile_eq (hv : v.Serves s.project.catalog) (path : String) :
    (s.scanFile path v).1 = s.outcomeAt path ∧
      (s.scanFile path v).2.Serves s.project.catalog := by
  have hextract : (fun text => (v.extract text).1) = .ofText s.project.catalog := by
    funext text
    rw [(hv.sound.extract text).1, hv.catalog_eq]
  refine ⟨by rw [scanFile, outcomeAt, hextract], ?_⟩
  cases htext : s.textFor? path with
  | none => simpa [scanFile, htext] using hv
  | some text =>
      obtain ⟨-, hsound, hcatalog⟩ := hv.sound.extract text
      simpa [scanFile, htext] using ⟨hsound, hcatalog.trans hv.catalog_eq⟩

/-- Files that are read one after the other come to what comes of each. -/
theorem scanFiles_eq (hv : v.Serves s.project.catalog) (paths : List String) :
    (s.scanFiles paths v).1 = paths.map s.outcomeAt ∧
      (s.scanFiles paths v).2.Serves s.project.catalog := by
  induction paths generalizing v with
  | nil => exact ⟨rfl, hv⟩
  | cons path paths ih =>
      obtain ⟨hfirst, hserves⟩ := scanFile_eq hv path
      obtain ⟨hrest, hend⟩ := ih hserves
      refine ⟨?_, hend⟩
      rw [scanFiles, List.map_cons, ← hfirst, ← hrest]

/-- What comes of a file has its path. -/
theorem path_outcomeAt (s : Sources) (path : String) : (s.outcomeAt path).path = path := by
  unfold outcomeAt outcome
  cases h : s.inform (.ofText s.project.catalog) path with
  | error reason => rfl
  | ok info =>
      obtain ⟨found, -, hresolve⟩ := exists_of_bind_eq_ok h
      exact Resolution.path_of_resolve_eq_ok (mapError_eq_ok_iff.1 hresolve)

/-- A part of what comes of several files is what comes of those among them
that have it. -/
theorem mem_part {part : Outcome → Option α} {key : α → String}
    (hpart : Outcome.IsPart part key) {paths : List String} {a : α} :
    a ∈ (paths.map s.outcomeAt).filterMap part ↔
      key a ∈ paths ∧ part (s.outcomeAt (key a)) = some a := by
  simp only [List.mem_filterMap, List.mem_map, exists_exists_and_eq_and]
  constructor
  · rintro ⟨path, hpath, ha⟩
    obtain rfl : key a = path := (hpart _ _ ha).trans (s.path_outcomeAt path)
    exact ⟨hpath, ha⟩
  · rintro ⟨hpath, ha⟩
    exact ⟨key a, hpath, ha⟩

/-- Of different files no two have a part with the same path. -/
theorem nodup_part {part : Outcome → Option α} {key : α → String}
    (hpart : Outcome.IsPart part key) {paths : List String} (h : paths.Nodup) :
    (((paths.map s.outcomeAt).filterMap part).map key).Nodup := by
  refine h.sublist ?_
  clear h
  induction paths with
  | nil => exact .slnil
  | cons path paths ih =>
      cases ha : part (s.outcomeAt path) with
      | none =>
          rw [List.map_cons, List.filterMap_cons_none ha]
          exact ih.cons path
      | some a =>
          have hpath : key a = path := (hpart _ _ ha).trans (s.path_outcomeAt path)
          rw [List.map_cons, List.filterMap_cons_some ha, List.map_cons, hpath]
          exact ih.cons_cons path

/-- A part of what comes of several files is found by the path of its
file. -/
theorem find?_part {part : Outcome → Option α} {key : α → String}
    (hpart : Outcome.IsPart part key) {paths : List String} {path : String} (h : path ∈ paths) :
    (sortedOn key ((paths.map s.outcomeAt).filterMap part)).find? (key · = path) =
      part (s.outcomeAt path) := by
  cases hfound : (sortedOn key ((paths.map s.outcomeAt).filterMap part)).find? (key · = path) with
  | some a =>
      obtain rfl : key a = path := by simpa using List.find?_some hfound
      exact ((mem_part hpart).1 (mem_sortedOn.1 (List.mem_of_find?_eq_some hfound))).2.symm
  | none =>
      refine (Option.eq_none_iff_forall_ne_some.2 fun a ha => ?_).symm
      have hkey : key a = path := (hpart _ _ ha).trans (s.path_outcomeAt path)
      have hmem : a ∈ (paths.map s.outcomeAt).filterMap part :=
        (mem_part hpart).2 ⟨hkey ▸ h, hkey ▸ ha⟩
      simpa [hkey] using List.find?_eq_none.1 hfound a (mem_sortedOn.2 hmem)

end Sources

namespace Scan

variable {p : Project} {s : Survey} {selection : Selection}

/-- What comes of the targets of a scan. -/
def outcomes (p : Project) (s : Survey) (selection : Selection) : List Outcome :=
  (selection.targets s).map (Sources.of p s.files.manifests).outcomeAt

/-- The report that a scan makes of its targets. -/
def reportOf (p : Project) (s : Survey) (selection : Selection) : Report :=
  let files := (outcomes p s selection).filterMap Outcome.info?
  let found : Classification := .of p.catalog.validate files s.inventory
    ((outcomes p s selection).filterMap Outcome.readError?)
  .of p.root files (selection.limit found) s.inventory

theorem reportOn_outcomes {v : Validator} (hv : v.Serves p.catalog) :
    reportOn p s selection (outcomes p s selection) v = reportOf p s selection := by
  simp only [reportOn, reportOf, hv.sound.classify, hv.catalog_eq]

/-- The scan that goes from one target to the next makes this report. -/
theorem report_conduct (p : Project) (s : Survey) (selection : Selection) :
    (conduct p s selection).report = reportOf p s selection := by
  obtain ⟨houtcomes, hserves⟩ :=
    Sources.scanFiles_eq (s := .of p s.files.manifests) (Validator.serves_new p.catalog)
      (selection.targets s)
  rw [← reportOn_outcomes (p := p) (s := s) hserves, outcomes, ← houtcomes]
  rfl

end Scan

/-- So does every scan of a surveyed project. -/
theorem Project.report_scan {p : Project} {vcs : Except Failure Vcs} {s : Survey}
    (hs : p.survey vcs = .ok s) (selection : Selection) :
    (p.scan vcs selection).map Scan.report = .ok (Scan.reportOf p s selection) := by
  rw [scan, hs]
  exact congrArg Except.ok (Scan.report_conduct p s selection)

end LicenseAudit
