import LicenseAudit.Proofs.Scan.Workers
import LicenseAudit.Proofs.Scan.Survey

/-!
# The shape of reports

Reports are **canonical**: every list of texts in them is strictly ascending,
and so are the files, the read errors and the findings about files or licenses
by the paths or identifiers that they are about.  They are also **complete**:
each target is found once, among the files or among the read errors, and the
counts are the lengths of the lists that they go with.

What makes a list ascending is that it has been sorted by a key that no two of
its values share, so it all comes down to the targets being different from
each other, which those of a survey are (`nodup_targets`).
-/

namespace LicenseAudit

open Text

/-- The information about a file is **canonical** when its lists of texts are
ascending. -/
structure FileInfo.IsCanonical (f : FileInfo) : Prop where
  lines : ∀ kind, (f.fields.lines kind).Pairwise Before
  unparsable : f.unparsable.Pairwise Before

/-- A classification is **canonical** when its lists are ascending, by
identifier, by path, or as texts, and the lists in them are as well. -/
structure Classification.IsCanonical (c : Classification) : Prop where
  badLicenses : c.badLicenses.Pairwise Before
  deprecatedLicenses : c.deprecatedLicenses.Pairwise Before
  licensesWithoutExtension : c.licensesWithoutExtension.Pairwise Before
  missingLicenses : c.missingLicenses.Pairwise fun a b => Before a.id b.id
  missingFiles : ∀ m ∈ c.missingLicenses, m.files.Pairwise Before
  unusedLicenses : c.unusedLicenses.Pairwise Before
  unparsable : c.unparsable.Pairwise fun a b => Before a.path b.path
  expressions : ∀ u ∈ c.unparsable, u.expressions.Pairwise Before
  withoutInformation : c.withoutInformation.Pairwise Before
  readErrors : c.readErrors.Pairwise fun a b => Before a.path b.path
  withoutCopyright : c.withoutCopyright.Pairwise Before
  withoutLicenses : c.withoutLicenses.Pairwise Before
  usedLicenses : c.usedLicenses.Pairwise Before

/-- A report is **canonical** when its files are ascending by path, and they
and the findings are canonical. -/
structure Report.IsCanonical (r : Report) : Prop where
  files : r.files.Pairwise fun a b => Before a.path b.path
  infos : ∀ f ∈ r.files, f.IsCanonical
  findings : r.findings.IsCanonical

/-- A report is **complete** for some targets when these are different from
each other, each of them is the path of one file or of one read error, and no
other path is.  As long as no file lies in the license directory, the counts
are the lengths of lists. -/
structure Report.IsComplete (r : Report) (inventory : Inventory) (targets : List String) :
    Prop where
  distinct : targets.Nodup
  once : (r.files.map FileInfo.path ++ r.findings.readErrors.map ReadError.path).Perm targets
  total : r.counts.files + r.counts.readErrors = targets.length
  counts : (∀ f ∈ r.files, inventory.IsOutside f.path) →
    r.counts.withoutCopyright = r.findings.withoutCopyright.length ∧
      r.counts.withoutLicenses = r.findings.withoutLicenses.length

theorem FileInfo.isCanonical_of (path : String) (fields : Fields) (sources : List Source)
    (unparsable : List String) : (FileInfo.of path fields sources unparsable).IsCanonical where
  lines kind := by
    rw [FileInfo.of, Fields.lines_sorted]
    exact pairwise_sortedUnique _
  unparsable := pairwise_sortedUnique _

/-- What is resolved is canonical. -/
theorem Resolution.isCanonical_of_resolve_eq_ok {path : String} {records : List Evidence}
    {entries : List Entry} {options : Options} {info : FileInfo}
    (h : resolve path records entries options = .ok info) : info.IsCanonical := by
  rw [resolve_eq_ok] at h
  obtain rfl := Except.ok.inj h
  split <;> exact FileInfo.isCanonical_of _ _ _ _

/-- What is known about a file is canonical. -/
theorem Sources.isCanonical_of_outcomeAt {s : Sources} {path : String} {info : FileInfo}
    (h : s.outcomeAt path = .known info) : info.IsCanonical := by
  unfold outcomeAt outcome at h
  cases hinform : s.inform (.ofText s.project.catalog) path with
  | error reason => simp [hinform] at h
  | ok found =>
      rw [hinform] at h
      obtain rfl := Outcome.known.inj h
      obtain ⟨collected, -, hresolve⟩ := exists_of_bind_eq_ok hinform
      exact Resolution.isCanonical_of_resolve_eq_ok (mapError_eq_ok_iff.1 hresolve)

namespace Classification

variable {validate : String → Validation} {files : List FileInfo} {inventory : Inventory}
variable {readErrors : List ReadError} {c : Classification}

/-- The classification of different files is canonical. -/
theorem isCanonical_of (hfiles : (files.map FileInfo.path).Nodup)
    (herrors : (readErrors.map ReadError.path).Nodup) :
    (of validate files inventory readErrors).IsCanonical where
  badLicenses := pairwise_sortedUnique _
  deprecatedLicenses := pairwise_sortedUnique _
  licensesWithoutExtension := pairwise_sortedUnique _
  missingLicenses := by
    rw [missingLicenses_of, List.pairwise_map]
    exact (pairwise_sortedUnique _).filter _
  missingFiles m hm := by
    rw [missingLicenses_of] at hm
    obtain ⟨id, -, rfl⟩ := List.mem_map.1 hm
    exact pairwise_sortedUnique _
  unusedLicenses := pairwise_sortedUnique _
  unparsable := (isListing_sortedOn (nodup_path_broken hfiles)).ascending
  expressions u hu := by
    obtain ⟨file, -, rfl⟩ := List.mem_map.1 (List.mem_of_mem_filter (mem_sortedOn.1 hu))
    exact pairwise_sortedUnique _
  withoutInformation := pairwise_sortedUnique _
  readErrors := (isListing_sortedOn herrors).ascending
  withoutCopyright := pairwise_sortedUnique _
  withoutLicenses := pairwise_sortedUnique _
  usedLicenses := pairwise_sortedUnique _

/-- It stays canonical when nothing is said about the license directory. -/
theorem IsCanonical.withoutInventory (h : c.IsCanonical) : c.withoutInventory.IsCanonical :=
  { h with
    badLicenses := .nil
    deprecatedLicenses := .nil
    licensesWithoutExtension := .nil
    unusedLicenses := .nil }

/-- Outside the license directory the paths of the files that lack a kind of
lines are as many as there are such files. -/
theorem length_pathsWhere (hfiles : (files.map FileInfo.path).Nodup)
    (hinside : ∀ f ∈ files, inventory.holds f.path = false) (kind : Field) :
    (pathsWhere inventory files (!·.has kind)).length =
      files.length - files.countP (·.fields.has kind) := by
  have hlacking : (files.filter fun f => !inventory.holds f.path && !f.fields.has kind) =
      files.filter fun f => !f.fields.has kind :=
    List.filter_congr fun f hf => by rw [hinside f hf, Bool.not_false, Bool.true_and]
  have hnodup : ((files.filter fun f => !f.fields.has kind).map FileInfo.path).Nodup :=
    hfiles.sublist (List.filter_sublist.map _)
  have hcount := List.length_eq_countP_add_countP (fun f : FileInfo => f.fields.has kind) (l := files)
  rw [pathsWhere, hlacking, (perm_sortedUnique hnodup).length_eq, List.length_map,
    ← List.countP_eq_length_filter]
  simp only [Bool.not_eq_true, Bool.decide_eq_false] at hcount
  omega

end Classification

section Reported

variable {p : Project} {vcs : Except Failure Vcs} {s : Survey} {selection : Selection}

/-- The targets of a scan of a survey are different from each other. -/
theorem Selection.nodup_targets (ht : p.tree.IsProper) (hs : p.survey vcs = .ok s) :
    (selection.targets s).Nodup := by
  cases selection with
  | covered =>
      obtain ⟨⟨entries, hroot⟩, -, -, hfiles⟩ := Project.survey_eq_ok_iff.1 hs
      rw [targets, hfiles]
      exact ProjectFiles.nodup_covered ht hroot s.filter
  | only paths => exact (nodup_eraseDups paths).filter _

namespace Scan

/-- The read errors of a report are those of the targets. -/
theorem readErrors_reportOf (p : Project) (s : Survey) (selection : Selection) :
    (reportOf p s selection).findings.readErrors =
      sortedOn ReadError.path ((outcomes p s selection).filterMap Outcome.readError?) := by
  cases selection <;> rfl

variable (htargets : (selection.targets s).Nodup)
include htargets

/-- Among what comes of different targets no two files have one path. -/
theorem nodup_files : (((outcomes p s selection).filterMap Outcome.info?).map FileInfo.path).Nodup :=
  Sources.nodup_part Outcome.isPart_info htargets

theorem nodup_readErrors :
    (((outcomes p s selection).filterMap Outcome.readError?).map ReadError.path).Nodup :=
  Sources.nodup_part Outcome.isPart_readError htargets

/-- The report on different targets is canonical. -/
theorem isCanonical_reportOf : (reportOf p s selection).IsCanonical where
  files := (isListing_sortedOn (nodup_files htargets)).ascending
  infos f hf := by
    obtain ⟨-, hinfo⟩ := (Sources.mem_part Outcome.isPart_info).1 (mem_sortedOn.1 hf)
    cases houtcome : (Sources.of p s.files.manifests).outcomeAt f.path with
    | unread e => simp [houtcome, Outcome.info?] at hinfo
    | known info =>
        rw [houtcome] at hinfo
        obtain rfl := Option.some.inj hinfo
        exact Sources.isCanonical_of_outcomeAt houtcome
  findings := by
    have hfound : (Classification.of p.catalog.validate _ s.inventory _).IsCanonical :=
      Classification.isCanonical_of (nodup_files (p := p) htargets) (nodup_readErrors (p := p) htargets)
    cases selection with
    | covered => exact hfound
    | only paths => exact hfound.withoutInventory

/-- What comes of a target is a file or a read error, and not both. -/
theorem perm_targets :
    (((outcomes p s selection).filterMap Outcome.info?).map FileInfo.path ++
      ((outcomes p s selection).filterMap Outcome.readError?).map ReadError.path).Perm
      (selection.targets s) := by
  have hpath {α : Type} {part : Outcome → Option α} {key : α → String}
      (hpart : Outcome.IsPart part key) (path : String) :
      path ∈ ((outcomes p s selection).filterMap part).map key ↔
        path ∈ selection.targets s ∧
          (part ((Sources.of p s.files.manifests).outcomeAt path)).isSome := by
    simp only [List.mem_map, outcomes, Sources.mem_part hpart, Option.isSome_iff_exists]
    constructor
    · rintro ⟨a, ⟨htarget, ha⟩, rfl⟩
      exact ⟨htarget, a, ha⟩
    · rintro ⟨htarget, a, ha⟩
      obtain rfl : key a = path := (hpart _ _ ha).trans (Sources.path_outcomeAt _ path)
      exact ⟨a, ⟨htarget, ha⟩, rfl⟩
  have hdisjoint : List.Disjoint (((outcomes p s selection).filterMap Outcome.info?).map FileInfo.path)
      (((outcomes p s selection).filterMap Outcome.readError?).map ReadError.path) := by
    intro path hinfo herror
    obtain ⟨-, hinfo⟩ := (hpath Outcome.isPart_info path).1 hinfo
    obtain ⟨-, herror⟩ := (hpath Outcome.isPart_readError path).1 herror
    cases houtcome : (Sources.of p s.files.manifests).outcomeAt path with
    | known info => simp [houtcome, Outcome.readError?] at herror
    | unread e => simp [houtcome, Outcome.info?] at hinfo
  refine (List.perm_ext_iff_of_nodup ((nodup_files htargets).append (nodup_readErrors htargets)
    hdisjoint) htargets).2 fun path => ?_
  rw [List.mem_append, hpath Outcome.isPart_info, hpath Outcome.isPart_readError, ← and_or_left]
  refine and_iff_left ?_
  cases (Sources.of p s.files.manifests).outcomeAt path with
  | known info => exact .inl rfl
  | unread e => exact .inr rfl

/-- The report on different targets is complete. -/
theorem isComplete_reportOf :
    (reportOf p s selection).IsComplete s.inventory (selection.targets s) := by
  have hfiles : (reportOf p s selection).files.Perm
      ((outcomes p s selection).filterMap Outcome.info?) := List.mergeSort_perm _ _
  have herrors : (reportOf p s selection).findings.readErrors.Perm
      ((outcomes p s selection).filterMap Outcome.readError?) := by
    rw [readErrors_reportOf]
    exact List.mergeSort_perm _ _
  have honce := ((hfiles.map FileInfo.path).append (herrors.map ReadError.path)).trans
    (perm_targets htargets)
  refine ⟨htargets, honce, ?_, fun houtside => ?_⟩
  · have hlength := honce.length_eq
    rw [List.length_append, List.length_map, List.length_map, hfiles.length_eq] at hlength
    exact hlength
  · have hinside : ∀ f ∈ (outcomes p s selection).filterMap Outcome.info?,
        s.inventory.holds f.path = false := fun f hf =>
      Inventory.isOutside_iff.1 (houtside f (hfiles.mem_iff.2 hf))
    have hlength := Classification.length_pathsWhere (nodup_files (p := p) htargets) hinside
    cases selection <;> exact ⟨(hlength .copyrights).symm, (hlength .licenses).symm⟩

end Scan

/-- **Reports are canonical and complete**: the scan of a surveyed project,
whether of all its covered files or of the given ones, ends with a report, and
every report that it may end with has its lists in order and each target
once. -/
theorem Project.canonical_of_survey (ht : p.tree.IsProper) (hs : p.survey vcs = .ok s)
    (selection : Selection) :
    (∃ r, (p.scan vcs selection).map Scan.report = .ok r ∧ p.MayReport vcs selection r) ∧
      ∀ r, p.MayReport vcs selection r →
        r.IsCanonical ∧ r.IsComplete s.inventory (selection.targets s) := by
  have htargets : (selection.targets s).Nodup := Selection.nodup_targets ht hs
  have hmay {r : Report} : p.MayReport vcs selection r ↔ r = Scan.reportOf p s selection :=
    mayReport_iff_of_survey hs
  refine ⟨⟨_, report_scan hs selection, hmay.2 rfl⟩, ?_⟩
  intro r hr
  obtain rfl := hmay.1 hr
  exact ⟨Scan.isCanonical_reportOf htargets, Scan.isComplete_reportOf htargets⟩

end Reported

/-- Of a project with two files these are scanned, and one that is not
there. -/
theorem Project.canonical_plain :
    let files : List (String × Tree) := [("b.c", .file [120, 10]), ("a.c", .file [121, 10])]
    let p := plain files
    let s := plainSurvey files
    let selection : Selection := .only ["b.c", "missing.c", "a.c", "b.c"]
    p.tree.IsProper ∧ p.survey (.ok .none) = .ok s ∧
      (∃ r, (p.scan (.ok .none) selection).map Scan.report = .ok r ∧
        p.MayReport (.ok .none) selection r) ∧
      ∀ r, p.MayReport (.ok .none) selection r →
        r.IsCanonical ∧ r.IsComplete s.inventory (selection.targets s) := by
  intro files p s selection
  have ht : p.tree.IsProper := by decide +kernel
  have hs : p.survey (.ok .none) = .ok s := survey_plain files rfl
  exact ⟨ht, hs, canonical_of_survey ht hs selection⟩

end LicenseAudit
