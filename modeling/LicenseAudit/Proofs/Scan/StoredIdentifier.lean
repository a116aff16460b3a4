import LicenseAudit.Proofs.Expression.Identifier
import LicenseAudit.Proofs.Scan.Workers
import LicenseAudit.Proofs.Tag.IgnoreRegion
import LicenseAudit.Proofs.Text.Utf8

/-!
# Identifiers with a stored text

A file in the license directory stands for the identifier that it is named
for, and an expression refers to the identifiers that it mentions.  Both meet
for an identifier of the catalog whose text is stored: it is never missing,
and it is used when a file carries it as its license (`stored_identifier`).

They part where an identifier of the catalog is an expression of another
kind, as when it ends with a plus sign: the plus is an operator, so the text
is stored for the whole and the license in front is referred to.
-/

namespace LicenseAudit

open Text

variable {p : Project} {vcs : Except Failure Vcs} {s : Survey} {id : String} {e : Expression}

/-- A project **stores** a known identifier when there is a file named for it
in the license directory. -/
structure Project.Stores (p : Project) (id : String) : Prop where
  isKnown : p.catalog.isKnown id = true
  listed : ∃ names, p.tree.list (Path.resolve p.root p.config.licenseDirectory) = .ok names ∧
    id ++ ".txt" ∈ names
  isFile : p.tree.isFile (Path.join (Path.resolve p.root p.config.licenseDirectory)
    (id ++ ".txt")) = .ok true

/-- The inventory has the identifier that a file is named for. -/
theorem Project.Stores.exists_record (h : p.Stores id) (hs : p.survey vcs = .ok s)
    (hparse : Expression.parse id = .ok e) : ∃ r ∈ s.inventory.records, r.id = id := by
  obtain ⟨-, -, hscan, -⟩ := survey_eq_ok_iff.1 hs
  have hne := Expression.ne_empty_of_parse hparse
  have hslash := Expression.no_slash_of_parse hparse
  exact ⟨_, (Inventory.mem_records_iff hscan).2
    ⟨id ++ ".txt", ⟨h.listed, h.isFile, Inventory.isCandidate_append_txt id⟩, rfl⟩,
    Catalog.id_describe_append_txt h.isKnown hne hslash _⟩

/-- **A stored identifier is not missing, and it is used where it is carried
unless it is an expression of another kind**: when some file carries it, the
report on the project lists it as unused exactly when it is no single license
as it stands, and otherwise lists nothing as missing that it mentions. -/
theorem stored_identifier (hs : p.survey vcs = .ok s) (hstored : p.Stores id)
    (hparse : Expression.parse id = .ok e) :
    (∃ r, (lintProject p vcs).map Scan.report = .ok r ∧ p.MayReport vcs .covered r) ∧
      ∀ r, p.MayReport vcs .covered r → (∃ info ∈ r.files, id ∈ info.fields.licenses) →
        id ∉ r.findings.missingLicenses.map MissingLicense.id ∧
        (id ∈ r.findings.unusedLicenses ↔ e ≠ .license ⟨id, false⟩) ∧
        (e = .license ⟨id, false⟩ →
          ∀ other ∈ r.findings.missingLicenses.map MissingLicense.id, ¬ Mentions id other) := by
  have hmay {r : Report} : p.MayReport vcs .covered r ↔ r = Scan.reportOf p s .covered :=
    Project.mayReport_iff_of_survey hs
  refine ⟨⟨_, Project.report_scan hs .covered, hmay.2 rfl⟩, ?_⟩
  intro r hr hcarried
  obtain rfl := hmay.1 hr
  obtain ⟨info, hinfo, hid⟩ := hcarried
  have hrecord := hstored.exists_record hs hparse
  have hmissing : id ∉ (Scan.reportOf p s .covered).findings.missingLicenses.map
      MissingLicense.id := by
    intro hmem
    exact (Classification.mem_missingLicenses_iff.1 hmem).2 hrecord
  refine ⟨hmissing, ⟨?_, ?_⟩, ?_⟩
  · intro hunused hbare
    rw [hbare] at hparse
    refine (Classification.mem_unusedLicenses_iff.1 hunused).2 ?_
    exact ⟨info, mem_sortedOn.1 hinfo, id, hid, (Expression.mentions_iff hparse).2 rfl⟩
  · intro hother
    refine Classification.mem_unusedLicenses_iff.2 ⟨hrecord, ?_⟩
    intro hused
    obtain ⟨file, -, text, -, hmentions⟩ := hused
    exact hother (Except.ok.inj (hparse.symm.trans (Expression.parse_of_mentions hmentions)))
  · intro hbare other hmem hmentions
    rw [hbare] at hparse
    rw [(Expression.mentions_iff hparse).1 hmentions] at hmem
    exact hmissing hmem

/-- Two lines, each with the tag of a license. -/
def taggedText : List Char :=
  "SPDX-License-Identifier: GPL-3.0+\nSPDX-License-Identifier: MIT".toList

/-- The bytes of these lines. -/
def taggedBytes : List UInt8 :=
  taggedText.map fun c => UInt8.ofNat c.toNat

/-- The files of a project with these lines in one of them, and texts for both
licenses. -/
def taggedFiles : List (String × Tree) :=
  [("LICENSES", .folder [("GPL-3.0+.txt", .file [120]), ("MIT.txt", .file [120])]),
    ("a.c", .file taggedBytes)]

namespace Project

/-- The project with these files; one of its licenses is deprecated. -/
def tagged : Project :=
  { plain taggedFiles with catalog := ⟨["MIT"], [], ["GPL-3.0+"]⟩ }

/-- What is read from its license directory. -/
def taggedInventory : Inventory :=
  ⟨"LICENSES", [⟨"GPL-3.0+", "LICENSES/GPL-3.0+.txt", true, true, true⟩,
    ⟨"MIT", "LICENSES/MIT.txt", true, false, true⟩]⟩

/-- Its survey. -/
def taggedSurvey : Survey :=
  { plainSurvey taggedFiles with inventory := taggedInventory }

/-- The texts in its license directory. -/
theorem find_licenses_tagged : tagged.tree.find "/p/LICENSES" =
    .ok (.folder [("GPL-3.0+.txt", .file [120]), ("MIT.txt", .file [120])]) :=
  Tree.find_folder (show Tree.GoesBy "/p/LICENSES" ["p", "LICENSES"] by decide) rfl

theorem find_gpl_tagged : tagged.tree.find "/p/LICENSES/GPL-3.0+.txt" = .ok (.file [120]) :=
  Tree.find_file (show Tree.GoesBy "/p/LICENSES/GPL-3.0+.txt"
    (["p", "LICENSES"] ++ ["GPL-3.0+.txt"]) by decide) rfl

theorem find_mit_tagged : tagged.tree.find "/p/LICENSES/MIT.txt" = .ok (.file [120]) :=
  Tree.find_file (show Tree.GoesBy "/p/LICENSES/MIT.txt"
    (["p", "LICENSES"] ++ ["MIT.txt"]) by decide) rfl

theorem join_gpl_tagged :
    Path.join "/p/LICENSES" "GPL-3.0+.txt" = "/p/LICENSES/GPL-3.0+.txt" := by
  decide

theorem join_mit_tagged : Path.join "/p/LICENSES" "MIT.txt" = "/p/LICENSES/MIT.txt" := by
  decide

theorem survey_tagged : tagged.survey (.ok .none) = .ok taggedSurvey := by
  obtain ⟨hplace, hdirectory⟩ := licenseDirectory_plain
  have hnames : Inventory.namesIn tagged.tree "/p/LICENSES" = .ok ["GPL-3.0+.txt", "MIT.txt"] :=
    Inventory.namesIn_of_find find_licenses_tagged rfl
  have hfileGpl : Inventory.isStoredFile tagged.tree "/p/LICENSES/GPL-3.0+.txt" = .ok true :=
    Inventory.isStoredFile_of_find find_gpl_tagged
  have hfileMit : Inventory.isStoredFile tagged.tree "/p/LICENSES/MIT.txt" = .ok true :=
    Inventory.isStoredFile_of_find find_mit_tagged
  have hcandidates : (sortedOn id ["GPL-3.0+.txt", "MIT.txt"]).filter Inventory.isCandidate =
      ["GPL-3.0+.txt", "MIT.txt"] := by
    rw [sortedOn_eq_self (by decide)]
    decide
  have hdescribeGpl :
      tagged.catalog.describe "GPL-3.0+.txt" ("LICENSES" ++ "/" ++ "GPL-3.0+.txt") =
        ⟨"GPL-3.0+", "LICENSES/GPL-3.0+.txt", true, true, true⟩ := by decide
  have hdescribeMit : tagged.catalog.describe "MIT.txt" ("LICENSES" ++ "/" ++ "MIT.txt") =
      ⟨"MIT", "LICENSES/MIT.txt", true, false, true⟩ := by decide
  have hrecords : sortedOn LicenseRecord.id taggedInventory.records = taggedInventory.records :=
    sortedOn_eq_self (by decide)
  have hscan : Inventory.scan tagged.tree "/p" "LICENSES" tagged.catalog = .ok taggedInventory := by
    simp only [Inventory.scan, Inventory.ofNames, Inventory.enlistFile, hplace, hdirectory, hnames,
      hcandidates, join_gpl_tagged, join_mit_tagged, hfileGpl, hfileMit, hdescribeGpl,
      hdescribeMit, List.foldlM_cons, List.foldlM_nil, bind, Except.bind]
    simpa [Inventory.enlist, pure, Except.pure, taggedInventory] using hrecords
  exact survey_of_scan taggedFiles hscan

theorem findings_tagged : Tag.findings (String.ofList taggedText) =
    [.license "GPL-3.0+", .license "MIT"] := by
  rw [Tag.findings, String.toList_ofList,
    Tag.visible_of_none (by decide) (by decide)]
  decide +kernel

theorem textOf?_tagged : Collection.textOf? (some 4096) taggedBytes =
    some (String.ofList taggedText) := by
  have hlimited : Collection.limited (some 4096) taggedBytes = taggedBytes := by rfl
  have hdecode : Utf8.decode taggedBytes = taggedText := Utf8.decode_of_ascii (by decide)
  rw [Collection.textOf?, hlimited, hdecode]
  decide

theorem speaker_tagged : Collection.speaker tagged.tree "/p" "a.c" 4096 =
    .ok (.header, "a.c", some (String.ofList taggedText)) := by
  have hplace : Path.join "/p" "a.c" = "/p/a.c" := by decide
  have hfile : tagged.tree.find "/p/a.c" = .ok (.file taggedBytes) :=
    Tree.find_entry (show Tree.GoesBy "/p/a.c" ["p", "a.c"] by decide) rfl
  have hsidecar : tagged.tree.find ("/p/a.c" ++ Collection.sidecarEnding) = .error .missing :=
    Tree.find_absent (show Tree.GoesBy _ ["p", "a.c.license"] by decide) rfl
  rw [Collection.speaker_of_find hplace hfile hsidecar, textOf?_tagged]

theorem manifests_tagged : taggedSurvey.files.manifests = [] := by
  have hmet : ProjectFiles.met tagged.tree "/p" taggedSurvey.filter = [(["a.c"], taggedBytes)] := by
    rw [ProjectFiles.met, show tagged.tree.find "/p" = _ from Tree.find_withProject taggedFiles]
    decide
  have hnone : taggedSurvey.filter.isManifest (Path.joined ["a.c"]) = false := by decide
  rw [show taggedSurvey.files = .of tagged.tree "/p" taggedSurvey.filter from rfl,
    ProjectFiles.manifests_of, ProjectFiles.walked, hmet]
  simp [hnone]

theorem dep5_tagged : tagged.dep5? = none := by
  have hplace : Path.join tagged.root tagged.config.dep5Path = "/p/.reuse/dep5" := by
    decide
  have hholds : tagged.tree.holds "/p/.reuse/dep5" = false :=
    Tree.holds_of_missing (Tree.find_absent
      (show Tree.GoesBy "/p/.reuse/dep5" ["p", ".reuse", "dep5"] by decide) rfl)
  simp only [dep5?, hplace, hholds]
  rfl

/-- The file carries both identifiers. -/
theorem outcomeAt_tagged :
    (Sources.of tagged taggedSurvey.files.manifests).outcomeAt "a.c" =
      .known ⟨"a.c", ⟨[], ["GPL-3.0+", "MIT"], []⟩, [⟨.header, "a.c"⟩], []⟩ := by
  have hextract : Extraction.ofText tagged.catalog (String.ofList taggedText) =
      ⟨⟨[], ["GPL-3.0+", "MIT"], []⟩, []⟩ := by
    rw [Extraction.ofText, findings_tagged]
    decide +kernel
  have hsources : Sources.of tagged taggedSurvey.files.manifests = ⟨tagged, [], none⟩ := by
    rw [manifests_tagged, Sources.of, dep5_tagged]
    rfl
  have hspeaker : Collection.speaker tagged.tree tagged.root "a.c" tagged.config.headerBytes =
      .ok (.header, "a.c", some (String.ofList taggedText)) := speaker_tagged
  rw [hsources]
  simp only [Sources.outcomeAt, Sources.outcome, Sources.inform, collect, hspeaker, hextract,
    Option.map_some, Option.getD_some, bind, Except.bind]
  decide +kernel

theorem mem_files_tagged :
    ⟨"a.c", ⟨[], ["GPL-3.0+", "MIT"], []⟩, [⟨.header, "a.c"⟩], []⟩ ∈
      (Scan.reportOf tagged taggedSurvey .covered).files := by
  have hfile : tagged.tree.HasFile "/p" "a.c" taggedBytes :=
    Tree.hasFile_withProject (show split '/' "a.c" = ["a.c"] by decide) rfl
  have hcovered : "a.c" ∈ taggedSurvey.files.covered :=
    (ProjectFiles.mem_covered_iff (by decide) (Tree.find_withProject taggedFiles)).2
      ⟨_, hfile, by decide, by decide, by decide⟩
  refine mem_sortedOn.2 ((Sources.mem_part Outcome.isPart_info).2 ⟨hcovered, ?_⟩)
  rw [outcomeAt_tagged]
  rfl

theorem stores_tagged (hknown : tagged.catalog.isKnown id = true)
    (hname : id ++ ".txt" ∈ ["GPL-3.0+.txt", "MIT.txt"]) : tagged.Stores id := by
  have hplace : Path.resolve tagged.root tagged.config.licenseDirectory = "/p/LICENSES" := by
    decide
  have hlist : tagged.tree.list "/p/LICENSES" = .ok ["GPL-3.0+.txt", "MIT.txt"] := by
    rw [Tree.list_eq, find_licenses_tagged]
    rfl
  refine ⟨hknown, ⟨_, by rw [hplace, hlist], hname⟩, ?_⟩
  rw [hplace]
  rcases List.mem_cons.1 hname with hname | hname
  · rw [hname, join_gpl_tagged, Tree.isFile_eq, find_gpl_tagged]
  · rw [List.mem_singleton.1 hname, join_mit_tagged, Tree.isFile_eq, find_mit_tagged]

/-- Of the two identifiers that the file carries the one without a plus sign is
neither unused nor missing. -/
theorem stored_identifier_tagged :
    tagged.survey (.ok .none) = .ok taggedSurvey ∧ tagged.Stores "MIT" ∧
      Expression.parse "MIT" = .ok (.license ⟨"MIT", false⟩) ∧
      ∃ r, tagged.MayReport (.ok .none) .covered r ∧
        (∃ info ∈ r.files, "MIT" ∈ info.fields.licenses) ∧
        "MIT" ∉ r.findings.missingLicenses.map MissingLicense.id ∧
        "MIT" ∉ r.findings.unusedLicenses := by
  have hstored : tagged.Stores "MIT" := stores_tagged (by decide) (by decide)
  have hidentifier : Expression.IsIdentifier "MIT" :=
    ⟨⟨'M', ['I', 'T'], rfl, by decide⟩, List.all_eq_true.1 (by decide), by decide, by decide,
      by decide⟩
  have hparse := Expression.parse_of_isIdentifier hidentifier
  obtain ⟨⟨r, -, hr⟩, hsettled⟩ := stored_identifier survey_tagged hstored hparse
  have hfile : ∃ info ∈ r.files, "MIT" ∈ info.fields.licenses := by
    rw [(mayReport_iff_of_survey survey_tagged).1 hr]
    exact ⟨_, mem_files_tagged, by decide⟩
  obtain ⟨hmissing, hunused, -⟩ := hsettled r hr hfile
  exact ⟨survey_tagged, hstored, hparse, r, hr, hfile, hmissing, fun h => hunused.1 h rfl⟩

/-- The one with a plus sign is unused, and the license in front of it is
missing. -/
theorem stored_later_unused :
    tagged.survey (.ok .none) = .ok taggedSurvey ∧ tagged.Stores "GPL-3.0+" ∧
      Expression.parse "GPL-3.0+" = .ok (.license ⟨"GPL-3.0", true⟩) ∧
      ∃ r, (lintProject tagged (.ok .none)).map Scan.report = .ok r ∧
        tagged.MayReport (.ok .none) .covered r ∧
        (∃ info ∈ r.files, "GPL-3.0+" ∈ info.fields.licenses) ∧
        "GPL-3.0+" ∈ r.findings.unusedLicenses ∧
        "GPL-3.0" ∈ r.findings.missingLicenses.map MissingLicense.id := by
  have hidentifier : Expression.IsIdentifier "GPL-3.0" :=
    ⟨⟨'G', "PL-3.0".toList, rfl, by decide⟩, List.all_eq_true.1 (by decide), by decide, by decide,
      by decide⟩
  have hparse : Expression.parse "GPL-3.0+" = .ok (.license ⟨"GPL-3.0", true⟩) :=
    Expression.parse_append_plus hidentifier
  refine ⟨survey_tagged, stores_tagged (by decide) (by decide), hparse, _,
    report_scan survey_tagged .covered, (mayReport_iff_of_survey survey_tagged).2 rfl,
    ⟨_, mem_files_tagged, by decide⟩, ?_, ?_⟩
  · refine Classification.mem_unusedLicenses_iff.2 ⟨⟨_, List.mem_cons_self, rfl⟩, ?_⟩
    intro hused
    obtain ⟨file, -, text, -, hmentions⟩ := hused
    have hsingle := Expression.parse_of_mentions hmentions
    exact absurd (Except.ok.inj (hparse.symm.trans hsingle)) (by decide)
  · refine Classification.mem_missingLicenses_iff.2 ⟨?_, ?_⟩
    · exact ⟨_, mem_sortedOn.1 mem_files_tagged, "GPL-3.0+", by decide, _, hparse, _,
        List.mem_singleton_self _, rfl⟩
    · decide

end Project

end LicenseAudit
