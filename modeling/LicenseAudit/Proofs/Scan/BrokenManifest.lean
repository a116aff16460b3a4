import LicenseAudit.Proofs.Scan.Removal
import LicenseAudit.Proofs.Text.Utf8

/-!
# Manifests that cannot be parsed

A manifest whose text cannot be parsed is **broken**.  The scan gets nothing
from it: no entry of it applies, and the other manifests keep theirs.  So when
it stands alone, the scan ends as it does in the project without it
(`takesNoEffect_of_isBroken`).
-/

namespace LicenseAudit

open Text

namespace Project

/-- A manifest is **broken** when its text is no manifest; the deprecated
manifest, when its text is no deprecated manifest. -/
inductive IsBroken (p : Project) (path : String) : Prop
  | manifest {text : String} {fault : Manifest.Fault}
      (name_eq : Path.name path = p.config.manifestName) (reads : p.textAt path = .ok text)
      (fails : Manifest.parse path text = .error fault)
  | deprecated {text : String} {fault : Dep5.Fault}
      (path_eq : path = p.config.dep5Path) (reads : p.textAt path = .ok text)
      (fails : Dep5.parse path text = .error fault)

/-- A manifest **takes no effect** when the scan of the project ends as without
it, whatever the workers do, when no entry of it is among those that apply
and the other manifests have the same entries as without it, and when the
project has the same deprecated manifest, if any. -/
structure TakesNoEffect (p : Project) (vcs : Except Failure Vcs) (path : String) : Prop where
  report : (lintProject (p.without path) vcs).map Scan.report =
    (lintProject p vcs).map Scan.report
  mayReport : ∀ r, (p.without path).MayReport vcs .covered r ↔ p.MayReport vcs .covered r
  own : ∀ s, p.survey vcs = .ok s →
    ∀ e ∈ (Sources.of p s.files.manifests).entries, e.manifest ≠ path
  others : ∀ s, p.survey vcs = .ok s → ∀ m ∈ s.files.manifests, m ≠ path →
    (p.without path).entriesAt m = p.entriesAt m
  deprecated : ∀ manifests, (Sources.of (p.without path) manifests).dep5 =
    (Sources.of p manifests).dep5

variable {p : Project} {vcs : Except Failure Vcs} {s : Survey} {path : String}
variable {base : List String} {u : Tree}

section Broken

variable (hdep5 : p.config.dep5Path = ".reuse/dep5") (hbroken : p.IsBroken path)
include hdep5 hbroken

/-- A broken manifest is not a covered file. -/
theorem isExcluded_of_isBroken {f : PathFilter} {v : Vcs}
    (hf : PathFilter.of p.config.coverage v = .ok f) : f.isExcluded path = true := by
  cases hbroken with
  | manifest hname hreads hfails =>
      have hisManifest : f.isManifest path = true := by
        rw [PathFilter.isManifest, hname, PathFilter.manifestName_of hf]
        exact beq_self_eq_true _
      simp [PathFilter.isExcluded, hisManifest]
  | deprecated hpath hreads hfails =>
      have hdirectories : (split '/' path).dropLast = [".reuse"] := by
        rw [hpath, hdep5]
        decide
      have hinside : f.isInExcludedDirectory path = true := by
        simp [PathFilter.isInExcludedDirectory, hdirectories, Coverage.excludedDirectoryNames]
      simp [PathFilter.isExcluded, PathFilter.isInExcludedLocation, hinside]

variable (hmanifest : p.config.manifestName = "REUSE.toml")
include hmanifest

/-- No entry is that of a broken manifest. -/
theorem manifest_ne_of_isBroken {f : PathFilter} (hf : f.manifestName = p.config.manifestName)
    {m : String} (hm : f.isManifest m = true) {e : Entry} (he : e ∈ p.entriesAt m) :
    e.manifest ≠ path := by
  obtain ⟨text, parsed, htext, hparse, hmem⟩ := exists_parse_of_mem_entriesAt he
  intro hown
  rw [← hown] at hbroken
  obtain rfl : e.manifest = m := Entry.manifest_of_parse hparse hmem
  cases hbroken with
  | manifest hname hreads hfails =>
      obtain rfl := Except.ok.inj (htext.symm.trans hreads)
      rw [hparse] at hfails
      cases hfails
  | deprecated hpath hreads hfails =>
      rw [PathFilter.isManifest, beq_iff_eq, hf, hmanifest, hpath, hdep5] at hm
      exact absurd hm (by decide)

/-- A broken deprecated manifest is left out, as when there is none. -/
theorem dep5_without (hroot : Path.IsResolved p.root)
    (hbase : p.tree.IsBase p.root base) (hat : p.tree.at? (p.placeOf path) = some u)
    (hsingle : u.IsSingle) (halone : p.StandsAlone vcs path) :
    (p.without path).dep5?.bind Except.toOption = p.dep5?.bind Except.toOption := by
  cases hbroken with
  | manifest hname hreads hfails =>
      have hne : path ≠ p.config.dep5Path := by
        intro hpath
        rw [hpath, hdep5, hmanifest] at hname
        exact absurd hname (by decide)
      exact congrArg (·.bind Except.toOption)
        (dep5_congr (read_without hat hsingle (halone.deprecated hne)))
  | deprecated hpath hreads hfails =>
      have hplace : Path.IsPlace path := by
        rw [hpath, hdep5]
        decide
      have hgone : (p.without path).tree.holds (Path.join p.root path) = false := by
        have hunseen := halone.root
        rw [placeOf_eq hbase] at hat hunseen
        rw [without, tree_withTree, placeOf_eq hbase]
        exact Tree.holds_erase_self hbase hat hsingle hunseen hroot hplace
      have hnone : (p.without path).dep5? = none := by
        rw [dep5?]
        simp only [show (p.without path).config = p.config from rfl, ← hpath,
          show (p.without path).root = p.root from rfl, hgone]
        rfl
      have hleft : p.dep5?.bind Except.toOption = none := by
        rw [dep5?]
        simp only [← hpath, hreads, hfails]
        split <;> rfl
      rw [hnone, hleft]
      rfl

end Broken

theorem flatMap_entriesAt_without {manifests : List String}
    (hown : ∀ m ∈ manifests, m = path → p.entriesAt m = [])
    (hothers : ∀ m ∈ manifests, m ≠ path → (p.without path).entriesAt m = p.entriesAt m) :
    (manifests.filter (· ≠ path)).flatMap (p.without path).entriesAt =
      manifests.flatMap p.entriesAt := by
  induction manifests with
  | nil => rfl
  | cons m manifests ih =>
      obtain ⟨hm, hown⟩ := List.forall_mem_cons.1 hown
      obtain ⟨hm', hothers⟩ := List.forall_mem_cons.1 hothers
      by_cases hpath : m = path
      · rw [List.filter_cons_of_neg (by simpa using hpath), List.flatMap_cons, hm hpath,
          List.nil_append, ih hown hothers]
      · rw [List.filter_cons_of_pos (by simpa using hpath), List.flatMap_cons, List.flatMap_cons,
          hm' hpath, ih hown hothers]

/-- The report is the same when nothing that is read for a covered file has
changed. -/
theorem reportOf_without
    (hspeaker : ∀ other ∈ s.files.covered, ∀ headerBytes,
      Collection.speaker (p.without path).tree p.root other headerBytes =
        Collection.speaker p.tree p.root other headerBytes)
    (hdep5 : (p.without path).dep5?.bind Except.toOption = p.dep5?.bind Except.toOption)
    (hentries : (s.without path).files.manifests.flatMap (p.without path).entriesAt =
      s.files.manifests.flatMap p.entriesAt) :
    Scan.reportOf (p.without path) (s.without path) .covered = Scan.reportOf p s .covered := by
  have houtcomes : Scan.outcomes (p.without path) (s.without path) .covered =
      Scan.outcomes p s .covered :=
    List.map_congr_left fun other hother => Sources.outcomeAt_congr rfl rfl
      (hspeaker other hother) hdep5 (congrArg (List.filter _) hentries)
  simp only [Scan.reportOf, houtcomes]
  rfl

section Surveyed

variable (ht : p.tree.IsProper) (hs : p.survey vcs = .ok s)
include ht hs

/-- No entry that applies is that of a broken manifest. -/
theorem manifest_ne_of_survey (hbroken : p.IsBroken path)
    (hmanifest : p.config.manifestName = "REUSE.toml")
    (hdep5 : p.config.dep5Path = ".reuse/dep5") :
    ∀ m ∈ s.files.manifests, ∀ e ∈ p.entriesAt m, e.manifest ≠ path := by
  obtain ⟨⟨entries, hfolder⟩, ⟨v, -, -, hf⟩, -, hfiles⟩ := survey_eq_ok_iff.1 hs
  intro m hm e he
  rw [hfiles] at hm
  obtain ⟨-, -, hname, -⟩ := (ProjectFiles.mem_manifests_iff ht hfolder).1 hm
  exact manifest_ne_of_isBroken hdep5 hbroken hmanifest (PathFilter.manifestName_of hf) hname he

variable (hroot : Path.IsResolved p.root) (hbase : p.tree.IsBase p.root base)
variable (hat : p.tree.at? (p.placeOf path) = some u) (hsingle : u.IsSingle)
include hroot hbase hat hsingle

/-- The other manifests have the same entries without it. -/
theorem entriesAt_without (hunseen : ¬ p.tree.LooksAt p.root (p.placeOf path)) :
    ∀ m ∈ s.files.manifests, m ≠ path → (p.without path).entriesAt m = p.entriesAt m := by
  obtain ⟨⟨entries, hfolder⟩, -, -, hfiles⟩ := survey_eq_ok_iff.1 hs
  intro m hm hne
  rw [hfiles] at hm
  obtain ⟨⟨b, hother⟩, -, -, -⟩ := (ProjectFiles.mem_manifests_iff ht hfolder).1 hm
  exact entriesAt_congr (read_join_without ht hat hsingle hbase hunseen hroot hother hne)

/-- The same text speaks for a covered file without it. -/
theorem speaker_without
    (hexcluded : ∀ f v, PathFilter.of p.config.coverage v = .ok f → f.isExcluded path = true)
    (halone : p.StandsAlone vcs path) :
    ∀ other ∈ s.files.covered, ∀ headerBytes,
      Collection.speaker (p.without path).tree p.root other headerBytes =
        Collection.speaker p.tree p.root other headerBytes := by
  obtain ⟨⟨entries, hfolder⟩, ⟨v, -, -, hf⟩, -, hfiles⟩ := survey_eq_ok_iff.1 hs
  intro other hother
  have hsidecar := read_without hat hsingle (halone.sidecars s hs other hother)
  rw [hfiles] at hother
  obtain ⟨b, hhas, -, -, hkept⟩ := (ProjectFiles.mem_covered_iff ht hfolder).1 hother
  have hne : other ≠ path := by
    intro hsame
    rw [hsame, hexcluded _ v hf] at hkept
    cases hkept
  exact Collection.speaker_congr
    (read_join_without ht hat hsingle hbase halone.root hroot hhas hne) hsidecar

end Surveyed

/-- A manifest takes no effect when the scan does not get to the files, with it
or without it. -/
theorem takesNoEffect_of_survey_error {reason : Failure} (hs : p.survey vcs = .error reason)
    (hwithout : (p.without path).survey vcs = .error reason)
    (hdeprecated : (p.without path).dep5?.bind Except.toOption =
      p.dep5?.bind Except.toOption) : p.TakesNoEffect vcs path where
  report := by simp only [lintProject, scan, hs, hwithout, Except.map]
  mayReport r := by
    refine iff_of_false ?_ ?_
    · intro hmay
      obtain ⟨s, hsurvey, -⟩ := hmay
      rw [hwithout] at hsurvey
      cases hsurvey
    · intro hmay
      obtain ⟨s, hsurvey, -⟩ := hmay
      rw [hs] at hsurvey
      cases hsurvey
  own s hsurvey := by
    rw [hs] at hsurvey
    cases hsurvey
  others s hsurvey := by
    rw [hs] at hsurvey
    cases hsurvey
  deprecated _ := hdeprecated

/-- A manifest takes no effect when the reports with it and without it are the
same and no entry is its own. -/
theorem takesNoEffect_of_survey {s' : Survey} (hs : p.survey vcs = .ok s)
    (hwithout : (p.without path).survey vcs = .ok s')
    (hreport : Scan.reportOf (p.without path) s' .covered = Scan.reportOf p s .covered)
    (hown : ∀ m ∈ s.files.manifests, ∀ e ∈ p.entriesAt m, e.manifest ≠ path)
    (hothers : ∀ m ∈ s.files.manifests, m ≠ path →
      (p.without path).entriesAt m = p.entriesAt m)
    (hdeprecated : (p.without path).dep5?.bind Except.toOption =
      p.dep5?.bind Except.toOption) : p.TakesNoEffect vcs path where
  report := by rw [lintProject, lintProject, report_scan hwithout, report_scan hs, hreport]
  mayReport r := by rw [mayReport_iff_of_survey hwithout, mayReport_iff_of_survey hs, hreport]
  own other hsurvey := by
    obtain rfl := Except.ok.inj (hs.symm.trans hsurvey)
    intro e he
    obtain ⟨m, hm, he⟩ := List.mem_flatMap.1 he
    exact hown m hm e he
  others other hsurvey := by
    obtain rfl := Except.ok.inj (hs.symm.trans hsurvey)
    exact hothers
  deprecated _ := hdeprecated

/-- Each entry names its manifest, so a manifest that none of them names has no
entries. -/
theorem entriesAt_eq_nil {m : String} (h : ∀ e ∈ p.entriesAt m, e.manifest ≠ m) :
    p.entriesAt m = [] := by
  refine List.eq_nil_iff_forall_not_mem.2 ?_
  intro e he
  obtain ⟨text, parsed, -, hparse, hmem⟩ := exists_parse_of_mem_entriesAt he
  exact h e he (Entry.manifest_of_parse hparse hmem)

/-- A manifest with an entry for all files, and then an entry for none. -/
def brokenText : String :=
  "version = 1\n[[annotations]]\npath = \"**\"\nSPDX-License-Identifier = \"MIT\"\n[[annotations]]\n"

/-- The bytes of this manifest. -/
def brokenBytes : List UInt8 :=
  brokenText.toList.map fun c => UInt8.ofNat c.toNat

/-- The manifest and a file next to it. -/
def brokenFiles : List (String × Tree) :=
  [("REUSE.toml", .file brokenBytes), ("a.c", .file [120, 10])]

theorem hasFile_broken : (plain brokenFiles).tree.HasFile "/p" "REUSE.toml" brokenBytes :=
  Tree.hasFile_withProject (show split '/' "REUSE.toml" = ["REUSE.toml"] by decide) rfl

theorem isResolved_plain (entries : List (String × Tree)) : Path.IsResolved (plain entries).root :=
  ⟨["p"], by decide, show "/p" = Path.ofSteps ["p"] by decide⟩

/-- The manifest in the root of a project is read. -/
theorem read_manifest_plain {entries : List (String × Tree)} {content : List UInt8}
    (h : entries.lookup "REUSE.toml" = some (.file content)) :
    (plain entries).tree.read "/p/REUSE.toml" = .ok content := by
  rw [Tree.read_eq, show (plain entries).tree.find "/p/REUSE.toml" = _ from Tree.find_entry
    (show Tree.GoesBy "/p/REUSE.toml" ["p", "REUSE.toml"] by decide) h]

/-- A manifest in the root of a project is broken when no manifest has its
text. -/
theorem isBroken_plain {entries : List (String × Tree)} (content : List UInt8) (text : String)
    (hreads : (plain entries).tree.read "/p/REUSE.toml" = .ok content)
    (hdecode : Utf8.decode content = text.toList)
    (hfails : (Manifest.parse "REUSE.toml" text).isOk = false) :
    (plain entries).IsBroken "REUSE.toml" := by
  have hjoin : Path.join "/p" "REUSE.toml" = "/p/REUSE.toml" := by decide
  have htext : (plain entries).textAt "REUSE.toml" = .ok text := by
    rw [textAt, root_plain, hjoin, hreads]
    simp only [bind, Except.bind, hdecode, String.ofList_toList]
    rfl
  cases hparse : Manifest.parse "REUSE.toml" text with
  | error fault =>
      have hname : Path.name "REUSE.toml" = "REUSE.toml" := by decide
      exact .manifest hname htext hparse
  | ok m =>
      rw [hparse] at hfails
      cases hfails

theorem isBroken_broken : (plain brokenFiles).IsBroken "REUSE.toml" :=
  isBroken_plain brokenBytes brokenText (read_manifest_plain rfl)
    (Utf8.decode_of_ascii (by decide)) (by decide +kernel)

theorem standsAlone_broken : (plain brokenFiles).StandsAlone (.ok .none) "REUSE.toml" := by
  have hfiles : (Tree.folder brokenFiles).IsUnlinked := by
    refine Tree.isUnlinked_folder (List.forall_mem_cons.2 ⟨?_, List.forall_mem_singleton.2 ?_⟩)
    · exact Tree.isUnlinked_file brokenBytes
    · exact Tree.isUnlinked_file [120, 10]
  have hlinks : (plain brokenFiles).tree.IsUnlinked :=
    Tree.isUnlinked_folder (List.forall_mem_singleton.2 hfiles)
  have hname : Path.name "REUSE.toml" = "REUSE.toml" := by decide
  exact standsAlone_of_isUnlinked hlinks hasFile_broken (by decide) (isResolved_plain _)
    rfl rfl (.inl hname) (by decide)

/-- A license directory with a link out of it. -/
def linkedText : String × Tree :=
  ("LICENSES", .folder [("x.txt", .link "../REUSE.toml")])

/-- A manifest that is no TOML, and the license directory next to it. -/
def linkedFiles : List (String × Tree) :=
  [("REUSE.toml", .file [120]), linkedText]

/-- The link is followed to what is next to the license directory. -/
theorem follow_linked {entries : List (String × Tree)}
    (h : entries.lookup "LICENSES" = some linkedText.2) :
    (plain entries).tree.follow Tree.linkLimit [] (split '/' "/p/LICENSES/x.txt") =
      (plain entries).tree.follow 39 ["p"] ["REUSE.toml"] := by
  have hsplit : split '/' "/p/LICENSES/x.txt" = ["", "p", "LICENSES", "x.txt"] := by
    decide
  have htarget : split '/' "../REUSE.toml" = ["..", "REUSE.toml"] := by decide
  have hroot : (plain entries).tree.at? ["p"] = some (.folder entries) := rfl
  have hdirectory : (plain entries).tree.at? ["p", "LICENSES"] = some linkedText.2 :=
    (Tree.at?_entry entries _).trans h
  have hlink : (plain entries).tree.at? ["p", "LICENSES", "x.txt"] =
      some (.link "../REUSE.toml") := by
    rw [show ["p", "LICENSES", "x.txt"] = ["p", "LICENSES"] ++ ["x.txt"] from rfl,
      Tree.at?_append, hdirectory]
    rfl
  rw [hsplit, Tree.follow_empty, Tree.follow_folder (by decide) (by decide) hroot,
    Tree.follow_folder (by decide) (by decide) hdirectory, show Tree.linkLimit = 39 + 1 from rfl,
    Tree.follow_link (by decide) (by decide) (by decide) hlink, htarget, List.append_nil,
    if_neg (by decide), Tree.follow_above]
  rfl

theorem namesIn_linked {entries : List (String × Tree)}
    (h : entries.lookup "LICENSES" = some linkedText.2) :
    Inventory.namesIn (plain entries).tree "/p/LICENSES" = .ok ["x.txt"] :=
  Inventory.namesIn_of_find (Tree.find_folder
    (show Tree.GoesBy "/p/LICENSES" ["p", "LICENSES"] by decide)
    ((Tree.at?_entry entries _).trans h)) rfl

/-- What is read from the license directory, when the link leads to a file and
when it does not. -/
def linkedInventory (stored : Bool) : Inventory :=
  ⟨"LICENSES", if stored then [⟨"x", "LICENSES/x.txt", false, false, true⟩] else []⟩

/-- Whether the link leads to a file shows in the report. -/
theorem badLicenses_linked {entries : List (String × Tree)} {stored : Bool}
    (hnames : Inventory.namesIn (plain entries).tree "/p/LICENSES" = .ok ["x.txt"])
    (hstored : Inventory.isStoredFile (plain entries).tree "/p/LICENSES/x.txt" = .ok stored) :
    ((lintProject (plain entries) (.ok .none)).map Scan.report).map (·.findings.badLicenses) =
      .ok (if stored then ["x"] else []) := by
  obtain ⟨hplace, hdirectory⟩ := licenseDirectory_plain
  have hjoin : Path.join "/p/LICENSES" "x.txt" = "/p/LICENSES/x.txt" := by decide
  have hcandidates : (sortedOn id ["x.txt"]).filter Inventory.isCandidate = ["x.txt"] := by
    decide +kernel
  have hdescribe : Catalog.describe ⟨[], [], []⟩ "x.txt" ("LICENSES" ++ "/" ++ "x.txt") =
      ⟨"x", "LICENSES/x.txt", false, false, true⟩ := by decide +kernel
  have hscan : Inventory.scan (.withProject entries) "/p" "LICENSES" ⟨[], [], []⟩ =
      .ok (linkedInventory stored) := by
    simp only [Inventory.scan, hplace, hdirectory,
      show Inventory.namesIn (.withProject entries) "/p/LICENSES" = _ from hnames,
      bind, Except.bind, Inventory.ofNames, hcandidates, List.foldlM_cons, List.foldlM_nil,
      Inventory.enlistFile, hjoin,
      show Inventory.isStoredFile (.withProject entries) "/p/LICENSES/x.txt" = _ from hstored,
      hdescribe]
    cases stored <;> cbv
  have hbad : Classification.idsWhere (linkedInventory stored)
      (fun r => !r.isKnown && !isReference r.id) = if stored then ["x"] else [] := by
    cases stored <;> decide +kernel
  have hs := survey_of_scan entries hscan
  rw [lintProject, show plain entries = { plain entries with catalog := ⟨[], [], []⟩ } from rfl,
    report_scan hs]
  exact congrArg Except.ok hbad

end Project

end LicenseAudit
