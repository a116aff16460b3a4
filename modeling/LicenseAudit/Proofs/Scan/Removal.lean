import LicenseAudit.Proofs.Coverage.Removal
import LicenseAudit.Proofs.Scan.Isolation

/-!
# Surveys without one of the files

When a file goes from a project, this may show in other places than its own:
where a link leads to it that stands for a sidecar, or for a license text.  A
file **stands alone** when nothing of the kind leads to it.  In a tree without
links a manifest does, unless it lies among the license texts
(`standsAlone_of_isUnlinked`).

Without a file that stands alone and is not covered the project has the same
survey, but for the manifest that the file may be (`survey_without`).
-/

namespace LicenseAudit

open Text

/-- What a survey says without the manifest at a path. -/
def Survey.without (s : Survey) (path : String) : Survey :=
  { s with files := { s.files with manifests := s.files.manifests.filter (· ≠ path) } }

namespace Project

/-- The place that a path of a project names: from where the root path leads
to along the names of the path. -/
def placeOf (p : Project) (path : String) : List String :=
  (p.tree.follow Tree.linkLimit [] (split '/' p.root)).toOption.getD [] ++ split '/' path

/-- The project without the entry at a path. -/
def without (p : Project) (path : String) : Project :=
  p.withTree (p.tree.erase (p.placeOf path))

/-- An entry of a project **stands alone** when nothing else that a scan looks
for leads to it or through it: not the root, no sidecar of a covered file, not
the license directory or a text in it, and not the deprecated manifest when
that is another. -/
structure StandsAlone (p : Project) (vcs : Except Failure Vcs) (path : String) : Prop where
  root : ¬ p.tree.LooksAt p.root (p.placeOf path)
  sidecars : ∀ s, p.survey vcs = .ok s → ∀ other ∈ s.files.covered,
    ¬ p.tree.LooksAt (Path.join p.root other ++ Collection.sidecarEnding) (p.placeOf path)
  directory :
    ¬ p.tree.LooksAt (Path.resolve p.root p.config.licenseDirectory) (p.placeOf path)
  texts : ∀ name, Path.IsName name →
    ¬ p.tree.LooksAt (Path.join (Path.resolve p.root p.config.licenseDirectory) name)
      (p.placeOf path)
  deprecated : path ≠ p.config.dep5Path →
    ¬ p.tree.LooksAt (Path.join p.root p.config.dep5Path) (p.placeOf path)

variable {p : Project} {vcs : Except Failure Vcs} {s : Survey} {path : String}
variable {base : List String} {bytes : List UInt8} {u : Tree}

theorem placeOf_eq (hbase : p.tree.IsBase p.root base) :
    p.placeOf path = base ++ split '/' path := by
  rw [placeOf, hbase.leads]
  rfl

theorem placeOf_ne_nil (p : Project) (path : String) : p.placeOf path ≠ [] := by
  simp [placeOf, Path.split_ne_nil]

section Without

variable (ht : p.tree.IsProper) (hat : p.tree.at? (p.placeOf path) = some u)
include ht hat

/-- A directory that the entry is in leads to it. -/
theorem exists_looksAt_join {directory : String} (hdirectory : Path.IsResolved directory)
    (hleads : p.tree.follow Tree.linkLimit [] (split '/' directory) =
      .ok (p.placeOf path).dropLast) :
    ∃ name, Path.IsName name ∧ p.tree.LooksAt (Path.join directory name) (p.placeOf path) := by
  obtain ⟨before, name, hplace⟩ :=
    (List.eq_nil_or_concat' (p.placeOf path)).resolve_left (placeOf_ne_nil p path)
  rw [hplace, List.dropLast_concat] at hleads
  rw [hplace] at hat ⊢
  have hname : Path.IsName name := ht.isName_of_at? hat name (by simp)
  have hbase : p.tree.IsBase directory before :=
    ⟨hleads, Tree.exists_folder_of_at? (List.cons_ne_nil _ _) hat⟩
  obtain ⟨left, hleft⟩ := hbase.exists_follow_join hdirectory
  have hsplit : split '/' name = [name] := by
    rw [← Path.joined_singleton name,
      Path.split_joined (List.cons_ne_nil _ _) (by simpa using hname.no_slash),
      Path.joined_singleton]
  have hisPlace : Path.IsPlace name :=
    ⟨[name], List.cons_ne_nil _ _, by simpa using hname, (Path.joined_singleton name).symm⟩
  refine ⟨name, hname, ((hleft name hisPlace).2 _).2 (.inr ?_)⟩
  rw [hsplit, Tree.trail, if_neg (by simp [hname.ne_empty, hname.ne_here]),
    if_neg hname.ne_above]
  exact List.mem_cons_self

variable (hsingle : u.IsSingle)
include hsingle

omit ht in
/-- What does not look at the entry is read as before. -/
theorem read_without {q : String} (hunseen : ¬ p.tree.LooksAt q (p.placeOf path)) :
    (p.without path).tree.read q = p.tree.read q :=
  Tree.read_erase (placeOf_ne_nil p path) hat hsingle hunseen

/-- The inventory is the same without an entry that the license directory does
not lead to. -/
theorem inventory_without
    (hdirectory : ¬ p.tree.LooksAt (Path.resolve p.root p.config.licenseDirectory)
      (p.placeOf path))
    (htexts : ∀ name, Path.IsName name →
      ¬ p.tree.LooksAt (Path.join (Path.resolve p.root p.config.licenseDirectory) name)
        (p.placeOf path)) :
    Inventory.scan (p.without path).tree p.root p.config.licenseDirectory p.catalog =
      Inventory.scan p.tree p.root p.config.licenseDirectory p.catalog := by
  have hlist : (p.without path).tree.list (Path.resolve p.root p.config.licenseDirectory) =
      p.tree.list (Path.resolve p.root p.config.licenseDirectory) := by
    refine Tree.list_erase (placeOf_ne_nil p path) hat hsingle hdirectory fun hleads => ?_
    obtain ⟨name, hname, hlooks⟩ := exists_looksAt_join ht hat
      (Path.isResolved_resolve p.root p.config.licenseDirectory) hleads
    exact htexts name hname hlooks
  refine Inventory.scan_congr hlist fun names hnames name hname =>
    Tree.isFile_eq_of_read_eq (read_without hat hsingle (htexts name ?_))
  rw [Tree.list_eq] at hnames
  split at hnames
  · next entries hfind =>
      obtain rfl := Except.ok.inj hnames
      cases ht.find hfind with
      | folder _ hentries =>
          obtain ⟨e, he, rfl⟩ := List.mem_map.1 hname
          exact hentries e he
  · cases hnames
  · cases hnames

variable (hbase : p.tree.IsBase p.root base)
include hbase

/-- Other files are read as before. -/
theorem read_join_without (hunseen : ¬ p.tree.LooksAt p.root (p.placeOf path))
    (hroot : Path.IsResolved p.root) {other : String}
    (hother : p.tree.HasFile p.root other bytes) (hne : other ≠ path) :
    (p.without path).tree.read (Path.join p.root other) =
      p.tree.read (Path.join p.root other) := by
  refine read_without hat hsingle ?_
  rw [placeOf_eq hbase] at hat hunseen ⊢
  exact Tree.not_looksAt_join hbase hat hsingle hunseen hroot ht hother hne

omit ht in
/-- The root stays a directory. -/
theorem checkRoot_without (hunseen : ¬ p.tree.LooksAt p.root (p.placeOf path)) :
    p.checkRoot = .ok () ∧ (p.without path).checkRoot = .ok () := by
  rw [placeOf_eq hbase] at hat hunseen
  have hbase' := hbase.erase hat hsingle hunseen
  obtain ⟨entries, -, hfind⟩ := hbase.find_eq
  obtain ⟨left, -, hfind'⟩ := hbase'.find_eq
  refine ⟨checkRoot_eq_ok_iff.2 ⟨entries, hfind⟩, checkRoot_eq_ok_iff.2 ⟨left, ?_⟩⟩
  rw [without, placeOf_eq hbase]
  exact hfind'

/-- The files are the same without an excluded entry, but for the manifest that
it may be. -/
theorem files_without (hunseen : ¬ p.tree.LooksAt p.root (p.placeOf path)) {f : PathFilter}
    (hf : f.isExcluded path = true) :
    ProjectFiles.of (p.without path).tree p.root f =
      ⟨(ProjectFiles.of p.tree p.root f).covered,
        (ProjectFiles.of p.tree p.root f).manifests.filter (· ≠ path)⟩ := by
  rw [placeOf_eq hbase] at hat hunseen
  rw [without, tree_withTree, placeOf_eq hbase,
    ← ProjectFiles.covered_erase ht hbase hat hsingle hunseen hf,
    ← ProjectFiles.manifests_erase ht hbase hat hsingle hunseen]

/-- The survey is the same without an excluded entry that stands alone, but
for the manifest that it may be. -/
theorem survey_without (hexcluded : ∀ f v, PathFilter.of p.config.coverage v = .ok f →
      f.isExcluded path = true) (halone : p.StandsAlone vcs path) :
    (p.without path).survey vcs = (p.survey vcs).map (·.without path) := by
  have hinventory := inventory_without ht hat hsingle halone.directory halone.texts
  obtain ⟨hroot, hroot'⟩ := checkRoot_without hat hsingle hbase halone.root
  cases vcs with
  | error e => simp only [survey, hroot, hroot', bind, Except.bind, Except.map]
  | ok v =>
      simp only [survey, hroot, hroot', bind, Except.bind]
      rw [show (p.without path).root = p.root from rfl,
        show (p.without path).config = p.config from rfl,
        show (p.without path).catalog = p.catalog from rfl, hinventory]
      cases hscan : Inventory.scan p.tree p.root p.config.licenseDirectory p.catalog with
      | error e => rfl
      | ok inventory =>
          cases hfilter : PathFilter.of p.config.coverage v with
          | error e => rfl
          | ok f =>
              dsimp only
              rw [files_without ht hat hsingle hbase halone.root (hexcluded f v hfilter)]
              rfl

end Without

section Unlinked

variable {rootNames names : List String}
variable (hlinks : p.tree.IsUnlinked) (hfile : p.tree.HasFile p.root path bytes)
variable (hroot : p.root = Path.ofSteps rootNames) (hrootNames : ∀ n ∈ rootNames, Path.IsName n)
include hlinks hfile hroot hrootNames

/-- Without links only a path that goes on along the names of a file looks at
it. -/
theorem prefix_of_looksAt (hnames : ∀ n ∈ names, Path.IsName n)
    (h : p.tree.LooksAt (Path.ofSteps (rootNames ++ names)) (p.placeOf path)) :
    split '/' path <+: names := by
  obtain ⟨base, hbase, -⟩ := hfile.exists_base
  have hleads := hbase.leads
  rw [hroot, (Tree.follow_ofSteps hrootNames).1] at hleads
  obtain rfl : base = rootNames := Tree.eq_of_follow_unlinked hlinks hrootNames hleads
  have hall := List.forall_mem_append.2 ⟨hrootNames, hnames⟩
  rw [Tree.LooksAt, (Tree.follow_ofSteps hall).2] at h
  obtain ⟨before, hbefore, hplace⟩ := Tree.exists_prefix_of_mem_trail hlinks hall h
  rw [placeOf_eq hbase, List.nil_append] at hplace
  rw [← hplace] at hbefore
  exact (List.prefix_append_right_inj base).1 hbefore

/-- A path into a directory looks at no file outside it. -/
theorem head?_of_looksAt {directory : String}
    (hnames : ∀ n ∈ directory :: names, Path.IsName n)
    (h : p.tree.LooksAt (Path.ofSteps (rootNames ++ directory :: names)) (p.placeOf path)) :
    (split '/' path).head? = some directory := by
  have hbelow := prefix_of_looksAt hlinks hfile hroot hrootNames hnames h
  obtain ⟨first, rest, hsplit⟩ := List.exists_cons_of_ne_nil (Path.split_ne_nil path)
  rw [hsplit, List.cons_prefix_cons] at hbelow
  rw [hsplit, List.head?_cons, hbelow.1]

/-- The path of the sidecar of a file looks at no file but the sidecar. -/
theorem name_of_looksAt_sidecar (ht : p.tree.IsProper) {other : String} {bytes' : List UInt8}
    (hother : p.tree.HasFile p.root other bytes')
    (h : p.tree.LooksAt (Path.join p.root other ++ Collection.sidecarEnding) (p.placeOf path)) :
    ∃ n, Path.name path = n ++ Collection.sidecarEnding := by
  have hplace := hother.isPlace ht
  obtain ⟨before, n, hsplit, -⟩ := hplace.exists_split_eq
  have hnames := Path.isPlace_iff.1 hplace
  rw [hsplit] at hnames
  have hbefore : ∀ m ∈ before, Path.IsName m := fun m hm => hnames m (by simp [hm])
  have hending : Path.IsName (n ++ Collection.sidecarEnding) :=
    Path.isName_append (hnames n (by simp)).no_slash (by decide) (by decide)
  have hsidecar : Path.join p.root other ++ Collection.sidecarEnding =
      Path.ofSteps (rootNames ++ (before ++ [n ++ Collection.sidecarEnding])) := by
    rw [← Path.joined_split other, hsplit, hroot,
      Path.join_place hrootNames (List.concat_ne_nil _ _) hnames, ← List.append_assoc,
      Path.ofSteps_append, List.append_assoc]
  rw [hsidecar] at h
  have hbelow := prefix_of_looksAt hlinks hfile hroot hrootNames
    (List.forall_mem_append.2 ⟨hbefore, List.forall_mem_singleton.2 hending⟩) h
  rcases List.prefix_concat_iff.1 hbelow with hsame | ⟨rest, hrest⟩
  · refine ⟨n, ?_⟩
    rw [← Path.joined_split path, hsame, Path.name_joined hending]
  · -- The file has nothing below it, where the other file is.
    obtain ⟨base, hbase, hat⟩ := hfile.exists_base
    have hbelow := hbase.hasFile_iff.1 hother
    rw [hsplit, ← hrest, List.append_assoc, ← List.append_assoc, Tree.at?_append, hat,
      Option.bind_some] at hbelow
    cases rest <;> cases hbelow

/-- The path of the deprecated manifest looks at no file with another name. -/
theorem name_of_looksAt_dep5
    (h : p.tree.LooksAt (Path.join p.root ".reuse/dep5") (p.placeOf path)) :
    Path.name path ∈ [".reuse", "dep5"] := by
  have hnames : ∀ n ∈ [".reuse", "dep5"], Path.IsName n := by decide
  have hjoined : ".reuse/dep5" = Path.joined [".reuse", "dep5"] := by decide +kernel
  rw [hroot, hjoined, Path.join_place hrootNames (List.cons_ne_nil _ _) hnames] at h
  have hbelow := prefix_of_looksAt hlinks hfile hroot hrootNames hnames h
  obtain ⟨before, name, hsplit⟩ :=
    (List.eq_nil_or_concat' (split '/' path)).resolve_left (Path.split_ne_nil path)
  have hmem : name ∈ [".reuse", "dep5"] := hbelow.subset (by simp [hsplit])
  rw [← Path.joined_split path, hsplit, Path.name_joined (hnames name hmem)]
  exact hmem

end Unlinked

/-- A manifest is no sidecar of another file. -/
theorem name_ne_sidecar (hname : Path.name path = "REUSE.toml" ∨ path = ".reuse/dep5")
    (n : String) : Path.name path ≠ n ++ Collection.sidecarEnding := by
  intro hsidecar
  have hending : (Path.name path).toList.getLast? = some 'e' := by
    rw [hsidecar]
    simp [Collection.sidecarEnding]
  rcases hname with hname | hpath
  · rw [hname] at hending
    exact absurd hending (by decide)
  · rw [hpath] at hending
    exact absurd hending (by decide +kernel)

/-- In a tree without links a manifest stands alone, unless it lies among the
license texts. -/
theorem standsAlone_of_isUnlinked (hlinks : p.tree.IsUnlinked)
    (hfile : p.tree.HasFile p.root path bytes) (ht : p.tree.IsProper)
    (hroot : Path.IsResolved p.root) (hlicense : p.config.licenseDirectory = "LICENSES")
    (hdep5 : p.config.dep5Path = ".reuse/dep5")
    (hname : Path.name path = "REUSE.toml" ∨ path = ".reuse/dep5")
    (houtside : (split '/' path).head? ≠ some "LICENSES") : p.StandsAlone vcs path := by
  obtain ⟨rootNames, hrootNames, hrootPath⟩ := hroot
  have hlicenses : Path.IsName "LICENSES" := by decide
  have hstore : Path.resolve p.root p.config.licenseDirectory =
      Path.ofSteps (rootNames ++ ["LICENSES"]) := by
    have hdirect : Path.IsDirect "LICENSES" := by decide +kernel
    have hsteps : Path.steps false "LICENSES" = ["LICENSES"] := by decide +kernel
    rw [hlicense, Path.resolve, hdirect.stepsFrom_eq, hrootPath, Path.steps_ofSteps hrootNames,
      hsteps]
  constructor
  case root =>
    obtain ⟨base, hbase, hat⟩ := hfile.exists_base
    rw [placeOf_eq hbase]
    exact hbase.not_looksAt hat
  case sidecars =>
    intro s hs other hother hlooks
    obtain ⟨⟨entries, hfolder⟩, -, -, hfiles⟩ := survey_eq_ok_iff.1 hs
    rw [hfiles] at hother
    obtain ⟨b, hhas, -⟩ := (ProjectFiles.mem_covered_iff ht hfolder).1 hother
    obtain ⟨n, hn⟩ := name_of_looksAt_sidecar hlinks hfile hrootPath hrootNames ht hhas hlooks
    exact name_ne_sidecar hname n hn
  case directory =>
    intro hlooks
    rw [hstore] at hlooks
    exact houtside (head?_of_looksAt hlinks hfile hrootPath hrootNames
      (List.forall_mem_singleton.2 hlicenses) hlooks)
  case texts =>
    intro name hname hlooks
    have hnames : ∀ n ∈ ["LICENSES", name], Path.IsName n :=
      List.forall_mem_cons.2 ⟨hlicenses, List.forall_mem_singleton.2 hname⟩
    have hjoin : Path.join (Path.ofSteps (rootNames ++ ["LICENSES"])) name =
        Path.ofSteps (rootNames ++ ["LICENSES", name]) := by
      have h := @Path.join_place [name] _ (List.forall_mem_append.2
        ⟨hrootNames, List.forall_mem_singleton.2 hlicenses⟩) (List.cons_ne_nil _ _)
        (List.forall_mem_singleton.2 hname)
      rwa [Path.joined_singleton, List.append_assoc] at h
    rw [hstore, hjoin] at hlooks
    exact houtside (head?_of_looksAt hlinks hfile hrootPath hrootNames hnames hlooks)
  case deprecated =>
    intro hne hlooks
    rw [hdep5] at hne hlooks
    have hmem := name_of_looksAt_dep5 hlinks hfile hrootPath hrootNames hlooks
    rw [hname.resolve_right hne] at hmem
    exact absurd hmem (by decide)

end Project

end LicenseAudit
