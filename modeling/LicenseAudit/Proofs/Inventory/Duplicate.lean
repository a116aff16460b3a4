import LicenseAudit.Proofs.Inventory
import Mathlib.Data.Set.Function

/-!
# Texts of one license

Each license has one text.  Records are taken in one after the other; as long
as their identifiers differ all of them are kept (`foldlM_enlist_eq_ok`), and
the first whose identifier another has ends the taking of the inventory
(`foldlM_enlist_eq_error`).

So the inventory of a directory that can be read is taken if and only if no
two license texts in it have one identifier, and then it has one record for
each of them.  Otherwise the failure names the first text, in the order of
their names, whose identifier an earlier one has, and that earlier one
(`scan_readable`).
-/

namespace LicenseAudit

open Text

/-- The identifier that a file name stands for. -/
def Catalog.idOf (catalog : Catalog) (name : String) : String :=
  (catalog.identify name).1

theorem Catalog.id_describe (catalog : Catalog) (name path : String) :
    (catalog.describe name path).id = catalog.idOf name := by
  rw [describe, idOf]

namespace Inventory

variable {catalog : Catalog} {directory : String} {isFile : String → Except Failure Bool}
variable {records more : List LicenseRecord} {r first : LicenseRecord}

/-- Under distinct identifiers every record is found by its own. -/
theorem find?_eq_some_iff_of_nodup (h : (records.map LicenseRecord.id).Nodup) {id : String} :
    records.find? (·.id = id) = some r ↔ r ∈ records ∧ r.id = id := by
  constructor
  · intro hfind
    exact ⟨List.mem_of_find?_eq_some hfind, by simpa using List.find?_some hfind⟩
  · rintro ⟨hr, rfl⟩
    have hsome : (records.find? (·.id = r.id)).isSome = true :=
      List.find?_isSome.2 ⟨r, hr, by simp⟩
    obtain ⟨other, hother⟩ := Option.isSome_iff_exists.1 hsome
    have hid : other.id = r.id := by simpa using List.find?_some hother
    rw [hother, List.inj_on_of_nodup_map h (List.mem_of_find?_eq_some hother) hr hid]

/-- Records are taken in as long as their identifiers differ. -/
theorem foldlM_enlist_eq_ok (h : ((records ++ more).map LicenseRecord.id).Nodup) :
    more.foldlM enlist records = .ok (records ++ more) := by
  induction more generalizing records with
  | nil => rw [List.append_nil]; rfl
  | cons r more ih =>
      have hr : records.find? (·.id = r.id) = none := by
        rw [List.map_append, List.nodup_append] at h
        refine List.find?_eq_none.2 fun other hother => ?_
        simpa using h.2.2 other.id (List.mem_map_of_mem hother) r.id (by simp)
      have hrest : more.foldlM enlist (records ++ [r]) = .ok (records ++ [r] ++ more) :=
        ih (by simpa using h)
      rw [List.append_assoc, List.singleton_append] at hrest
      rw [List.foldlM_cons, enlist, hr]
      exact hrest

/-- The first record whose identifier another has is not taken in. -/
theorem foldlM_enlist_eq_error (h : (records.map LicenseRecord.id).Nodup) (hfirst : first ∈ records)
    (hid : first.id = r.id) :
    (records ++ r :: more).foldlM enlist [] =
      .error (.duplicateLicense r.id first.path r.path) := by
  have hkept : records.foldlM enlist [] = .ok records := foldlM_enlist_eq_ok h
  have hfind : records.find? (·.id = r.id) = some first :=
    (find?_eq_some_iff_of_nodup h).2 ⟨hfirst, hid⟩
  rw [List.foldlM_append, hkept]
  change (r :: more).foldlM enlist records = _
  rw [List.foldlM_cons, enlist, hfind]
  rfl

/-- In a list in which not all values of a function differ, one is the first
that has the value of an earlier one. -/
theorem exists_first_of_not_nodup {α β : Type} {f : α → β} {l : List α}
    (h : ¬ (l.map f).Nodup) :
    ∃ before y after x, l = before ++ y :: after ∧ (before.map f).Nodup ∧ x ∈ before ∧
      f x = f y := by
  induction l using List.reverseRecOn with
  | nil => exact absurd List.nodup_nil h
  | append_singleton l a ih =>
      by_cases hl : (l.map f).Nodup
      · have hmem : f a ∈ l.map f := by
          by_contra hnew
          refine h ?_
          rw [List.map_append, List.map_singleton, ← List.concat_eq_append]
          exact hl.concat hnew
        obtain ⟨x, hx, hxa⟩ := List.mem_map.1 hmem
        exact ⟨l, a, [], x, rfl, hl, hx, hxa⟩
      · obtain ⟨before, y, after, x, rfl, hbefore, hx, hxy⟩ := ih hl
        exact ⟨before, y, after ++ [a], x, by simp, hbefore, hx, hxy⟩

/-- The records of files with some names in a directory. -/
def recordsOf (catalog : Catalog) (directory : String) (names : List String) :
    List LicenseRecord :=
  names.map fun name => catalog.describe name (directory ++ "/" ++ name)

theorem mem_recordsOf {names : List String} :
    r ∈ recordsOf catalog directory names ↔
      ∃ name ∈ names, catalog.describe name (directory ++ "/" ++ name) = r :=
  List.mem_map

theorem map_id_recordsOf (catalog : Catalog) (directory : String) (names : List String) :
    (recordsOf catalog directory names).map LicenseRecord.id = names.map catalog.idOf := by
  simp [recordsOf, Function.comp_def, Catalog.id_describe]

/-- Of names that are told apart only those of files matter. -/
theorem foldlM_enlistFile_eq {names : List String}
    (htold : ∀ name ∈ names, ∃ answer, isFile name = .ok answer) :
    names.foldlM (enlistFile catalog directory isFile) records =
      (recordsOf catalog directory (names.filter fun name =>
        (isFile name).toOption = some true)).foldlM enlist records := by
  induction names generalizing records with
  | nil => rfl
  | cons name names ih =>
      obtain ⟨⟨answer, hanswer⟩, hrest⟩ := List.forall_mem_cons.1 htold
      rw [List.foldlM_cons, enlistFile, hanswer]
      cases answer with
      | false =>
          rw [List.filter_cons_of_neg (by simp [hanswer, Except.toOption])]
          exact ih hrest
      | true =>
          rw [List.filter_cons_of_pos (by simp [hanswer, Except.toOption]), recordsOf,
            List.map_cons, List.foldlM_cons]
          exact bind_congr fun _ => ih hrest

/-- A directory with some names in it is **readable** when each stands there
once, and of each that may be that of a text it can be told whether it leads
to a file.  A directory that does not exist is one without names. -/
structure IsReadable (tree : Tree) (place : String) (names : List String) : Prop where
  namesIn_eq : namesIn tree place = .ok names
  nodup : names.Nodup
  told : ∀ name ∈ names, isCandidate name = true →
    ∃ answer, isStoredFile tree (Path.join place name) = .ok answer

/-- No two license texts in a directory have one identifier. -/
def HasDistinctIds (tree : Tree) (place : String) (catalog : Catalog) : Prop :=
  ∀ m n, IsText tree place m → IsText tree place n → catalog.idOf m = catalog.idOf n → m = n

/-- Two license texts in a directory are the **first clash** when the second
is the first, in the order of the names, whose identifier an earlier one has,
and that is the other. -/
structure IsFirstClash (tree : Tree) (place : String) (catalog : Catalog)
    (first second : String) : Prop where
  isText_first : IsText tree place first
  isText_second : IsText tree place second
  before : Before first second
  idOf_eq : catalog.idOf first = catalog.idOf second
  none_before : ∀ m n, IsText tree place m → IsText tree place n → Before m n →
    catalog.idOf m = catalog.idOf n → ¬ Before n second

/-- The names of the license texts among some names, in their order. -/
def textsAmong (tree : Tree) (place : String) (names : List String) : List String :=
  ((sortedOn id names).filter isCandidate).filter fun name =>
    (isStoredFile tree (Path.join place name)).toOption = some true

section Readable

variable {tree : Tree} {place root licenseDirectory : String} {names : List String}

/-- The names of the license texts are listed. -/
theorem IsReadable.isListing_textsAmong (h : IsReadable tree place names) :
    IsListing Before (IsText tree place) (textsAmong tree place names) := by
  have hnames : IsListing Before (· ∈ names) (sortedOn id names) :=
    isListing_sortedOn (by simpa using h.nodup)
  refine ((hnames.filter isCandidate).filter _).congr fun name => ?_
  rw [decide_eq_true_eq, toOption_eq_some_iff, isStoredFile_eq_ok_true_iff]
  constructor
  · rintro ⟨⟨hname, hcandidate⟩, hisFile⟩
    have hlist := (list_eq_of_namesIn h.namesIn_eq).resolve_right (List.ne_nil_of_mem hname)
    exact ⟨⟨names, hlist, hname⟩, hisFile, hcandidate⟩
  · rintro ⟨⟨listed, hlist, hname⟩, hisFile, hcandidate⟩
    have hnamesIn := h.namesIn_eq
    rw [namesIn, hlist] at hnamesIn
    obtain rfl := Except.ok.inj hnamesIn
    exact ⟨⟨hname, hcandidate⟩, hisFile⟩

/-- The inventory of a readable directory is taken from its license texts in
their order. -/
theorem IsReadable.scan_eq
    (h : IsReadable tree (Path.resolve root licenseDirectory) names) :
    let place := Path.resolve root licenseDirectory
    let directory := Path.relative root place
    scan tree root licenseDirectory catalog =
      ((recordsOf catalog directory (textsAmong tree place names)).foldlM enlist []).map
        fun records => ⟨directory, sortedOn LicenseRecord.id records⟩ := by
  intro place directory
  have htold : ∀ name ∈ (sortedOn id names).filter isCandidate,
      ∃ answer, isStoredFile tree (Path.join place name) = .ok answer := by
    intro name hname
    obtain ⟨hmem, hcandidate⟩ := List.mem_filter.1 hname
    exact h.told name (mem_sortedOn.1 hmem) hcandidate
  rw [scan, h.namesIn_eq]
  change ofNames catalog directory (fun name => isStoredFile tree (Path.join place name)) names = _
  rw [ofNames, foldlM_enlistFile_eq htold, textsAmong]
  generalize List.foldlM enlist [] _ = taken
  cases taken <;> rfl

theorem IsReadable.hasDistinctIds_iff (h : IsReadable tree place names) :
    HasDistinctIds tree place catalog ↔
      ((textsAmong tree place names).map catalog.idOf).Nodup := by
  have hlisting := h.isListing_textsAmong
  constructor
  · intro hids
    refine (hlisting.nodup fun _ _ hab => hab.asymm).map_on fun m hm n hn hmn => ?_
    exact hids m n ((hlisting.mem_iff m).1 hm) ((hlisting.mem_iff n).1 hn) hmn
  · intro hnodup m n hm hn hmn
    exact List.inj_on_of_nodup_map hnodup ((hlisting.mem_iff m).2 hm) ((hlisting.mem_iff n).2 hn)
      hmn

section Distinct

variable (h : IsReadable tree place names) (hids : HasDistinctIds tree place catalog)
include h hids

/-- Without a clash no two records have one identifier. -/
theorem IsReadable.nodup_ids (directory : String) :
    ((recordsOf catalog directory (textsAmong tree place names)).map LicenseRecord.id).Nodup := by
  rw [map_id_recordsOf]
  exact h.hasDistinctIds_iff.1 hids

/-- Without a clash the records are those of the license texts one to one. -/
theorem IsReadable.bijOn_describe (directory : String) :
    Set.BijOn (fun name => catalog.describe name (directory ++ "/" ++ name))
      {name | IsText tree place name}
      {r | r ∈ recordsOf catalog directory (textsAmong tree place names)} := by
  have hlisting := h.isListing_textsAmong
  refine ⟨?_, ?_, ?_⟩
  · intro name hname
    exact mem_recordsOf.2 ⟨name, (hlisting.mem_iff name).2 hname, rfl⟩
  · intro m hm n hn hrecord
    have hid := congrArg LicenseRecord.id hrecord
    simp only [Catalog.id_describe] at hid
    exact hids m n hm hn hid
  · intro r hr
    obtain ⟨name, hname, rfl⟩ := mem_recordsOf.1 hr
    exact ⟨name, (hlisting.mem_iff name).1 hname, rfl⟩

end Distinct

/-- Without a clash the inventory has the records of all license texts. -/
theorem IsReadable.scan_eq_ok
    (h : IsReadable tree (Path.resolve root licenseDirectory) names)
    (hids : HasDistinctIds tree (Path.resolve root licenseDirectory) catalog) :
    let place := Path.resolve root licenseDirectory
    let directory := Path.relative root place
    scan tree root licenseDirectory catalog =
      .ok ⟨directory, sortedOn LicenseRecord.id
        (recordsOf catalog directory (textsAmong tree place names))⟩ := by
  intro place directory
  have htaken : (recordsOf catalog directory (textsAmong tree place names)).foldlM enlist [] =
      .ok (recordsOf catalog directory (textsAmong tree place names)) := by
    refine foldlM_enlist_eq_ok ?_
    rw [List.nil_append]
    exact h.nodup_ids hids directory
  rw [h.scan_eq, htaken]
  rfl

/-- The first of the license texts whose identifier an earlier one has is part
of the first clash. -/
theorem IsReadable.isFirstClash (h : IsReadable tree place names) {before after : List String}
    {first second : String} (htexts : textsAmong tree place names = before ++ second :: after)
    (hbefore : (before.map catalog.idOf).Nodup) (hfirst : first ∈ before)
    (hid : catalog.idOf first = catalog.idOf second) :
    IsFirstClash tree place catalog first second := by
  have hlisting := h.isListing_textsAmong
  rw [htexts] at hlisting
  have hascending := List.pairwise_append.1 hlisting.ascending
  have hmem {name : String} (hname : IsText tree place name) (hbelow : Before name second) :
      name ∈ before := by
    rcases List.mem_append.1 ((hlisting.mem_iff name).2 hname) with hname | hname
    · exact hname
    · rcases List.mem_cons.1 hname with rfl | hname
      · exact absurd hbelow hbelow.asymm
      · exact absurd ((List.pairwise_cons.1 hascending.2.1).1 name hname) hbelow.asymm
  refine ⟨(hlisting.mem_iff first).1 (List.mem_append_left _ hfirst),
    (hlisting.mem_iff second).1 (by simp), hascending.2.2 first hfirst second (by simp), hid,
    fun m n hm hn hmn hids hbelow => ?_⟩
  have heq := List.inj_on_of_nodup_map hbefore (hmem hm (hmn.trans hbelow)) (hmem hn hbelow) hids
  rw [heq] at hmn
  exact hmn.asymm hmn

/-- With a clash the inventory is not taken. -/
theorem IsReadable.exists_scan_eq_error
    (h : IsReadable tree (Path.resolve root licenseDirectory) names)
    (hids : ¬ HasDistinctIds tree (Path.resolve root licenseDirectory) catalog) :
    let place := Path.resolve root licenseDirectory
    let directory := Path.relative root place
    ∃ first second, IsFirstClash tree place catalog first second ∧
      scan tree root licenseDirectory catalog = .error (.duplicateLicense (catalog.idOf second)
        (directory ++ "/" ++ first) (directory ++ "/" ++ second)) := by
  intro place directory
  rw [h.hasDistinctIds_iff] at hids
  obtain ⟨before, second, after, first, htexts, hbefore, hfirst, hid⟩ :=
    exists_first_of_not_nodup hids
  refine ⟨first, second, h.isFirstClash htexts hbefore hfirst hid, ?_⟩
  have hrecords : recordsOf catalog directory (textsAmong tree place names) =
      recordsOf catalog directory before ++
        catalog.describe second (directory ++ "/" ++ second) :: recordsOf catalog directory after := by
    rw [htexts, recordsOf, List.map_append, List.map_cons]
    rfl
  have hearlier : catalog.describe first (directory ++ "/" ++ first) ∈
      recordsOf catalog directory before := mem_recordsOf.2 ⟨first, hfirst, rfl⟩
  have hclash : (recordsOf catalog directory (textsAmong tree place names)).foldlM enlist [] =
      .error (.duplicateLicense _ _ _) :=
    hrecords ▸ foldlM_enlist_eq_error (by rwa [map_id_recordsOf]) hearlier
      (by rw [Catalog.id_describe, Catalog.id_describe, hid])
  rw [Catalog.id_describe, Catalog.path_describe, Catalog.path_describe] at hclash
  rw [h.scan_eq, hclash]
  rfl

/-- **An inventory is taken exactly when every license has one text**: of a
directory that can be read the inventory is taken if and only if no two
license texts in it have one identifier.  Its records then ascend by their
identifiers, they are those of the license texts one to one, and each is found
by its identifier.  Otherwise the failure is about the first clash. -/
theorem scan_readable (h : IsReadable tree (Path.resolve root licenseDirectory) names) :
    let place := Path.resolve root licenseDirectory
    let directory := Path.relative root place
    ((∃ inventory, scan tree root licenseDirectory catalog = .ok inventory) ↔
      HasDistinctIds tree place catalog) ∧
    (∀ inventory, scan tree root licenseDirectory catalog = .ok inventory →
      inventory.directory = directory ∧
      inventory.records.Pairwise (fun a b => Before a.id b.id) ∧
      Set.BijOn (fun name => catalog.describe name (directory ++ "/" ++ name))
        {name | IsText tree place name} {r | r ∈ inventory.records} ∧
      ∀ id r, inventory.find? id = some r ↔ r ∈ inventory.records ∧ r.id = id) ∧
    (¬ HasDistinctIds tree place catalog →
      ∃ first second, IsFirstClash tree place catalog first second ∧
        scan tree root licenseDirectory catalog = .error (.duplicateLicense (catalog.idOf second)
          (directory ++ "/" ++ first) (directory ++ "/" ++ second))) := by
  intro place directory
  have hdistinct {inventory : Inventory}
      (hscan : scan tree root licenseDirectory catalog = .ok inventory) :
      HasDistinctIds tree place catalog := by
    by_contra hids
    obtain ⟨first, second, -, herror⟩ := h.exists_scan_eq_error hids
    rw [herror] at hscan
    cases hscan
  refine ⟨⟨fun ⟨_, hscan⟩ => hdistinct hscan, fun hids => ⟨_, h.scan_eq_ok hids⟩⟩, ?_,
    h.exists_scan_eq_error⟩
  intro inventory hscan
  have hids := hdistinct hscan
  have hnodup := h.nodup_ids hids directory
  have hrecords := h.bijOn_describe hids directory
  obtain rfl := Except.ok.inj ((h.scan_eq_ok hids).symm.trans hscan)
  refine ⟨rfl, (isListing_sortedOn hnodup).ascending, ?_, fun id r => ?_⟩
  · simpa only [mem_sortedOn] using hrecords
  · refine find?_eq_some_iff_of_nodup ?_
    exact ((List.mergeSort_perm _ _).map LicenseRecord.id).nodup_iff.2 hnodup

/-- A license directory at `/p/LICENSES` with three texts of one license, a
sidecar and a folder. -/
def crowded : Tree :=
  .folder [("p", .folder [("LICENSES", .folder
    [("MIT.txt", .file [120]), ("MIT.md", .file [120]), ("MIT", .file [120]),
      ("MIT.license", .file [120]), ("old", .folder [])])])]

/-- Three texts of one license clash. -/
theorem scan_readable_crowded :
    let place := Path.resolve "/p" "LICENSES"
    let catalog : Catalog := ⟨["MIT"], [], []⟩
    IsReadable crowded place ["MIT.txt", "MIT.md", "MIT", "MIT.license", "old"] ∧
      ¬ HasDistinctIds crowded place catalog ∧
      ∃ first second, IsFirstClash crowded place catalog first second ∧
        scan crowded "/p" "LICENSES" catalog = .error (.duplicateLicense (catalog.idOf second)
          (Path.relative "/p" place ++ "/" ++ first) (Path.relative "/p" place ++ "/" ++ second)) := by
  intro place catalog
  have hplace : place = "/p/LICENSES" := by decide +kernel
  have hlist : crowded.list place = .ok ["MIT.txt", "MIT.md", "MIT", "MIT.license", "old"] := by
    rw [hplace, Tree.list_eq, Tree.find_folder
      (show Tree.GoesBy "/p/LICENSES" ["p", "LICENSES"] by decide) rfl]
    rfl
  have hjoin : ∀ name ∈ ["MIT.txt", "MIT.md", "MIT", "MIT.license", "old"],
      Path.join place name = "/p/LICENSES/" ++ name := by
    rw [hplace]
    decide +kernel
  have hgoes : ∀ name ∈ ["MIT.txt", "MIT.md", "MIT", "MIT.license", "old"],
      Tree.GoesBy ("/p/LICENSES/" ++ name) (["p", "LICENSES"] ++ [name]) := by decide
  have hfile {name : String} (hmem : name ∈ ["MIT.txt", "MIT.md", "MIT", "MIT.license", "old"])
      (hat : crowded.at? (["p", "LICENSES"] ++ [name]) = some (.file [120])) :
      crowded.isFile (Path.join place name) = .ok true := by
    rw [hjoin name hmem, Tree.isFile_eq, Tree.find_file (hgoes name hmem) hat]
  have hreadable : IsReadable crowded place ["MIT.txt", "MIT.md", "MIT", "MIT.license", "old"] := by
    refine ⟨by rw [namesIn, hlist], by decide, fun name hmem _ => ?_⟩
    have hold : crowded.find ("/p/LICENSES/" ++ "old") = .ok (.folder []) :=
      Tree.find_folder (hgoes "old" (by decide)) rfl
    have hname := hmem
    simp only [List.mem_cons, List.not_mem_nil, or_false] at hname
    rcases hname with rfl | rfl | rfl | rfl | rfl
    case inr.inr.inr.inr =>
      exact ⟨false, by simp only [isStoredFile, hjoin "old" hmem, Tree.isFile_eq, hold]⟩
    all_goals exact ⟨true, isStoredFile_eq_ok_true_iff.2 (hfile hmem rfl)⟩
  have htext {name : String} (hmem : name ∈ ["MIT.txt", "MIT.md", "MIT", "MIT.license", "old"])
      (hat : crowded.at? (["p", "LICENSES"] ++ [name]) = some (.file [120]))
      (hcandidate : isCandidate name = true) : IsText crowded place name :=
    ⟨⟨_, hlist, hmem⟩, hfile hmem hat, hcandidate⟩
  have hclash : ¬ HasDistinctIds crowded place catalog := by
    intro hids
    have heq := hids "MIT" "MIT.txt" (htext (by decide) rfl (by decide +kernel))
      (htext (by decide) rfl (by decide +kernel)) (by decide +kernel)
    exact absurd heq (by decide)
  exact ⟨hreadable, hclash, (scan_readable hreadable).2.2 hclash⟩

end Readable

end Inventory

end LicenseAudit
