import LicenseAudit.Compliance
import LicenseAudit.Proofs.Expression.Validation
import LicenseAudit.Proofs.Inventory

/-!
# What compliance means

A project is found to be compliant when none of eight lists of problems has
a member.  `Complies` says the same without any list, in terms of what the
files carry and of the license texts that are stored, and
`isCompliant_classify_iff` that the two agree.

One lemma for each way of collecting problems says when nothing is
collected; what the files refer to is compared with what is stored through
`mem_references`.
-/

namespace LicenseAudit

open Text

/-- Some file's license expressions mention an identifier. -/
def IsReferredTo (files : List FileInfo) (id : String) : Prop :=
  ∃ file ∈ files, ∃ text ∈ file.fields.licenses, Mentions text id

/-- A project **complies** when everything could be read, all license
values are expressions, the identifiers that they mention are those whose
texts are stored, each stored text is that of a known license or reference
that is not deprecated and has a name with an extension, and every file
that is not itself below the license directory has a copyright or a
license. -/
structure Complies (catalog : Catalog) (files : List FileInfo) (inventory : Inventory)
    (readErrors : List ReadError) : Prop where
  readable : readErrors = []
  expressions : ∀ file ∈ files, file.unparsable = [] ∧
    ∀ text ∈ file.fields.licenses, ∃ e, Expression.parse text = .ok e
  stored : ∀ id, IsReferredTo files id ↔ ∃ r ∈ inventory.records, r.id = id
  recognized : ∀ r ∈ inventory.records,
    (catalog.isKnown r.id = true ∨ isReference r.id = true) ∧ catalog.isDeprecated r.id = false ∧
      r.hasExtension = true
  informed : ∀ file ∈ files,
    ¬ (inventory.directory ≠ "" ∧ ∃ rest, file.path = inventory.directory ++ "/" ++ rest) →
    file.fields.copyrights ≠ [] ∨ file.fields.licenses ≠ []

namespace Classification

variable {catalog : Catalog} {files : List FileInfo} {inventory : Inventory}
variable {readErrors : List ReadError}

theorem idsWhere_eq_nil_iff {test : LicenseRecord → Bool} :
    idsWhere inventory test = [] ↔ ∀ r ∈ inventory.records, test r = false := by
  simp [idsWhere]

theorem pathsWhere_eq_nil_iff {test : Fields → Bool} :
    pathsWhere inventory files test = [] ↔
      ∀ file ∈ files, inventory.holds file.path = false → test file.fields = false := by
  simp [pathsWhere]

theorem brokenIn_eq_nil_iff {validate : String → Validation} {file : FileInfo} :
    brokenIn validate file = [] ↔
      file.unparsable = [] ∧ ∀ text ∈ file.fields.licenses, (validate text).parsed = true := by
  simp [brokenIn]

/-- Of different files no two have license values that are no expressions
under one path. -/
theorem nodup_path_broken {validate : String → Validation}
    (h : (files.map FileInfo.path).Nodup) :
    (((files.map fun f => UnparsableFile.mk f.path (brokenIn validate f)).filter
      (!·.expressions.isEmpty)).map UnparsableFile.path).Nodup := by
  refine List.Nodup.sublist (List.filter_sublist.map _) ?_
  simpa [Function.comp_def] using h

/-- What the files refer to are the atoms of those of their expressions
that can be read. -/
theorem mem_references {validate : String → Validation} {id : String} :
    id ∈ (files.flatMap (referencesOf validate)).map Prod.fst ↔
      ∃ file ∈ files, ∃ text ∈ file.fields.licenses,
        (validate text).parsed = true ∧ id ∈ (validate text).atoms := by
  have hatom (file : FileInfo) (text : String) :
      (∃ reference ∈ (if (validate text).parsed then
          (validate text).atoms.map fun id => (id, file.path) else []), reference.1 = id) ↔
        (validate text).parsed = true ∧ id ∈ (validate text).atoms := by
    split
    · next hparsed => simp [hparsed]
    · next hparsed => simp [hparsed]
  simp only [List.mem_map, List.mem_flatMap, referencesOf]
  constructor
  · rintro ⟨reference, ⟨file, hfile, text, htext, hreference⟩, hid⟩
    exact ⟨file, hfile, text, htext, (hatom file text).1 ⟨reference, hreference, hid⟩⟩
  · rintro ⟨file, hfile, text, htext, hmentions⟩
    obtain ⟨reference, hreference, hid⟩ := (hatom file text).2 hmentions
    exact ⟨reference, ⟨file, hfile, text, htext, hreference⟩, hid⟩

/-- With the answers of a catalog these are the identifiers that are
referred to. -/
theorem mem_references_validate {id : String} :
    id ∈ (files.flatMap (referencesOf catalog.validate)).map Prod.fst ↔ IsReferredTo files id := by
  rw [mem_references]
  refine exists_congr fun file => and_congr_right fun _ => exists_congr fun text =>
    and_congr_right fun _ => ?_
  rw [catalog.parsed_validate, catalog.mem_atoms_validate]
  exact and_iff_right_of_imp fun ⟨e, he, _⟩ => ⟨e, he⟩

section Missing

variable {validate : String → Validation}

/-- The identifiers that some files refer to. -/
def idsUsedIn (validate : String → Validation) (files : List FileInfo) : List String :=
  sortedUnique ((files.flatMap (referencesOf validate)).map Prod.fst)

/-- The paths of those of some files that refer to an identifier. -/
def usersOf (validate : String → Validation) (files : List FileInfo) (id : String) :
    List String :=
  sortedUnique (((files.flatMap (referencesOf validate)).filter (·.1 = id)).map Prod.snd)

theorem missingLicenses_of (validate : String → Validation) (files : List FileInfo)
    (inventory : Inventory) (readErrors : List ReadError) :
    (of validate files inventory readErrors).missingLicenses =
      ((idsUsedIn validate files).filter (!inventory.has ·)).map fun id =>
        ⟨id, usersOf validate files id⟩ := rfl

/-- A file refers to what it does under its own path. -/
theorem path_of_mem_referencesOf {file : FileInfo} {reference : Reference}
    (h : reference ∈ referencesOf validate file) : reference.2 = file.path := by
  obtain ⟨text, -, hatom⟩ := List.mem_flatMap.1 h
  dsimp only at hatom
  split at hatom
  · obtain ⟨id, -, rfl⟩ := List.mem_map.1 hatom
    rfl
  · cases hatom

/-- The users of an identifier are files. -/
theorem exists_file_of_mem_usersOf {id path : String} (h : path ∈ usersOf validate files id) :
    ∃ file ∈ files, file.path = path := by
  obtain ⟨reference, hreference, rfl⟩ := List.mem_map.1 (mem_sortedUnique.1 h)
  obtain ⟨file, hfile, hof⟩ := List.mem_flatMap.1 (List.mem_of_mem_filter hreference)
  exact ⟨file, hfile, (path_of_mem_referencesOf hof).symm⟩

/-- An identifier that is used has a user. -/
theorem usersOf_ne_nil {id : String} (h : id ∈ idsUsedIn validate files) :
    usersOf validate files id ≠ [] := by
  obtain ⟨reference, hreference, rfl⟩ := List.mem_map.1 (mem_sortedUnique.1 h)
  have hused : reference.2 ∈ usersOf validate files reference.1 := by
    refine mem_sortedUnique.2 (List.mem_map_of_mem (List.mem_filter.2 ⟨hreference, ?_⟩))
    exact decide_eq_true rfl
  exact List.ne_nil_of_mem hused

end Missing

/-- A missing license is referred to and has no text. -/
theorem mem_missingLicenses_iff {id : String} :
    id ∈ (of catalog.validate files inventory readErrors).missingLicenses.map MissingLicense.id ↔
      IsReferredTo files id ∧ ¬ ∃ r ∈ inventory.records, r.id = id := by
  have hid : MissingLicense.id ∘ (fun id => ⟨id, usersOf catalog.validate files id⟩) = fun id => id :=
    rfl
  rw [missingLicenses_of, List.map_map, hid, List.map_id', List.mem_filter, idsUsedIn,
    mem_sortedUnique, mem_references_validate, Bool.not_eq_true', ← Bool.not_eq_true,
    Inventory.has_iff]

/-- An unused license has a text and is not referred to. -/
theorem mem_unusedLicenses_iff {id : String} :
    id ∈ (of catalog.validate files inventory readErrors).unusedLicenses ↔
      (∃ r ∈ inventory.records, r.id = id) ∧ ¬ IsReferredTo files id := by
  have hunused (r : LicenseRecord) :
      (!(sortedUnique ((files.flatMap (referencesOf catalog.validate)).map Prod.fst)).contains
        r.id) = true ↔ ¬ IsReferredTo files r.id := by
    rw [Bool.not_eq_true', ← Bool.not_eq_true, List.contains_iff_mem, mem_sortedUnique,
      mem_references_validate]
  simp only [of, idsWhere, mem_sortedUnique, List.mem_map, List.mem_filter, hunused]
  constructor
  · rintro ⟨r, ⟨hr, hnot⟩, rfl⟩
    exact ⟨⟨r, hr, rfl⟩, hnot⟩
  · rintro ⟨⟨r, hr, rfl⟩, hnot⟩
    exact ⟨r, ⟨hr, hnot⟩, rfl⟩

theorem missingLicenses_eq_nil_iff :
    (of catalog.validate files inventory readErrors).missingLicenses = [] ↔
      ∀ id, IsReferredTo files id → ∃ r ∈ inventory.records, r.id = id := by
  simp only [of, List.map_eq_nil_iff, List.filter_eq_nil_iff, mem_sortedUnique,
    mem_references_validate, Bool.not_eq_true', Bool.not_eq_false, Inventory.has_iff]

theorem unusedLicenses_eq_nil_iff :
    (of catalog.validate files inventory readErrors).unusedLicenses = [] ↔
      ∀ r ∈ inventory.records, IsReferredTo files r.id := by
  simp only [of, idsWhere_eq_nil_iff, Bool.not_eq_false', List.contains_iff_mem, mem_sortedUnique,
    mem_references_validate]

theorem unparsable_eq_nil_iff :
    (of catalog.validate files inventory readErrors).unparsable = [] ↔
      ∀ file ∈ files, file.unparsable = [] ∧
        ∀ text ∈ file.fields.licenses, ∃ e, Expression.parse text = .ok e := by
  simp only [of, sortedOn_eq_nil_iff, List.filter_eq_nil_iff, List.forall_mem_map,
    Bool.not_eq_true', Bool.not_eq_false, List.isEmpty_iff, brokenIn_eq_nil_iff,
    Catalog.parsed_validate]

theorem withoutInformation_eq_nil_iff :
    (of catalog.validate files inventory readErrors).withoutInformation = [] ↔
      ∀ file ∈ files,
        ¬ (inventory.directory ≠ "" ∧ ∃ rest, file.path = inventory.directory ++ "/" ++ rest) →
        file.fields.copyrights ≠ [] ∨ file.fields.licenses ≠ [] := by
  rw [of, pathsWhere_eq_nil_iff]
  refine forall_congr' fun file => forall_congr' fun _ => ?_
  rw [← Inventory.holds_iff, Bool.not_eq_true]
  simp [Fields.has, Fields.lines, imp_iff_not_or]

/-- No record is bad, deprecated or without an extension when all are
recognized, current and have one. -/
theorem records_unproblematic_iff
    (hrecords : ∀ r ∈ inventory.records, r.IsDescribed catalog inventory.directory) :
    ((of catalog.validate files inventory readErrors).badLicenses = [] ∧
      (of catalog.validate files inventory readErrors).deprecatedLicenses = [] ∧
      (of catalog.validate files inventory readErrors).licensesWithoutExtension = []) ↔
    ∀ r ∈ inventory.records,
      (catalog.isKnown r.id = true ∨ isReference r.id = true) ∧
        catalog.isDeprecated r.id = false ∧ r.hasExtension = true := by
  simp only [of, idsWhere_eq_nil_iff, ← forall_and]
  refine forall_congr' fun r => forall_congr' fun hr => ?_
  rw [(hrecords r hr).isKnown_eq, (hrecords r hr).isDeprecated_eq]
  cases catalog.isKnown r.id <;> cases isReference r.id <;> simp

theorem isCompliant_iff {c : Classification} :
    c.isCompliant = true ↔
      (c.badLicenses = [] ∧ c.deprecatedLicenses = [] ∧ c.licensesWithoutExtension = []) ∧
      c.missingLicenses = [] ∧ c.unusedLicenses = [] ∧ c.unparsable = [] ∧
      c.withoutInformation = [] ∧ c.readErrors = [] := by
  simp only [isCompliant, Bool.and_eq_true, List.isEmpty_iff, and_assoc]

/-- The classification that a catalog makes finds no problem exactly when
the project complies. -/
theorem isCompliant_of_iff
    (hrecords : ∀ r ∈ inventory.records, r.IsDescribed catalog inventory.directory) :
    (of catalog.validate files inventory readErrors).isCompliant = true ↔
      Complies catalog files inventory readErrors := by
  have herrors : (of catalog.validate files inventory readErrors).readErrors = [] ↔
      readErrors = [] := sortedOn_eq_nil_iff
  rw [isCompliant_iff, records_unproblematic_iff hrecords, missingLicenses_eq_nil_iff,
    unusedLicenses_eq_nil_iff, unparsable_eq_nil_iff, withoutInformation_eq_nil_iff, herrors]
  constructor
  · rintro ⟨hrecognized, hmissing, hunused, hexpressions, hinformed, hreadable⟩
    refine ⟨hreadable, hexpressions, fun id => ⟨hmissing id, ?_⟩, hrecognized, hinformed⟩
    rintro ⟨r, hr, rfl⟩
    exact hunused r hr
  · intro h
    exact ⟨h.recognized, fun id hid => (h.stored id).1 hid,
      fun r hr => (h.stored r.id).2 ⟨r, hr, rfl⟩, h.expressions, h.informed, h.readable⟩

end Classification

/-- A sound validator classifies as its catalog does. -/
theorem Validator.Sound.classify {v : Validator} (hv : v.Sound) (files : List FileInfo)
    (inventory : Inventory) (readErrors : List ReadError) :
    v.classify files inventory readErrors = .of v.catalog.validate files inventory readErrors := by
  obtain ⟨hsound, hcatalog⟩ := hv.validateAll (files.flatMap (·.fields.licenses))
  simp only [Validator.classify, hsound.answer, hcatalog]

/-- Whatever a validator has validated before, it classifies as its catalog
does. -/
theorem Validator.classify_validateAll (catalog : Catalog) (texts : List String)
    (files : List FileInfo) (inventory : Inventory) (readErrors : List ReadError) :
    ((new catalog).validateAll texts).classify files inventory readErrors =
      .of catalog.validate files inventory readErrors := by
  obtain ⟨hsound, hcatalog⟩ := (sound_new catalog).validateAll texts
  rw [hsound.classify, hcatalog]
  rfl

/-- **Compliance is decided as it is meant**: for the inventory read from a
license directory and a validator with any history, no problem is found
exactly when the project complies. -/
theorem isCompliant_classify_iff {catalog : Catalog} {tree : Tree} {root licenseDirectory : String}
    {inventory : Inventory}
    (hscan : Inventory.scan tree root licenseDirectory catalog = .ok inventory)
    (texts : List String) (files : List FileInfo) (readErrors : List ReadError) :
    (((Validator.new catalog).validateAll texts).classify files inventory readErrors).isCompliant =
        true ↔
      Complies catalog files inventory readErrors := by
  rw [Validator.classify_validateAll]
  exact Classification.isCompliant_of_iff (Inventory.isDescribed_of_scan hscan)

/-- A project at `/p` with one license text. -/
def storedText : Tree :=
  .folder [("p", .folder [("LICENSES", .folder [("MIT.txt", .file [])])])]

/-- What is read from the license directory of that project. -/
def storedInventory : Inventory :=
  ⟨"LICENSES", [⟨"MIT", "LICENSES/MIT.txt", true, false, true⟩]⟩

theorem scan_storedText :
    Inventory.scan storedText "/p" "LICENSES" ⟨["MIT"], [], []⟩ = .ok storedInventory := by
  have hplace : Path.resolve "/p" "LICENSES" = "/p/LICENSES" := by decide +kernel
  have hdirectory : Path.relative "/p" "/p/LICENSES" = "LICENSES" := by decide +kernel
  have hpath : Path.join "/p/LICENSES" "MIT.txt" = "/p/LICENSES/MIT.txt" := by decide +kernel
  have hnames : Inventory.namesIn storedText "/p/LICENSES" = .ok ["MIT.txt"] :=
    Inventory.namesIn_of_find (Tree.find_folder
      (show Tree.GoesBy "/p/LICENSES" ["p", "LICENSES"] by decide) rfl) rfl
  have hfile : Inventory.isStoredFile storedText "/p/LICENSES/MIT.txt" = .ok true :=
    Inventory.isStoredFile_of_find (Tree.find_file (show Tree.GoesBy "/p/LICENSES/MIT.txt"
      (["p", "LICENSES"] ++ ["MIT.txt"]) by decide) rfl)
  have hcandidates : (sortedOn id ["MIT.txt"]).filter Inventory.isCandidate = ["MIT.txt"] := by
    decide +kernel
  have hrecord : Catalog.describe ⟨["MIT"], [], []⟩ "MIT.txt" ("LICENSES" ++ "/" ++ "MIT.txt") =
      ⟨"MIT", "LICENSES/MIT.txt", true, false, true⟩ := by decide +kernel
  simp only [Inventory.scan, Inventory.ofNames, Inventory.enlistFile, hplace, hdirectory, hnames,
    hcandidates, hpath, hfile, hrecord, List.foldlM_cons, List.foldlM_nil, bind, Except.bind]
  cbv

/-- The project complies with a file that has a copyright and that
license. -/
theorem complies_storedText :
    Inventory.scan storedText "/p" "LICENSES" ⟨["MIT"], [], []⟩ = .ok storedInventory ∧
    Complies ⟨["MIT"], [], []⟩ [⟨"a.c", ⟨["2020 Jane"], ["MIT"], []⟩, [], []⟩] storedInventory [] :=
  ⟨scan_storedText,
    (isCompliant_classify_iff scan_storedText ["MIT OR 0BSD"] _ []).1 (by decide +kernel)⟩

end LicenseAudit
