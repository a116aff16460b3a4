import LicenseAudit.Inventory.Directory
import LicenseAudit.Proofs.Except
import LicenseAudit.Proofs.Path
import LicenseAudit.Proofs.Text.Order
import LicenseAudit.Proofs.Tree

/-!
# The records of an inventory

Every record of an inventory is the description of a file: what it says
about its identifier is what the catalog says.  A name at a time adds a
description to the records or leaves them as they are (`enlistFile_eq_ok`), so
the records of a whole directory are the descriptions of the license texts in
it, and no text is left out (`mem_records_iff`).
-/

namespace LicenseAudit

open Text

theorem Catalog.path_describe (catalog : Catalog) (name path : String) :
    (catalog.describe name path).path = path := by
  rw [describe]

/-- A file that is named for a known identifier stands for it. -/
theorem Catalog.id_describe_append_txt {catalog : Catalog} {id : String}
    (hknown : catalog.isKnown id = true) (hne : id ≠ "") (hslash : '/' ∉ id.toList)
    (path : String) : (catalog.describe (id ++ ".txt") path).id = id := by
  simp [describe, identify, Path.cutExtension_append_txt hne hslash, recognizes, hknown]

/-- A record **describes** a file in a directory when it is what the
catalog says about the name of the file. -/
def LicenseRecord.IsDescribed (catalog : Catalog) (directory : String) (r : LicenseRecord) : Prop :=
  ∃ name, r = catalog.describe name (directory ++ "/" ++ name)

namespace LicenseRecord.IsDescribed

variable {catalog : Catalog} {directory : String} {r : LicenseRecord}

theorem isKnown_eq (h : r.IsDescribed catalog directory) : r.isKnown = catalog.isKnown r.id := by
  obtain ⟨name, hr⟩ := h
  rw [hr, Catalog.describe]

theorem isDeprecated_eq (h : r.IsDescribed catalog directory) :
    r.isDeprecated = catalog.isDeprecated r.id := by
  obtain ⟨name, hr⟩ := h
  rw [hr, Catalog.describe]

end LicenseRecord.IsDescribed

namespace Inventory

variable {catalog : Catalog} {directory : String} {isFile : String → Except Failure Bool}
variable {records records' : List LicenseRecord}

/-- A record is taken when no other record has its identifier. -/
theorem enlist_eq_ok {r : LicenseRecord} (h : enlist records r = .ok records') :
    (∀ other ∈ records, other.id ≠ r.id) ∧ records' = records ++ [r] := by
  rw [enlist] at h
  split at h
  · cases h
  · next hnone =>
      refine ⟨fun other hother => ?_, (Except.ok.inj h).symm⟩
      simpa using List.find?_eq_none.1 hnone other hother

/-- One more name leaves the records as they are, or is that of a file
whose description comes after them. -/
theorem enlistFile_eq_ok {name : String}
    (h : enlistFile catalog directory isFile records name = .ok records') :
    isFile name = .ok false ∧ records' = records ∨
    isFile name = .ok true ∧
      (∀ other ∈ records, other.id ≠ (catalog.describe name (directory ++ "/" ++ name)).id) ∧
      records' = records ++ [catalog.describe name (directory ++ "/" ++ name)] := by
  cases hfile : isFile name with
  | error e =>
      rw [enlistFile, hfile] at h
      cases h
  | ok answer =>
      rw [enlistFile, hfile] at h
      cases answer with
      | false => exact .inl ⟨rfl, (Except.ok.inj h).symm⟩
      | true => exact .inr ⟨rfl, enlist_eq_ok h⟩

/-- A name in a directory is that of a license **text** when it leads to a
file and is not that of a sidecar. -/
structure IsText (tree : Tree) (place name : String) : Prop where
  listed : ∃ names, tree.list place = .ok names ∧ name ∈ names
  isFile : tree.isFile (Path.join place name) = .ok true
  isCandidate : isCandidate name = true

theorem isCandidate_append_txt (stem : String) : isCandidate (stem ++ ".txt") = true := by
  simp [isCandidate, endsWith, dropEnd?, dropStart?]

theorem isStoredFile_eq_ok_true_iff {tree : Tree} {path : String} :
    isStoredFile tree path = .ok true ↔ tree.isFile path = .ok true := by
  rw [isStoredFile]
  cases tree.isFile path with
  | ok answer => simp
  | error e =>
      dsimp only
      split <;> simp

theorem isStoredFile_of_find {tree : Tree} {path : String} {bytes : List UInt8}
    (h : tree.find path = .ok (.file bytes)) : isStoredFile tree path = .ok true := by
  simp only [isStoredFile, Tree.isFile_eq, h]

theorem namesIn_of_find {tree : Tree} {place : String} {entries : List (String × Tree)}
    {names : List String} (h : tree.find place = .ok (.folder entries))
    (hnames : entries.map Prod.fst = names) : namesIn tree place = .ok names := by
  simp only [namesIn, Tree.list_eq, h, hnames]

/-- A directory with names in it can be listed. -/
theorem list_eq_of_namesIn {tree : Tree} {place : String} {names : List String}
    (h : namesIn tree place = .ok names) : tree.list place = .ok names ∨ names = [] := by
  rw [namesIn] at h
  split at h
  · next listed hlist =>
      obtain rfl := Except.ok.inj h
      exact .inl hlist
  · split at h
    · exact .inr (Except.ok.inj h).symm
    · cases h

/-- Several names add the descriptions of the files among them. -/
theorem mem_foldlM_enlistFile {names : List String} {r : LicenseRecord}
    (h : names.foldlM (enlistFile catalog directory isFile) records = .ok records') :
    r ∈ records' ↔ r ∈ records ∨
      ∃ name ∈ names, isFile name = .ok true ∧
        r = catalog.describe name (directory ++ "/" ++ name) := by
  induction names generalizing records with
  | nil =>
      obtain rfl := Except.ok.inj h
      simp
  | cons name names ih =>
      obtain ⟨between, hstep, hrest⟩ := exists_of_bind_eq_ok h
      rw [ih hrest, List.exists_mem_cons_iff, ← or_assoc]
      refine or_congr_left ?_
      rcases enlistFile_eq_ok hstep with ⟨hfile, rfl⟩ | ⟨hfile, -, rfl⟩
      · simp [hfile]
      · simp [hfile]

/-- The records of an inventory are the descriptions of the license texts in
its directory. -/
theorem mem_records_iff {tree : Tree} {root licenseDirectory : String} {inventory : Inventory}
    (h : scan tree root licenseDirectory catalog = .ok inventory) {r : LicenseRecord} :
    r ∈ inventory.records ↔
      ∃ name, IsText tree (Path.resolve root licenseDirectory) name ∧
        r = catalog.describe name (inventory.directory ++ "/" ++ name) := by
  obtain ⟨names, hnames, h⟩ := exists_of_bind_eq_ok h
  obtain ⟨records, hrecords, h⟩ := exists_of_bind_eq_ok h
  obtain rfl := Except.ok.inj h
  rw [mem_sortedOn, mem_foldlM_enlistFile hrecords]
  simp only [List.not_mem_nil, false_or, List.mem_filter, mem_sortedOn,
    isStoredFile_eq_ok_true_iff]
  constructor
  · rintro ⟨name, ⟨hname, hcandidate⟩, hfile, hr⟩
    have hlist := (list_eq_of_namesIn hnames).resolve_right (List.ne_nil_of_mem hname)
    exact ⟨name, ⟨⟨names, hlist, hname⟩, hfile, hcandidate⟩, hr⟩
  · rintro ⟨name, ⟨⟨listed, hlist, hname⟩, hfile, hcandidate⟩, hr⟩
    rw [namesIn, hlist] at hnames
    obtain rfl := Except.ok.inj hnames
    exact ⟨name, ⟨hname, hcandidate⟩, hfile, hr⟩

/-- The records that are read from a directory are descriptions. -/
theorem isDescribed_of_scan {tree : Tree} {root licenseDirectory : String} {inventory : Inventory}
    (h : scan tree root licenseDirectory catalog = .ok inventory) :
    ∀ r ∈ inventory.records, r.IsDescribed catalog inventory.directory := by
  intro r hr
  obtain ⟨name, -, hdescribed⟩ := (mem_records_iff h).1 hr
  exact ⟨name, hdescribed⟩

/-- What several names add depends on which of them are those of files. -/
theorem foldlM_enlistFile_congr {isFile' : String → Except Failure Bool} {names : List String}
    (h : ∀ name ∈ names, isFile name = isFile' name) :
    names.foldlM (enlistFile catalog directory isFile) records =
      names.foldlM (enlistFile catalog directory isFile') records := by
  induction names generalizing records with
  | nil => rfl
  | cons name names ih =>
      obtain ⟨hname, hrest⟩ := List.forall_mem_cons.1 h
      have hstep : enlistFile catalog directory isFile records name =
          enlistFile catalog directory isFile' records name := by
        rw [enlistFile, enlistFile, hname]
      rw [List.foldlM_cons, List.foldlM_cons, hstep]
      exact bind_congr fun _ => ih hrest

/-- An inventory depends on the names in its directory and on which of them
lead to files. -/
theorem scan_congr {t₁ t₂ : Tree} {root licenseDirectory : String}
    (hlist : t₁.list (Path.resolve root licenseDirectory) =
      t₂.list (Path.resolve root licenseDirectory))
    (hfile : ∀ names, t₂.list (Path.resolve root licenseDirectory) = .ok names → ∀ name ∈ names,
      t₁.isFile (Path.join (Path.resolve root licenseDirectory) name) =
        t₂.isFile (Path.join (Path.resolve root licenseDirectory) name)) :
    scan t₁ root licenseDirectory catalog = scan t₂ root licenseDirectory catalog := by
  have hnames : namesIn t₁ (Path.resolve root licenseDirectory) =
      namesIn t₂ (Path.resolve root licenseDirectory) := by
    rw [namesIn, namesIn, hlist]
  rw [scan, scan, hnames]
  cases hlisted : namesIn t₂ (Path.resolve root licenseDirectory) with
  | error e => rfl
  | ok names =>
      have hstored : ∀ name ∈ (sortedOn id names).filter isCandidate,
          isStoredFile t₁ (Path.join (Path.resolve root licenseDirectory) name) =
            isStoredFile t₂ (Path.join (Path.resolve root licenseDirectory) name) := by
        intro name hname
        have hmem : name ∈ names := mem_sortedOn.1 (List.mem_of_mem_filter hname)
        have hlist := (list_eq_of_namesIn hlisted).resolve_right (List.ne_nil_of_mem hmem)
        rw [isStoredFile, isStoredFile, hfile names hlist name hmem]
      simp only [bind, Except.bind, ofNames, foldlM_enlistFile_congr hstored]

theorem has_iff {inventory : Inventory} {id : String} :
    inventory.has id = true ↔ ∃ r ∈ inventory.records, r.id = id := by
  simp [has, find?]

/-- A path lies in the license directory when it continues the path of
that directory, which is not the root. -/
theorem holds_iff {inventory : Inventory} {path : String} :
    inventory.holds path = true ↔
      inventory.directory ≠ "" ∧ ∃ rest, path = inventory.directory ++ "/" ++ rest := by
  rw [holds, Bool.and_eq_true, bne_iff_ne, Path.isSome_below?_iff]

/-- A path is **outside** the license directory when it does not lie in it. -/
def IsOutside (inventory : Inventory) (path : String) : Prop :=
  ¬ (inventory.directory ≠ "" ∧ ∃ rest, path = inventory.directory ++ "/" ++ rest)

theorem isOutside_iff {inventory : Inventory} {path : String} :
    inventory.IsOutside path ↔ inventory.holds path = false := by
  rw [IsOutside, ← holds_iff, Bool.not_eq_true]

end Inventory

end LicenseAudit
