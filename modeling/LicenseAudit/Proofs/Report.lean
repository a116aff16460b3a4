import LicenseAudit.Proofs.Compliance
import LicenseAudit.Report

/-!
# The verdicts of a report

A report tells its verdict three times: by its flag, by its lines, which are
none when there is no problem, and by the lists of its JSON, which are empty
then.  The three agree as long as no problem is listed that nobody has:
`Classification.IsAbout` says so of a classification, together with which
files and licenses it speaks of, and `isAbout_of` that every classification
of files is like that.

Each line is about a file that was classified, a file that could not be read,
or a stored license text (`path_of_mem_problemLines`).
-/

namespace LicenseAudit

open Text

/-- A classification is **about** some files, stored licenses and read errors
when it speaks of no others, and lists no missing license without a file that
refers to it and no file without a value that is no expression. -/
structure Classification.IsAbout (c : Classification) (files : List FileInfo)
    (inventory : Inventory) (readErrors : List ReadError) : Prop where
  licenses : ∀ id ∈ c.badLicenses ++ c.deprecatedLicenses ++ c.licensesWithoutExtension ++
    c.unusedLicenses, ∃ r ∈ inventory.records, r.id = id
  missing : ∀ m ∈ c.missingLicenses, m.files ≠ [] ∧ ∀ path ∈ m.files, ∃ f ∈ files, f.path = path
  unparsable : ∀ u ∈ c.unparsable, u.expressions ≠ [] ∧ ∃ f ∈ files, f.path = u.path
  withoutInformation : ∀ path ∈ c.withoutInformation, ∃ f ∈ files, f.path = path
  readErrors : ∀ e ∈ c.readErrors, e ∈ readErrors

namespace Classification

variable {validate : String → Validation} {files : List FileInfo} {inventory : Inventory}
variable {readErrors : List ReadError} {c : Classification}

theorem exists_record_of_mem_idsWhere {test : LicenseRecord → Bool} {id : String}
    (h : id ∈ idsWhere inventory test) : ∃ r ∈ inventory.records, r.id = id := by
  obtain ⟨r, hr, hid⟩ := List.mem_map.1 (mem_sortedUnique.1 h)
  exact ⟨r, List.mem_of_mem_filter hr, hid⟩

theorem exists_file_of_mem_pathsWhere {test : Fields → Bool} {path : String}
    (h : path ∈ pathsWhere inventory files test) : ∃ f ∈ files, f.path = path := by
  obtain ⟨f, hf, hpath⟩ := List.mem_map.1 (mem_sortedUnique.1 h)
  exact ⟨f, List.mem_of_mem_filter hf, hpath⟩

/-- The classification of files is about them. -/
theorem isAbout_of : (of validate files inventory readErrors).IsAbout files inventory readErrors where
  licenses id hid := by
    simp only [of, List.mem_append] at hid
    rcases hid with ((h | h) | h) | h <;> exact exists_record_of_mem_idsWhere h
  missing m hm := by
    rw [missingLicenses_of] at hm
    obtain ⟨id, hid, rfl⟩ := List.mem_map.1 hm
    exact ⟨usersOf_ne_nil (List.mem_of_mem_filter hid), fun _ => exists_file_of_mem_usersOf⟩
  unparsable u hu := by
    have hbroken := mem_sortedOn.1 hu
    obtain ⟨hfile, hexpressions⟩ := List.mem_filter.1 hbroken
    obtain ⟨f, hf, rfl⟩ := List.mem_map.1 hfile
    exact ⟨by simpa using hexpressions, f, hf, rfl⟩
  withoutInformation path hpath := by
    simp only [of] at hpath
    exact exists_file_of_mem_pathsWhere hpath
  readErrors e he := mem_sortedOn.1 he

/-- It still is when nothing is said about the license directory. -/
theorem IsAbout.withoutInventory (h : c.IsAbout files inventory readErrors) :
    c.withoutInventory.IsAbout files inventory readErrors where
  licenses _ hid := absurd hid List.not_mem_nil
  missing := h.missing
  unparsable := h.unparsable
  withoutInformation := h.withoutInformation
  readErrors := h.readErrors

end Classification

/-- Whether a value holds no others. -/
def Json.isEmpty : Json → Bool
  | .list items => items.isEmpty
  | .object fields => fields.isEmpty
  | _ => false

theorem Json.isEmpty_list (items : List Json) : (list items).isEmpty = true ↔ items = [] :=
  List.isEmpty_iff

theorem Json.isEmpty_texts (xs : List String) : (texts xs).isEmpty = true ↔ xs = [] := by
  rw [texts, isEmpty_list, List.map_eq_nil_iff]

theorem Json.setField_ne_nil {α : Type} (fields : List (String × α)) (name : String) (value : α) :
    setField fields name value ≠ [] := by
  cases fields with
  | nil => exact List.cons_ne_nil _ _
  | cons f fields =>
      obtain ⟨n, v⟩ := f
      rw [setField]
      split <;> exact List.cons_ne_nil _ _

namespace Report

variable {r : Report} {files : List FileInfo} {inventory : Inventory} {errors : List ReadError}

theorem foldl_setField_ne_nil {fields : List (String × Json)} (h : fields ≠ [])
    (pairs : List (String × Json)) :
    pairs.foldl (fun fields (name, value) => Json.setField fields name value) fields ≠ [] := by
  induction pairs generalizing fields with
  | nil => exact h
  | cons pair pairs ih => exact ih (Json.setField_ne_nil fields pair.1 pair.2)

/-- An object of pairs is empty when there are no pairs. -/
theorem isEmpty_objectOf (pairs : List (String × Json)) :
    (objectOf pairs).isEmpty = true ↔ pairs = [] := by
  cases pairs with
  | nil => exact ⟨fun _ => rfl, fun _ => rfl⟩
  | cons pair pairs =>
      have hne := foldl_setField_ne_nil (Json.setField_ne_nil [] pair.1 pair.2) pairs
      simpa [objectOf, Json.isEmpty] using hne

/-- A report is **unanimous** when its flag, its lines and the lists of its
JSON tell the same verdict. -/
structure IsUnanimous (r : Report) : Prop where
  lines : r.isCompliant = true ↔ r.problemLines = []
  json : ∃ lists, r.json.field? "non_compliant" = some (.object lists) ∧
    (r.isCompliant = true ↔ ∀ list ∈ lists, list.2.isEmpty = true)

/-- There is no line exactly when no problem was found. -/
theorem problemLines_eq_nil_iff (h : r.findings.IsAbout files inventory errors) :
    r.problemLines = [] ↔ r.findings.isCompliant = true := by
  have hmissing : (∀ m ∈ r.findings.missingLicenses, m.files = []) ↔
      r.findings.missingLicenses = [] := by
    rw [List.eq_nil_iff_forall_not_mem]
    exact forall_congr' fun m => imp_congr_right fun hm => iff_of_false (h.missing m hm).1 id
  have hunparsable : (∀ u ∈ r.findings.unparsable, u.expressions = []) ↔
      r.findings.unparsable = [] := by
    rw [List.eq_nil_iff_forall_not_mem]
    exact forall_congr' fun u => imp_congr_right fun hu => iff_of_false (h.unparsable u hu).1 id
  simp only [problemLines, licenseLines, List.append_eq_nil_iff, List.map_eq_nil_iff,
    List.flatMap_eq_nil_iff, hmissing, hunparsable, Classification.isCompliant_iff]
  tauto

/-- The lists of problems are empty exactly when no problem was found. -/
theorem problemsJson_isEmpty_iff :
    ∃ lists, r.problemsJson = .object lists ∧
      ((∀ list ∈ lists, list.2.isEmpty = true) ↔ r.findings.isCompliant = true) := by
  refine ⟨_, rfl, ?_⟩
  simp only [List.forall_mem_cons, List.not_mem_nil, false_imp_iff, implies_true, and_true,
    isEmpty_objectOf, Json.isEmpty_texts, Json.isEmpty_list, List.map_eq_nil_iff,
    Classification.isCompliant_iff]
  tauto

/-- A report with the flag of its findings is unanimous. -/
theorem isUnanimous (h : r.findings.IsAbout files inventory errors)
    (hflag : r.isCompliant = r.findings.isCompliant) : r.IsUnanimous where
  lines := by rw [hflag, problemLines_eq_nil_iff h]
  json := by
    obtain ⟨lists, hlists, hempty⟩ := problemsJson_isEmpty_iff (r := r)
    refine ⟨lists, ?_, by rw [hflag, hempty]⟩
    rw [← hlists]
    rfl

section Paths

variable (h : r.findings.IsAbout files inventory errors)
variable (hlicenses : r.licenses = inventory.records.map fun record => ⟨record.id, record.path⟩)
include hlicenses

/-- The path of a stored license is that of a text. -/
theorem exists_record_of_pathOf {id : String} (hid : ∃ record ∈ inventory.records, record.id = id) :
    ∃ record ∈ inventory.records, record.path = r.pathOf id := by
  obtain ⟨record, hrecord, hrecordId⟩ := hid
  cases hfind : r.licenses.reverse.find? (·.id = id) with
  | none =>
      have hstored : ⟨record.id, record.path⟩ ∈ r.licenses := by
        rw [hlicenses]
        exact List.mem_map_of_mem hrecord
      have hother := List.find?_eq_none.1 hfind _ (List.mem_reverse.2 hstored)
      exact absurd (decide_eq_true hrecordId) hother
  | some stored =>
      have hstored := List.mem_reverse.1 (List.mem_of_find?_eq_some hfind)
      rw [hlicenses] at hstored
      obtain ⟨found, hfound, rfl⟩ := List.mem_map.1 hstored
      exact ⟨found, hfound, by rw [pathOf, hfind]; rfl⟩

include h

/-- A line about a stored license is about its text. -/
theorem exists_record_of_mem_licenseLines {problem : String} {ids : List String}
    {line : ProblemLine}
    (hids : ids ⊆ r.findings.badLicenses ++ r.findings.deprecatedLicenses ++
      r.findings.licensesWithoutExtension ++ r.findings.unusedLicenses)
    (hline : line ∈ r.licenseLines problem ids) :
    ∃ record ∈ inventory.records, record.path = line.path := by
  obtain ⟨id, hid, rfl⟩ := List.mem_map.1 hline
  exact exists_record_of_pathOf hlicenses (h.licenses id (hids hid))

/-- Each line is about a file that was classified, a file that could not be
read, or a stored license text. -/
theorem path_of_mem_problemLines {line : ProblemLine} (hline : line ∈ r.problemLines) :
    (∃ f ∈ files, f.path = line.path) ∨ (∃ e ∈ r.findings.readErrors, e.path = line.path) ∨
      ∃ record ∈ inventory.records, record.path = line.path := by
  have hlicense {problem : String} {ids : List String}
      (hids : ids ⊆ r.findings.badLicenses ++ r.findings.deprecatedLicenses ++
        r.findings.licensesWithoutExtension ++ r.findings.unusedLicenses)
      (hline : line ∈ r.licenseLines problem ids) :=
    exists_record_of_mem_licenseLines h hlicenses hids hline
  simp only [problemLines, List.mem_append] at hline
  rcases hline with ((((((hbad | hdeprecated) | hextension) | hmissing) | hunused) |
    hunparsable) | herror) | hinformation
  · exact .inr (.inr (hlicense (by grind) hbad))
  · exact .inr (.inr (hlicense (by grind) hdeprecated))
  · exact .inr (.inr (hlicense (by grind) hextension))
  · obtain ⟨m, hm, hfile⟩ := List.mem_flatMap.1 hmissing
    obtain ⟨path, hpath, rfl⟩ := List.mem_map.1 hfile
    exact .inl ((h.missing m hm).2 path hpath)
  · exact .inr (.inr (hlicense (by grind) hunused))
  · obtain ⟨u, hu, hexpression⟩ := List.mem_flatMap.1 hunparsable
    obtain ⟨expression, -, rfl⟩ := List.mem_map.1 hexpression
    exact .inl (h.unparsable u hu).2
  · obtain ⟨e, he, rfl⟩ := List.mem_map.1 herror
    exact .inr (.inl ⟨e, he, rfl⟩)
  · obtain ⟨path, hpath, rfl⟩ := List.mem_map.1 hinformation
    exact .inl (h.withoutInformation path hpath)

end Paths

end Report

end LicenseAudit
