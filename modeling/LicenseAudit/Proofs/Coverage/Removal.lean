import LicenseAudit.Proofs.Coverage.Manifests
import LicenseAudit.Proofs.Path.Steps
import LicenseAudit.Proofs.Tree.Erase

/-!
# A project without one of its files

The root path of a project leads to a folder, its **base**, and below that
the project has its files.  When one of them is erased from the tree, or a
link, the base and all other files stay (`hasFile_erase_iff`), and the path
of no other file looks at the erased one (`not_looksAt_join`).

So the walk meets what it met, without the erased file.  Of a file that is
not covered the covered files tell nothing (`covered_erase`), and of the
manifests it is left out (`manifests_erase`).
-/

namespace LicenseAudit

open Text

variable {t u : Tree} {root path other : String} {base : List String} {bytes : List UInt8}

namespace Tree

/-- The project at a root path **has an entry** at a path when the names of the
path lead to a file or a link from the root, and through no link. -/
def HasEntry (t : Tree) (root path : String) : Prop :=
  ∃ folder u, t.find root = .ok folder ∧ folder.at? (split '/' path) = some u ∧ u.IsSingle

/-- A file is an entry. -/
theorem HasFile.hasEntry (h : t.HasFile root path bytes) : t.HasEntry root path := by
  obtain ⟨folder, hroot, hat⟩ := h
  exact ⟨folder, .file bytes, hroot, hat, trivial⟩

/-- A folder at a place is the **base** of a root path that leads there. -/
structure IsBase (t : Tree) (root : String) (base : List String) : Prop where
  leads : t.follow linkLimit [] (split '/' root) = .ok base
  folder : ∃ entries, t.at? base = some (.folder entries)

/-- The base of a project is where its entries are. -/
theorem HasEntry.exists_base (h : t.HasEntry root path) :
    ∃ base u, t.IsBase root base ∧ t.at? (base ++ split '/' path) = some u ∧ u.IsSingle := by
  obtain ⟨folder, u, hroot, hat, hsingle⟩ := h
  obtain ⟨base, hleads, hfolder⟩ := exists_of_bind_eq_ok hroot
  cases hbase : t.at? base with
  | none =>
      rw [hbase] at hfolder
      cases hfolder
  | some v =>
      rw [hbase] at hfolder
      obtain rfl : v = folder := Except.ok.inj hfolder
      have hplace : t.at? (base ++ split '/' path) = some u := by
        rw [at?_append, hbase, Option.bind_some, hat]
      exact ⟨base, u, ⟨hleads, exists_folder_of_at? (Path.split_ne_nil path) hplace⟩, hplace,
        hsingle⟩

namespace IsBase

variable (h : t.IsBase root base)
include h

/-- The root path leads to its base. -/
theorem find_eq : ∃ entries, t.at? base = some (.folder entries) ∧
    t.find root = .ok (.folder entries) := by
  obtain ⟨entries, hfolder⟩ := h.folder
  refine ⟨entries, hfolder, ?_⟩
  simp only [find, h.leads, bind, Except.bind, hfolder]
  rfl

/-- The files of a project are those below its base. -/
theorem hasFile_iff :
    t.HasFile root path bytes ↔ t.at? (base ++ split '/' path) = some (.file bytes) := by
  obtain ⟨entries, hfolder, hfind⟩ := h.find_eq
  rw [at?_append, hfolder, Option.bind_some]
  constructor
  · intro hfile
    obtain ⟨folder, hroot, hat⟩ := hfile
    obtain rfl := Except.ok.inj (hfind.symm.trans hroot)
    exact hat
  · intro hat
    exact ⟨_, hfind, hat⟩

/-- The root path does not look at a file. -/
theorem not_looksAt {file : List String} (hfile : t.at? file = some (.file bytes)) :
    ¬ t.LooksAt root file := by
  intro hlooks
  obtain ⟨entries, hfolder⟩ := h.folder
  rw [(way_of_follow h.leads).eq_of_mem hlooks hfile, hfolder] at hfile
  cases hfile

/-- Below the base of a resolved root path its files are found by their
names. -/
theorem exists_follow_join (hroot : Path.IsResolved root) :
    ∃ left, ∀ q, Path.IsPlace q →
      t.follow linkLimit [] (split '/' (Path.join root q)) = t.follow left base (split '/' q) ∧
      ∀ place, t.LooksAt (Path.join root q) place ↔
        t.LooksAt root place ∨ place ∈ t.trail left base (split '/' q) := by
  obtain ⟨rootNames, hrootNames, rfl⟩ := hroot
  obtain ⟨entries, hfolder⟩ := h.folder
  have hsteps := h.leads
  rw [(follow_ofSteps hrootNames).1] at hsteps
  obtain ⟨left, hleft⟩ := (way_of_follow hsteps).follow_append hfolder
  refine ⟨left, fun q hq => ?_⟩
  obtain ⟨names, hne, hnames, rfl⟩ := hq
  have hall : ∀ n ∈ rootNames ++ names, Path.IsName n := List.forall_mem_append.2
    ⟨hrootNames, hnames⟩
  have hslash : ∀ n ∈ names, '/' ∉ n.toList := fun n hn => (hnames n hn).no_slash
  rw [Path.join_place hrootNames hne hnames, Path.split_joined hne hslash, (follow_ofSteps hall).1]
  refine ⟨(hleft names).1, fun place => ?_⟩
  rw [LooksAt, LooksAt, (follow_ofSteps hall).2, (follow_ofSteps hrootNames).2, (hleft names).2,
    List.mem_append]

end IsBase

theorem HasFile.exists_base (h : t.HasFile root path bytes) :
    ∃ base, t.IsBase root base ∧ t.at? (base ++ split '/' path) = some (.file bytes) := by
  obtain ⟨base, u, hbase, -, -⟩ := h.hasEntry.exists_base
  exact ⟨base, hbase, hbase.hasFile_iff.1 h⟩

section Removal

variable (h : t.IsBase root base) (hat : t.at? (base ++ split '/' path) = some u)
variable (hsingle : u.IsSingle) (hunseen : ¬ t.LooksAt root (base ++ split '/' path))
include h hat hsingle hunseen

/-- The path of one file does not look at another entry. -/
theorem not_looksAt_join (hroot : Path.IsResolved root) (ht : t.IsProper)
    (hother : t.HasFile root other bytes) (hne : other ≠ path) :
    ¬ t.LooksAt (Path.join root other) (base ++ split '/' path) := by
  have hplace := hother.isPlace ht
  obtain ⟨left, hleft⟩ := h.exists_follow_join hroot
  rw [(hleft other hplace).2, not_or]
  refine ⟨hunseen, fun hlooks => hne ?_⟩
  have hsame := eq_of_mem_trail (Path.isPlace_iff.1 hplace) (h.hasFile_iff.1 hother) hlooks hat
    hsingle
  have hsplit : split '/' path = split '/' other := List.append_cancel_left hsame
  rw [← Path.joined_split other, ← hsplit, Path.joined_split]

/-- The base stays when an entry below it is erased. -/
theorem IsBase.erase : (t.erase (base ++ split '/' path)).IsBase root base := by
  have hne : base ++ split '/' path ≠ [] := by simp [Path.split_ne_nil]
  have hbase : base ≠ base ++ split '/' path := by simp [Path.split_ne_nil]
  obtain ⟨entries, hfolder⟩ := h.folder
  refine ⟨(follow_erase hne hat hsingle hunseen).trans h.leads, ?_⟩
  have hsurface := (at?_erase hne hat hsingle hbase).1
  rw [hfolder] at hsurface
  exact exists_folder_of_surface hsurface

/-- Without one entry the project has the other files. -/
theorem hasFile_erase_iff :
    (t.erase (base ++ split '/' path)).HasFile root other bytes ↔
      other ≠ path ∧ t.HasFile root other bytes := by
  have hne : base ++ split '/' path ≠ [] := by simp [Path.split_ne_nil]
  rw [(h.erase hat hsingle hunseen).hasFile_iff, h.hasFile_iff]
  by_cases hother : other = path
  · rw [hother, at?_erase_self hne hat]
    simp
  · have hplace : base ++ split '/' other ≠ base ++ split '/' path := by
      intro he
      have hsplit : split '/' other = split '/' path := List.append_cancel_left he
      exact hother (by rw [← Path.joined_split other, hsplit, Path.joined_split])
    have hsurface := (at?_erase hne hat hsingle hplace).1
    constructor
    · intro hfound
      rw [hfound] at hsurface
      exact ⟨hother, eq_file_of_surface hsurface.symm⟩
    · intro hfound
      rw [hfound.2] at hsurface
      exact eq_file_of_surface hsurface

/-- An erased entry is not found. -/
theorem holds_erase_self (hroot : Path.IsResolved root) (hplace : Path.IsPlace path) :
    (t.erase (base ++ split '/' path)).holds (Path.join root path) = false := by
  obtain ⟨left, hleft⟩ := (h.erase hat hsingle hunseen).exists_follow_join hroot
  have hlost (there : List String) :
      (t.erase (base ++ split '/' path)).follow left base (split '/' path) ≠ .ok there :=
    follow_erase_self (Path.split_ne_nil path) (Path.isPlace_iff.1 hplace) hat hsingle there
  rw [← (hleft path hplace).1] at hlost
  rw [holds, find]
  cases hfollow : (t.erase (base ++ split '/' path)).follow linkLimit []
      (split '/' (Path.join root path)) with
  | ok there => exact absurd hfollow (hlost there)
  | error o => rfl

end Removal

end Tree

namespace ProjectFiles

variable {f : PathFilter}
variable (ht : t.IsProper) (h : t.IsBase root base)
variable (hat : t.at? (base ++ split '/' path) = some u) (hsingle : u.IsSingle)
variable (hunseen : ¬ t.LooksAt root (base ++ split '/' path))
include ht h hat hsingle hunseen

/-- An entry that is excluded can go without the covered files changing. -/
theorem covered_erase (hexcluded : f.isExcluded path = true) :
    (of (t.erase (base ++ split '/' path)) root f).covered = (of t root f).covered := by
  obtain ⟨_, -, hroot⟩ := h.find_eq
  obtain ⟨_, -, hroot'⟩ := (h.erase hat hsingle hunseen).find_eq
  refine ((isListing_covered (ht.erase _) hroot' f).congr fun other => ?_).unique
    (fun _ _ hab => hab.asymm) (isListing_covered ht hroot f)
  simp only [Tree.hasFile_erase_iff h hat hsingle hunseen]
  constructor
  · intro hleft
    obtain ⟨b, ⟨-, hother⟩, hrest⟩ := hleft
    exact ⟨b, hother, hrest⟩
  · intro hfile
    obtain ⟨b, hother, hb, hpassed, hkept⟩ := hfile
    refine ⟨b, ⟨fun he => ?_, hother⟩, hb, hpassed, hkept⟩
    rw [he, hexcluded] at hkept
    cases hkept

/-- Without an entry the manifests are the others. -/
theorem manifests_erase :
    (of (t.erase (base ++ split '/' path)) root f).manifests =
      (of t root f).manifests.filter (· ≠ path) := by
  obtain ⟨_, -, hroot⟩ := h.find_eq
  obtain ⟨_, -, hroot'⟩ := (h.erase hat hsingle hunseen).find_eq
  refine ((isListing_manifests (ht.erase _) hroot').congr fun other => ?_).unique
    (fun _ _ hab => hab.asymm) ((isListing_manifests ht hroot).filter _)
  simp only [Tree.hasFile_erase_iff h hat hsingle hunseen, decide_eq_true_eq]
  constructor
  · intro hleft
    obtain ⟨⟨b, hne, hother⟩, hrest⟩ := hleft
    exact ⟨⟨⟨b, hother⟩, hrest⟩, hne⟩
  · intro hfile
    obtain ⟨⟨⟨b, hother⟩, hrest⟩, hne⟩ := hfile
    exact ⟨⟨b, hne, hother⟩, hrest⟩

end ProjectFiles

end LicenseAudit
