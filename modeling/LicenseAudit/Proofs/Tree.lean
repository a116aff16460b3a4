import LicenseAudit.Proofs.Except
import LicenseAudit.Proofs.Path.Steps
import LicenseAudit.Tree
import Mathlib.Data.List.Nodup

/-!
# Trees with proper names

In the trees of a file system the entries of a folder have distinct names,
and every name is one that a file may have.  The files of such a **proper**
tree are then the same thing seen in two ways: the leaves that a walk meets,
and what is found by following names (`IsProper.mem_leaves_iff`).  No two of
them have the same path (`IsProper.nodup_leaves`).

Following a path that goes by the names of folders leads through them, so what
a path without links leads to is known from the tree at its names (`find_folder`,
`find_file`, `find_missing`).

What is known of a file by reading it decides what can be asked about it
besides: whether it is there at all (`holds_eq_of_read_eq`), and whether it
is a file (`isFile_eq_of_read_eq`).
-/

namespace LicenseAudit.Tree

/-- A tree is **proper** when the entries of its folders have distinct
names, and these are names. -/
inductive IsProper : Tree → Prop
  | file (bytes : List UInt8) : IsProper (.file bytes)
  | link (target : String) : IsProper (.link target)
  | folder (entries : List (String × Tree)) :
      (∀ e ∈ entries, Path.IsName e.1) → (entries.map Prod.fst).Nodup →
      (∀ e ∈ entries, IsProper e.2) → IsProper (.folder entries)

variable {t : Tree} {entries : List (String × Tree)} {steps : List String} {bytes : List UInt8}

mutual

/-- Whether a tree is proper. -/
def isProper : Tree → Bool
  | .file _ => true
  | .link _ => true
  | .folder entries => decide (entries.map Prod.fst).Nodup && areProper entries

/-- Whether entries of a folder have names and proper trees. -/
def areProper : List (String × Tree) → Bool
  | [] => true
  | (name, t) :: rest => decide (Path.IsName name) && isProper t && areProper rest

end

mutual

theorem isProper_iff : ∀ t : Tree, t.isProper = true ↔ t.IsProper
  | .file bytes => ⟨fun _ => .file bytes, fun _ => by rw [isProper]⟩
  | .link target => ⟨fun _ => .link target, fun _ => by rw [isProper]⟩
  | .folder entries => by
      rw [isProper, Bool.and_eq_true, decide_eq_true_iff, areProper_iff entries]
      constructor
      · rintro ⟨hnodup, hentries⟩
        exact .folder entries (fun e he => (hentries e he).1) hnodup fun e he => (hentries e he).2
      · rintro (_ | _ | ⟨_, hnames, hnodup, hentries⟩)
        exact ⟨hnodup, fun e he => ⟨hnames e he, hentries e he⟩⟩

theorem areProper_iff : ∀ entries : List (String × Tree),
    areProper entries = true ↔ ∀ e ∈ entries, Path.IsName e.1 ∧ e.2.IsProper
  | [] => by simp [areProper]
  | (name, t) :: rest => by
      rw [areProper, Bool.and_eq_true, Bool.and_eq_true, decide_eq_true_iff, isProper_iff t,
        areProper_iff rest, List.forall_mem_cons]

end

instance (t : Tree) : Decidable t.IsProper :=
  decidable_of_iff _ (isProper_iff t)

theorem mem_of_lookup {name : String} {u : Tree} (h : entries.lookup name = some u) :
    (name, u) ∈ entries := by
  obtain ⟨before, after, rfl, -⟩ := List.lookup_eq_some_iff.1 h
  simp

/-- Under distinct names every entry is found. -/
theorem lookup_of_mem {name : String} {u : Tree} (hnodup : (entries.map Prod.fst).Nodup)
    (h : (name, u) ∈ entries) : entries.lookup name = some u := by
  obtain ⟨before, after, rfl⟩ := List.append_of_mem h
  refine List.lookup_eq_some_iff.2 ⟨before, after, rfl, fun e he => ?_⟩
  rw [List.map_append, List.map_cons, List.nodup_append] at hnodup
  simpa using (hnodup.2.2 e.1 (List.mem_map_of_mem he) name (by simp)).symm

/-- The files below one entry of a folder, by the steps from the folder. -/
def leavesAt (e : String × Tree) : List Leaf :=
  e.2.leaves.map fun leaf => (e.1 :: leaf.1, leaf.2)

theorem leaves_folder (entries : List (String × Tree)) :
    (folder entries).leaves = entries.flatMap leavesAt := by
  rw [leaves]
  induction entries with
  | nil => rfl
  | cons e entries ih => rw [leavesOf, ih, List.flatMap_cons, leavesAt]

theorem mem_leaves_folder :
    (steps, bytes) ∈ (folder entries).leaves ↔
      ∃ e ∈ entries, ∃ rest, (rest, bytes) ∈ e.2.leaves ∧ steps = e.1 :: rest := by
  simp only [leaves_folder, List.mem_flatMap, leavesAt, List.mem_map, Prod.mk.injEq, Prod.exists]
  grind

namespace IsProper

/-- The subtrees of a proper tree are proper. -/
theorem at? (ht : t.IsProper) {u : Tree} (h : t.at? steps = some u) : u.IsProper := by
  induction steps generalizing t with
  | nil =>
      obtain rfl : t = u := Option.some.inj h
      exact ht
  | cons name rest ih =>
      cases ht with
      | file => cases h
      | link => cases h
      | folder entries hnames hnodup hentries =>
          obtain ⟨v, hv, hrest⟩ := Option.bind_eq_some_iff.1 h
          exact ih (hentries _ (mem_of_lookup hv)) hrest

/-- The steps to what is in a proper tree are names. -/
theorem isName_of_at? (ht : t.IsProper) {u : Tree} (h : t.at? steps = some u) :
    ∀ n ∈ steps, Path.IsName n := by
  induction steps generalizing t with
  | nil => exact List.forall_mem_nil _
  | cons name rest ih =>
      cases ht with
      | file => cases h
      | link => cases h
      | folder entries hnames hnodup hentries =>
          obtain ⟨v, hv, hrest⟩ := Option.bind_eq_some_iff.1 h
          have he := mem_of_lookup hv
          exact List.forall_mem_cons.2 ⟨hnames _ he, ih (hentries _ he) hrest⟩

/-- What is found in a proper tree is proper. -/
theorem find (ht : t.IsProper) {path : String} {u : Tree} (h : t.find path = .ok u) :
    u.IsProper := by
  obtain ⟨steps, -, h⟩ := exists_of_bind_eq_ok h
  cases hat : t.at? steps with
  | none => simp [hat] at h
  | some v =>
      rw [hat] at h
      obtain rfl : v = u := Except.ok.inj h
      exact ht.at? hat

/-- The leaves of a proper tree are the files that names lead to. -/
theorem mem_leaves_iff (ht : t.IsProper) :
    (steps, bytes) ∈ t.leaves ↔ t.at? steps = some (.file bytes) := by
  induction ht generalizing steps with
  | file bytes =>
      cases steps with
      | nil => simp [leaves, Tree.at?, eq_comm]
      | cons name rest => simp [leaves, Tree.at?, child?]
  | link target =>
      cases steps with
      | nil => simp [leaves, Tree.at?]
      | cons name rest => simp [leaves, Tree.at?, child?]
  | folder entries hnames hnodup hentries ih =>
      rw [mem_leaves_folder]
      cases steps with
      | nil => simp [Tree.at?]
      | cons name rest =>
          rw [Tree.at?, child?]
          constructor
          · rintro ⟨⟨n, u⟩, he, rest, hmem, heq⟩
            obtain ⟨rfl, rfl⟩ := List.cons.inj heq
            rw [lookup_of_mem hnodup he]
            exact (ih _ he).1 hmem
          · intro h
            obtain ⟨u, hu, hrest⟩ := Option.bind_eq_some_iff.1 h
            have he := mem_of_lookup hu
            exact ⟨(name, u), he, rest, (ih _ he).2 hrest, rfl⟩

/-- The steps to a file of a proper tree are names. -/
theorem isName_of_mem_leaves (ht : t.IsProper) (h : (steps, bytes) ∈ t.leaves) :
    ∀ n ∈ steps, Path.IsName n := by
  induction ht generalizing steps with
  | file => simp_all [leaves]
  | link => simp [leaves] at h
  | folder entries hnames hnodup hentries ih =>
      obtain ⟨e, he, rest, hrest, rfl⟩ := mem_leaves_folder.1 h
      intro n hn
      rcases List.mem_cons.1 hn with rfl | hn
      · exact hnames e he
      · exact ih e he hrest n hn

/-- No two files of a proper tree are at the same steps. -/
theorem nodup_leaves (ht : t.IsProper) : (t.leaves.map Prod.fst).Nodup := by
  induction ht with
  | file => simp [leaves]
  | link => simp [leaves]
  | folder entries hnames hnodup hentries ih =>
      have hsteps (e : String × Tree) :
          (leavesAt e).map Prod.fst = (e.2.leaves.map Prod.fst).map (e.1 :: ·) := by
        simp [leavesAt, Function.comp_def]
      rw [leaves_folder, List.map_flatMap, List.nodup_flatMap]
      refine ⟨fun e he => ?_, (List.pairwise_map.1 hnodup).imp fun {e f} hne => ?_⟩
      · rw [hsteps]
        exact (ih e he).map fun _ _ h => (List.cons.inj h).2
      · -- Steps through different entries already differ at the first name.
        simp only [Function.onFun, hsteps]
        intro steps he hf
        obtain ⟨a, -, rfl⟩ := List.mem_map.1 he
        obtain ⟨b, -, hb⟩ := List.mem_map.1 hf
        exact hne (List.cons.inj hb).1.symm

end IsProper

theorem at?_append (t : Tree) (steps more : List String) :
    t.at? (steps ++ more) = (t.at? steps).bind (·.at? more) := by
  induction steps generalizing t with
  | nil => rfl
  | cons name steps ih =>
      rw [List.cons_append, at?, at?, Option.bind_assoc]
      exact congrArg (Option.bind _) (funext ih)

/-- Names lead on only from a folder. -/
theorem exists_folder_of_at? {here names : List String} {u : Tree} (hne : names ≠ [])
    (hat : t.at? (here ++ names) = some u) : ∃ entries, t.at? here = some (.folder entries) := by
  obtain ⟨name, rest, rfl⟩ := List.exists_cons_of_ne_nil hne
  rw [at?_append] at hat
  obtain ⟨v, hv, hinside⟩ := Option.bind_eq_some_iff.1 hat
  cases v with
  | file => cases hinside
  | link => cases hinside
  | folder entries => exact ⟨entries, hv⟩

section Follow

variable {root : Tree} {links : Nat} {here rest : List String} {name : String}

theorem follow_nil (root : Tree) (links : Nat) (here : List String) :
    root.follow links here [] = .ok here := by
  rw [follow]

theorem follow_empty (root : Tree) (links : Nat) (here rest : List String) :
    root.follow links here ("" :: rest) = root.follow links here rest := by
  rw [follow, if_pos (.inl rfl)]

/-- The name of a folder leads into it. -/
theorem follow_folder (hn : Path.IsName name) (hlimit : ¬ name.utf8ByteSize > nameLimit)
    (h : root.at? (here ++ [name]) = some (.folder entries)) :
    root.follow links here (name :: rest) = root.follow links (here ++ [name]) rest := by
  rw [follow, if_neg (by simp [hn.ne_empty, hn.ne_here]), if_neg hn.ne_above, if_neg hlimit, h]

/-- A name that is not there leads nowhere. -/
theorem follow_missing (hn : Path.IsName name) (hlimit : ¬ name.utf8ByteSize > nameLimit)
    (h : root.at? (here ++ [name]) = none) :
    root.follow links here (name :: rest) = .error .missing := by
  rw [follow, if_neg (by simp [hn.ne_empty, hn.ne_here]), if_neg hn.ne_above, if_neg hlimit, h]

/-- The name of a file leads to it, when it is the last. -/
theorem follow_file (hn : Path.IsName name) (hlimit : ¬ name.utf8ByteSize > nameLimit)
    (h : root.at? (here ++ [name]) = some (.file bytes)) :
    root.follow links here [name] = .ok (here ++ [name]) := by
  rw [follow, if_neg (by simp [hn.ne_empty, hn.ne_here]), if_neg hn.ne_above, if_neg hlimit, h]
  rfl

/-- The names of folders are followed into them. -/
theorem follow_folders {names : List String} (hnames : ∀ n ∈ names, Path.IsName n)
    (hlimit : ∀ n ∈ names, ¬ n.utf8ByteSize > nameLimit)
    (h : root.at? (here ++ names) = some (.folder entries)) (rest : List String) :
    root.follow links here (names ++ rest) = root.follow links (here ++ names) rest := by
  induction names generalizing here with
  | nil => rw [List.nil_append, List.append_nil]
  | cons n names ih =>
      obtain ⟨hn, hnames⟩ := List.forall_mem_cons.1 hnames
      obtain ⟨hshort, hlimit⟩ := List.forall_mem_cons.1 hlimit
      rw [List.append_cons] at h
      have hfolder : ∃ inner, root.at? (here ++ [n]) = some (.folder inner) := by
        by_cases hlast : names = []
        · rw [hlast, List.append_nil] at h
          exact ⟨entries, h⟩
        · exact exists_folder_of_at? hlast h
      obtain ⟨inner, hinner⟩ := hfolder
      rw [List.cons_append, follow_folder hn hshort hinner, ih hnames hlimit h, ← List.append_cons]

/-- The name of a link stands for the path that it gives. -/
theorem follow_link {target : String} (hn : Path.IsName name)
    (hlimit : ¬ name.utf8ByteSize > nameLimit) (htarget : target ≠ "")
    (h : root.at? (here ++ [name]) = some (.link target)) :
    root.follow (links + 1) here (name :: rest) =
      root.follow links (if Path.isAbsolute target then [] else here)
        (Text.split '/' target ++ rest) := by
  rw [follow, if_neg (by simp [hn.ne_empty, hn.ne_here]), if_neg hn.ne_above, if_neg hlimit, h]
  exact if_neg htarget

/-- Two dots lead up. -/
theorem follow_above (root : Tree) (links : Nat) (here rest : List String) :
    root.follow links here (".." :: rest) = root.follow links here.dropLast rest := by
  rw [follow, if_neg (by decide), if_pos rfl]

end Follow

/-- A path **goes by** some names when it is made of them, and each of them may
be followed. -/
structure GoesBy (path : String) (names : List String) : Prop where
  ne_nil : names ≠ []
  path_eq : path = Path.ofSteps names
  isName : ∀ n ∈ names, Path.IsName n
  short : ∀ n ∈ names, ¬ n.utf8ByteSize > nameLimit

instance (path : String) (names : List String) : Decidable (GoesBy path names) :=
  decidable_of_iff (names ≠ [] ∧ path = Path.ofSteps names ∧ (∀ n ∈ names, Path.IsName n) ∧
      ∀ n ∈ names, ¬ n.utf8ByteSize > nameLimit)
    ⟨fun ⟨he, hp, hn, hl⟩ => ⟨he, hp, hn, hl⟩, fun ⟨he, hp, hn, hl⟩ => ⟨he, hp, hn, hl⟩⟩

theorem GoesBy.split_eq {path : String} {names : List String} (h : GoesBy path names) :
    Text.split '/' path = "" :: names := by
  rw [h.path_eq, Path.split_ofSteps_of_ne_nil h.ne_nil h.isName]

section GoesBy

variable {t : Tree} {path : String} {names before rest : List String} {n : String}

theorem follow_goesBy (hpath : GoesBy path names) (h : t.at? names = some (.folder entries)) :
    t.follow linkLimit [] (Text.split '/' path) = .ok names := by
  have hleads : t.follow linkLimit [] (names ++ []) = t.follow linkLimit names [] :=
    follow_folders hpath.isName hpath.short h []
  rwa [List.append_nil, follow_nil, ← follow_empty, ← hpath.split_eq] at hleads

theorem find_folder (hpath : GoesBy path names) (h : t.at? names = some (.folder entries)) :
    t.find path = .ok (.folder entries) := by
  rw [find, follow_goesBy hpath h]
  simp only [bind, Except.bind, h]
  rfl

theorem find_file (hpath : GoesBy path (before ++ [n]))
    (h : t.at? (before ++ [n]) = some (.file bytes)) : t.find path = .ok (.file bytes) := by
  obtain ⟨hbefore, hn⟩ := List.forall_mem_append.1 hpath.isName
  obtain ⟨hlimit, hshort⟩ := List.forall_mem_append.1 hpath.short
  obtain ⟨inner, hinner⟩ := exists_folder_of_at? (List.cons_ne_nil n []) h
  have hleads : t.follow linkLimit [] (before ++ [n]) = .ok (before ++ [n]) := by
    rw [follow_folders hbefore hlimit hinner [n]]
    exact follow_file (hn n (List.mem_singleton_self n)) (hshort n (List.mem_singleton_self n)) h
  rw [find, hpath.split_eq, follow_empty, hleads]
  simp only [bind, Except.bind, h]
  rfl

/-- A path leads nowhere through a name that a folder does not have. -/
theorem find_missing (hpath : GoesBy path (before ++ n :: rest))
    (hbefore : t.at? before = some (.folder entries)) (h : t.at? (before ++ [n]) = none) :
    t.find path = .error .missing := by
  obtain ⟨hnames, hrest⟩ := List.forall_mem_append.1 hpath.isName
  obtain ⟨hlimit, hshort⟩ := List.forall_mem_append.1 hpath.short
  rw [find, hpath.split_eq, follow_empty, follow_folders hnames hlimit hbefore,
    List.nil_append, follow_missing (hrest n List.mem_cons_self) (hshort n List.mem_cons_self) h]
  rfl

end GoesBy

section Find

variable (t : Tree) (path : String)

theorem read_eq :
    t.read path =
      match t.find path with
      | .ok (.file bytes) => .ok bytes
      | .ok _ => .error ⟨.isFolder, "read", none⟩
      | .error o => .error ⟨o, "open", some path⟩ := by
  unfold read findFor
  cases t.find path with
  | error o => rfl
  | ok u => cases u <;> rfl

theorem isFile_eq :
    t.isFile path =
      match t.find path with
      | .ok (.file _) => .ok true
      | .ok _ => .ok false
      | .error o => .error ⟨o, "stat", some path⟩ := by
  unfold isFile findFor
  cases t.find path with
  | error o => rfl
  | ok u => cases u <;> rfl

theorem isFolder_eq :
    t.isFolder path =
      match t.find path with
      | .ok (.folder _) => .ok true
      | .ok _ => .ok false
      | .error o => .error ⟨o, "stat", some path⟩ := by
  unfold isFolder findFor
  cases t.find path with
  | error o => rfl
  | ok u => cases u <;> rfl

theorem list_eq :
    t.list path =
      match t.find path with
      | .ok (.folder entries) => .ok (entries.map Prod.fst)
      | .ok _ => .error ⟨.notFolder, "scandir", some path⟩
      | .error o => .error ⟨o, "scandir", some path⟩ := by
  unfold list findFor
  cases t.find path with
  | error o => rfl
  | ok u => cases u <;> rfl

end Find

variable {t₁ t₂ : Tree} {path : String}

theorem holds_of_missing (h : t.find path = .error .missing) : t.holds path = false := by
  rw [holds, h]
  rfl

theorem read_congr (h : t₁.find path = t₂.find path) : t₁.read path = t₂.read path := by
  rw [read_eq, read_eq, h]

/-- Reading tells whether a path leads anywhere, and whether to a file. -/
theorem find_eq_of_read_eq (h : t₁.read path = t₂.read path) :
    (∃ bytes, t₁.find path = .ok (.file bytes) ∧ t₂.find path = .ok (.file bytes)) ∨
    (∃ o, t₁.find path = .error o ∧ t₂.find path = .error o) ∨
    (∃ u₁ u₂, t₁.find path = .ok u₁ ∧ t₂.find path = .ok u₂ ∧
      (∀ bytes, u₁ ≠ .file bytes) ∧ ∀ bytes, u₂ ≠ .file bytes) := by
  rw [read_eq, read_eq] at h
  rcases h₁ : t₁.find path with o₁ | u₁ <;> rcases h₂ : t₂.find path with o₂ | u₂
  · simp_all
  · cases u₂ <;> simp_all
  · cases u₁ <;> simp_all
  · cases u₁ <;> cases u₂ <;> simp_all

theorem isFile_eq_of_read_eq (h : t₁.read path = t₂.read path) :
    t₁.isFile path = t₂.isFile path := by
  rw [isFile_eq, isFile_eq]
  rcases find_eq_of_read_eq h with ⟨bytes, h₁, h₂⟩ | ⟨o, h₁, h₂⟩ | ⟨u₁, u₂, h₁, h₂, hu₁, hu₂⟩
  · rw [h₁, h₂]
  · rw [h₁, h₂]
  · rw [h₁, h₂]
    cases u₁ <;> cases u₂ <;> simp_all

theorem holds_eq_of_read_eq (h : t₁.read path = t₂.read path) :
    t₁.holds path = t₂.holds path := by
  unfold holds
  rcases find_eq_of_read_eq h with ⟨bytes, h₁, h₂⟩ | ⟨o, h₁, h₂⟩ | ⟨u₁, u₂, h₁, h₂, -, -⟩ <;>
    simp [h₁, h₂, Except.isOk, Except.toBool]

end LicenseAudit.Tree
