import LicenseAudit.Proofs.Tree.Follow

/-!
# Trees without one of their files

When a file or a link is erased from a tree, everything else stays where it is
(`at?_erase`): only the folder that had it has one name less.  So a path that
does not look at its place leads where it did before, and to the same
(`find_erase`).
-/

namespace LicenseAudit.Tree

open Text

variable {t u : Tree} {entries : List (String × Tree)} {gone place : List String}
variable {path name : String}

theorem lookup_cons (m : String) (u : Tree) (entries : List (String × Tree)) (n : String) :
    ((m, u) :: entries).lookup n = if n = m then some u else entries.lookup n := by
  by_cases hn : n = m
  · simp [hn]
  · simp [List.lookup_cons, beq_false_of_ne hn, hn]

theorem lookup_setEntry (name : String) (x : Tree) (entries : List (String × Tree)) (n : String) :
    (setEntry name x entries).lookup n = if n = name then some x else entries.lookup n := by
  induction entries with
  | nil => rw [setEntry, lookup_cons]
  | cons e entries ih =>
      obtain ⟨m, u⟩ := e
      rw [setEntry]
      by_cases hm : m = name
      · rw [if_pos hm, lookup_cons, lookup_cons, hm]
        by_cases hn : n = name
        · rw [if_pos hn, if_pos hn]
        · rw [if_neg hn, if_neg hn, if_neg hn]
      · rw [if_neg hm, lookup_cons, lookup_cons, ih]
        by_cases hn : n = m
        · rw [if_pos hn, if_neg (hn ▸ hm), if_pos hn]
        · rw [if_neg hn, if_neg hn]

theorem lookup_without (name : String) (entries : List (String × Tree)) (n : String) :
    (entries.filter fun (m, _) => m != name).lookup n =
      if n = name then none else entries.lookup n := by
  induction entries with
  | nil => simp
  | cons e entries ih =>
      obtain ⟨m, u⟩ := e
      by_cases hm : m = name
      · rw [List.filter_cons_of_neg (by simp [hm]), ih, lookup_cons, hm]
        by_cases hn : n = name
        · rw [if_pos hn, if_pos hn]
        · rw [if_neg hn, if_neg hn, if_neg hn]
      · rw [List.filter_cons_of_pos (by simp [hm]), lookup_cons, lookup_cons, ih]
        by_cases hn : n = m
        · rw [if_pos hn, if_neg (hn ▸ hm), if_pos hn]
        · rw [if_neg hn, if_neg hn]

/-- The names of the entries stay when one of them is replaced. -/
theorem map_fst_setEntry {x : Tree} (h : entries.lookup name = some u) :
    (setEntry name x entries).map Prod.fst = entries.map Prod.fst := by
  induction entries with
  | nil => cases h
  | cons e entries ih =>
      obtain ⟨m, v⟩ := e
      rw [setEntry]
      by_cases hm : m = name
      · rw [if_pos hm]
        rfl
      · rw [if_neg hm, List.map_cons, List.map_cons]
        rw [List.lookup_cons, beq_false_of_ne (Ne.symm hm)] at h
        exact congrArg _ (ih h)

theorem mem_setEntry {x : Tree} {e : String × Tree} (h : e ∈ setEntry name x entries) :
    e = (name, x) ∨ e ∈ entries := by
  induction entries with
  | nil => exact .inl (List.mem_singleton.1 h)
  | cons f entries ih =>
      obtain ⟨m, v⟩ := f
      rw [setEntry] at h
      split at h
      · next hm =>
          rcases List.mem_cons.1 h with h | h
          · exact .inl (h.trans (by rw [hm]))
          · exact .inr (List.mem_cons_of_mem _ h)
      · rcases List.mem_cons.1 h with h | h
        · exact .inr (h ▸ List.mem_cons_self)
        · exact (ih h).imp_right (List.mem_cons_of_mem _)

/-- From a folder a name is erased. -/
theorem erase_folder_singleton (entries : List (String × Tree)) (name : String) :
    (folder entries).erase [name] = .folder (entries.filter fun (n, _) => n != name) := by
  rw [erase]

/-- Further below the erasing is done in the entry of the first name. -/
theorem erase_folder_cons (h : entries.lookup name = some u) (next : String)
    (rest : List String) :
    (folder entries).erase (name :: next :: rest) =
      .folder (setEntry name (u.erase (next :: rest)) entries) := by
  rw [erase, h]
  exact fun h => nomatch h

/-- A proper tree stays proper. -/
theorem IsProper.erase (ht : t.IsProper) (gone : List String) : (t.erase gone).IsProper := by
  induction gone generalizing t with
  | nil =>
      rw [Tree.erase]
      exact ht
  | cons name rest ih =>
      cases ht with
      | file bytes => cases rest <;> exact .file bytes
      | link target => cases rest <;> exact .link target
      | folder entries hnames hnodup hentries =>
          cases rest with
          | nil =>
              rw [erase_folder_singleton]
              refine .folder _ (fun e he => hnames e (List.mem_of_mem_filter he)) ?_ fun e he =>
                hentries e (List.mem_of_mem_filter he)
              exact hnodup.sublist (List.filter_sublist.map _)
          | cons next rest =>
              cases hlookup : entries.lookup name with
              | none =>
                  have hsame : (Tree.folder entries).erase (name :: next :: rest) =
                      .folder entries := by
                    rw [Tree.erase, hlookup]
                    exact fun h => nomatch h
                  rw [hsame]
                  exact .folder entries hnames hnodup hentries
              | some u =>
                  have he := mem_of_lookup hlookup
                  rw [erase_folder_cons hlookup]
                  refine .folder _ (fun e hmem => ?_) ?_ fun e hmem => ?_
                  · rcases mem_setEntry hmem with rfl | hmem
                    · exact hnames (name, u) he
                    · exact hnames e hmem
                  · rwa [map_fst_setEntry hlookup]
                  · rcases mem_setEntry hmem with rfl | hmem
                    · exact ih (hentries _ he)
                    · exact hentries e hmem

/-- The names in a folder; anything else has none. -/
def names (t : Tree) : List String :=
  t.entries.map Prod.fst

/-- What is erased is gone. -/
theorem at?_erase_self (hne : gone ≠ []) (hat : t.at? gone = some u) :
    (t.erase gone).at? gone = none := by
  induction gone generalizing t with
  | nil => exact absurd rfl hne
  | cons name rest ih =>
      cases t with
      | file => cases hat
      | link => cases hat
      | folder entries =>
          obtain ⟨v, hv, hinside⟩ := Option.bind_eq_some_iff.1 hat
          have hlookup : entries.lookup name = some v := hv
          cases rest with
          | nil =>
              rw [erase_folder_singleton, at?, child?, lookup_without, if_pos rfl,
                Option.bind_none]
          | cons next rest =>
              rw [erase_folder_cons hlookup, at?, child?, lookup_setEntry, if_pos rfl,
                Option.bind_some]
              exact ih (List.cons_ne_nil _ _) hinside

/-- A file or link that is erased from its folder leaves what there was
everywhere but in its own place, and the names everywhere but in the folder. -/
theorem at?_erase_child (hlookup : entries.lookup name = some u) (hsingle : u.IsSingle)
    (hplace : place ≠ [name]) :
    (((folder entries).erase [name]).at? place).map surface =
        ((folder entries).at? place).map surface ∧
      (place ≠ [] → (((folder entries).erase [name]).at? place).map names =
        ((folder entries).at? place).map names) := by
  rw [erase_folder_singleton]
  cases place with
  | nil => exact ⟨rfl, fun hfolder => absurd rfl hfolder⟩
  | cons n more =>
      rw [at?, at?, child?, child?, lookup_without]
      by_cases hn : n = name
      · cases more with
        | nil => exact absurd (congrArg (· :: []) hn) hplace
        | cons m more =>
            rw [if_pos hn, hn, hlookup, Option.bind_some, hsingle.at?_cons]
            exact ⟨rfl, fun _ => rfl⟩
      · rw [if_neg hn]
        exact ⟨rfl, fun _ => rfl⟩

/-- Everywhere but in its own place an erased file or link leaves what there
was, and everywhere but in its folder the names there were. -/
theorem at?_erase (hne : gone ≠ []) (hat : t.at? gone = some u) (hsingle : u.IsSingle)
    (hplace : place ≠ gone) :
    ((t.erase gone).at? place).map surface = (t.at? place).map surface ∧
      (place ≠ gone.dropLast →
        ((t.erase gone).at? place).map names = (t.at? place).map names) := by
  induction gone generalizing t place with
  | nil => exact absurd rfl hne
  | cons name rest ih =>
      cases t with
      | file => cases hat
      | link => cases hat
      | folder entries =>
          obtain ⟨v, hv, hinside⟩ := Option.bind_eq_some_iff.1 hat
          have hlookup : entries.lookup name = some v := hv
          cases rest with
          | nil =>
              obtain rfl : v = u := Option.some.inj hinside
              exact at?_erase_child hlookup hsingle hplace
          | cons next rest =>
              rw [erase_folder_cons hlookup]
              cases place with
              | nil => exact ⟨rfl, fun _ => congrArg some (map_fst_setEntry hlookup)⟩
              | cons n more =>
                  rw [at?, at?, child?, child?, lookup_setEntry]
                  by_cases hn : n = name
                  · rw [if_pos hn, hn, hlookup]
                    have hmore : more ≠ next :: rest := by
                      intro he
                      exact hplace (by rw [hn, he])
                    obtain ⟨hsurface, hnames⟩ := ih (List.cons_ne_nil _ _) hinside hmore
                    refine ⟨hsurface, fun hfolder => hnames fun he => hfolder ?_⟩
                    rw [he, List.dropLast_cons_cons]
                  · rw [if_neg hn]
                    exact ⟨rfl, fun _ => rfl⟩

/-- The names to what is erased lead nowhere. -/
theorem follow_erase_self {links : Nat} {here names : List String} (hne : names ≠ [])
    (hnames : ∀ n ∈ names, Path.IsName n) (hat : t.at? (here ++ names) = some u)
    (hsingle : u.IsSingle) (there : List String) :
    (t.erase (here ++ names)).follow links here names ≠ .ok there := by
  induction names generalizing here with
  | nil => exact absurd rfl hne
  | cons name rest ih =>
      obtain ⟨hname, hrest⟩ := List.forall_mem_cons.1 hnames
      have hnone : here ++ name :: rest ≠ [] := by simp
      rw [follow, if_neg (by simp [hname.ne_empty, hname.ne_here]), if_neg hname.ne_above]
      split
      · rintro ⟨⟩
      · cases rest with
        | nil =>
            rw [at?_erase_self hnone hat]
            rintro ⟨⟩
        | cons next rest =>
            have hassoc : here ++ name :: next :: rest = here ++ [name] ++ next :: rest := by simp
            have hbefore : here ++ [name] ≠ here ++ name :: next :: rest := by simp
            have hsurface := (at?_erase hnone hat hsingle hbefore).1
            rw [hassoc] at hat hsurface ⊢
            have hfound := hat
            rw [at?_append] at hfound
            obtain ⟨folder, hfolder, hinside⟩ := Option.bind_eq_some_iff.1 hfound
            cases folder with
            | file => cases hinside
            | link => cases hinside
            | folder entries =>
                rw [hfolder] at hsurface
                obtain ⟨entries', hfolder'⟩ := exists_folder_of_surface hsurface
                rw [hfolder']
                exact ih (List.cons_ne_nil _ _) hrest hat

/-- Finding a path **looks at** a place when it is one of those on the way. -/
def LooksAt (t : Tree) (path : String) (place : List String) : Prop :=
  place ∈ t.trail linkLimit [] (split '/' path)

section Unseen

variable (hne : gone ≠ []) (hat : t.at? gone = some u) (hsingle : u.IsSingle)
variable (hunseen : ¬ t.LooksAt path gone)
include hne hat hsingle hunseen

theorem follow_erase : (t.erase gone).follow linkLimit [] (split '/' path) =
    t.follow linkLimit [] (split '/' path) := by
  refine follow_congr fun q hq => (at?_erase hne hat hsingle ?_).1
  intro he
  exact hunseen (he ▸ hq)

/-- A path that does not look at what is erased leads to what it did, but for
the names in the folder of that. -/
theorem find_erase :
    ((t.erase gone).find path).map surface = (t.find path).map surface ∧
      (t.follow linkLimit [] (split '/' path) ≠ .ok gone.dropLast →
        ((t.erase gone).find path).map names = (t.find path).map names) := by
  rw [find, find, follow_erase hne hat hsingle hunseen]
  cases hfollow : t.follow linkLimit [] (split '/' path) with
  | error o => exact ⟨rfl, fun _ => rfl⟩
  | ok there =>
      have hthere : there ≠ gone := by
        intro he
        have hbelow : ¬ gone <+: there :=
          (way_of_follow hfollow).not_below hne (by simpa using hne) hunseen
        exact hbelow (he ▸ List.prefix_refl gone)
      obtain ⟨hsurface, hnames⟩ := at?_erase hne hat hsingle hthere
      simp only [bind, Except.bind]
      cases hv : (t.erase gone).at? there with
      | none =>
          rw [hv, eq_comm] at hsurface
          rw [eq_none_of_surface hsurface]
          exact ⟨rfl, fun _ => rfl⟩
      | some v =>
          rw [hv] at hsurface hnames
          cases hw : t.at? there with
          | none =>
              rw [hw] at hsurface
              cases hsurface
          | some w =>
              rw [hw] at hsurface hnames
              refine ⟨congrArg Except.ok (Option.some.inj hsurface), fun hfolder => ?_⟩
              have hother : there ≠ gone.dropLast := fun he => hfolder (congrArg Except.ok he)
              exact congrArg Except.ok (Option.some.inj (hnames hother))

/-- Reading such a path gives what it did. -/
theorem read_erase : (t.erase gone).read path = t.read path := by
  rw [read_eq, read_eq]
  rcases exists_of_map_eq_map (find_erase hne hat hsingle hunseen).1 with
    ⟨o, hv, hw⟩ | ⟨v, w, hv, hw, hsurface⟩
  · rw [hv, hw]
  · rw [hv, hw]
    cases v <;> cases w <;> cases hsurface <;> rfl

/-- Listing such a path gives what it did, unless it is that of the folder. -/
theorem list_erase (hfolder : t.follow linkLimit [] (split '/' path) ≠ .ok gone.dropLast) :
    (t.erase gone).list path = t.list path := by
  obtain ⟨hsurface, hnames⟩ := find_erase hne hat hsingle hunseen
  rw [list_eq, list_eq]
  rcases exists_of_map_eq_map hsurface with ⟨o, hv, hw⟩ | ⟨v, w, hv, hw, hsurface⟩
  · rw [hv, hw]
  · have hsame := hnames hfolder
    rw [hv, hw] at hsame
    have hsame : v.names = w.names := Except.ok.inj hsame
    rw [hv, hw]
    cases v <;> cases w <;> cases hsurface
    · rfl
    · rfl
    · exact congrArg Except.ok hsame

end Unseen

end LicenseAudit.Tree
