import LicenseAudit.Proofs.Path.Steps
import LicenseAudit.Proofs.Tree

/-!
# What following a path looks at

Names are followed by looking at one place after another: at the place of each
name, and where there is a link at the places of its names as well.  Where
they lead depends on these places alone, and there only on whether there is a
file, a link or a folder (`follow_congr`).

To follow more names is to go on from where the first lead, if that is a
folder (`follow_append`).  On a way that leads somewhere there is a file only
at its end (`eq_of_mem_trail`).
-/

namespace LicenseAudit.Tree

open Text

variable {t u : Tree} {links : Nat} {here names more place : List String}

/-- The places that following names looks at. -/
def trail (root : Tree) (links : Nat) (here names : List String) : List (List String) :=
  match names with
  | [] => []
  | name :: rest =>
    if name = "" ∨ name = "." then trail root links here rest
    else if name = ".." then trail root links here.dropLast rest
    else
      (here ++ [name]) ::
        match root.at? (here ++ [name]) with
        | some (.folder _) => trail root links (here ++ [name]) rest
        | some (.link target) =>
          match links with
          | 0 => []
          | links + 1 =>
            trail root links (if Path.isAbsolute target then [] else here)
              (split '/' target ++ rest)
        | _ => []
termination_by (links, names.length)

/-- What is at a place: a file, a link, or a folder with whatever in it. -/
def surface : Tree → Tree
  | .folder _ => .folder []
  | t => t

/-- A tree is **single** when it is no folder: a file or a link. -/
def IsSingle : Tree → Prop
  | .folder _ => False
  | _ => True

/-- In a single tree there is nothing. -/
theorem IsSingle.at?_cons (h : t.IsSingle) (name : String) (rest : List String) :
    t.at? (name :: rest) = none := by
  cases t with
  | file => rfl
  | link => rfl
  | folder => exact h.elim

section Surface

variable {o : Option Tree}

theorem eq_none_of_surface (h : o.map surface = none) : o = none :=
  Option.map_eq_none_iff.1 h

theorem eq_file_of_surface {bytes : List UInt8} (h : o.map surface = some (.file bytes)) :
    o = some (.file bytes) := by
  rcases o with _ | v
  · cases h
  · cases v <;> cases h
    rfl

theorem eq_link_of_surface {target : String} (h : o.map surface = some (.link target)) :
    o = some (.link target) := by
  rcases o with _ | v
  · cases h
  · cases v <;> cases h
    rfl

theorem exists_folder_of_surface (h : o.map surface = some (.folder [])) :
    ∃ entries, o = some (.folder entries) := by
  rcases o with _ | v
  · cases h
  · cases v with
    | file => cases h
    | link => cases h
    | folder entries => exact ⟨entries, rfl⟩

end Surface

/-- Names lead to the same place in two trees that have the same at every
place that is looked at. -/
theorem follow_congr
    (h : ∀ q ∈ t.trail links here names, (u.at? q).map surface = (t.at? q).map surface) :
    u.follow links here names = t.follow links here names := by
  fun_induction t.follow links here names with
  | case1 links here => rw [follow_nil]
  | case2 links here name rest hstay ih =>
      rw [trail, if_pos hstay] at h
      rw [follow, if_pos hstay, ih h]
  | case3 links here rest hstay ih =>
      rw [trail, if_neg hstay, if_pos rfl] at h
      rw [follow, if_neg hstay, if_pos rfl, ih h]
  | case4 links here name rest hstay hup hlong =>
      rw [follow, if_neg hstay, if_neg hup, if_pos hlong]
  | case5 links here name rest hstay hup hshort hat =>
      rw [trail, if_neg hstay, if_neg hup, List.forall_mem_cons, hat] at h
      rw [follow, if_neg hstay, if_neg hup, if_neg hshort, eq_none_of_surface h.1]
  | case6 links here name rest hstay hup hshort entries hat ih =>
      rw [trail, if_neg hstay, if_neg hup, List.forall_mem_cons, hat] at h
      obtain ⟨entries', hat'⟩ := exists_folder_of_surface h.1
      rw [follow, if_neg hstay, if_neg hup, if_neg hshort, hat']
      exact ih h.2
  | case7 links here name rest hstay hup hshort bytes hat hlast =>
      rw [trail, if_neg hstay, if_neg hup, List.forall_mem_cons, hat] at h
      rw [follow, if_neg hstay, if_neg hup, if_neg hshort, eq_file_of_surface h.1]
      exact if_pos hlast
  | case8 links here name rest hstay hup hshort bytes hat hlast =>
      rw [trail, if_neg hstay, if_neg hup, List.forall_mem_cons, hat] at h
      rw [follow, if_neg hstay, if_neg hup, if_neg hshort, eq_file_of_surface h.1]
      exact if_neg hlast
  | case9 here name rest hstay hup hshort target hat =>
      rw [trail, if_neg hstay, if_neg hup, List.forall_mem_cons, hat] at h
      rw [follow, if_neg hstay, if_neg hup, if_neg hshort, eq_link_of_surface h.1]
  | case10 here name rest hstay hup hshort links hat =>
      rw [trail, if_neg hstay, if_neg hup, List.forall_mem_cons, hat] at h
      rw [follow, if_neg hstay, if_neg hup, if_neg hshort, eq_link_of_surface h.1]
      exact if_pos rfl
  | case11 here name rest hstay hup hshort target hat links htarget ih =>
      rw [trail, if_neg hstay, if_neg hup, List.forall_mem_cons, hat] at h
      rw [follow, if_neg hstay, if_neg hup, if_neg hshort, eq_link_of_surface h.1]
      exact (if_neg htarget).trans (ih h.2)

/-- A name **leads down** when it does not stay or lead up, and is not too
long. -/
structure LeadsDown (name : String) : Prop where
  moves : ¬ (name = "" ∨ name = ".")
  not_up : name ≠ ".."
  short : ¬ name.utf8ByteSize > nameLimit

/-- The **way** along some names leads from one place to another, looking at
some places on the way. -/
inductive Way (t : Tree) : Nat → List String → List String → List String →
    List (List String) → Prop
  | nil {links : Nat} {here : List String} : Way t links here [] here []
  | stay {links : Nat} {here rest there : List String} {name : String}
      {places : List (List String)} (hstay : name = "" ∨ name = ".")
      (hrest : Way t links here rest there places) : Way t links here (name :: rest) there places
  | up {links : Nat} {here rest there : List String} {places : List (List String)}
      (hrest : Way t links here.dropLast rest there places) :
      Way t links here (".." :: rest) there places
  | folder {links : Nat} {here rest there : List String} {name : String}
      {places : List (List String)} {entries : List (String × Tree)} (hdown : LeadsDown name)
      (hat : t.at? (here ++ [name]) = some (.folder entries))
      (hrest : Way t links (here ++ [name]) rest there places) :
      Way t links here (name :: rest) there ((here ++ [name]) :: places)
  | file {links : Nat} {here : List String} {name : String} {bytes : List UInt8}
      (hat : t.at? (here ++ [name]) = some (.file bytes)) :
      Way t links here [name] (here ++ [name]) [here ++ [name]]
  | link {links : Nat} {here rest there : List String} {name target : String}
      {places : List (List String)} (hdown : LeadsDown name) (htarget : target ≠ "")
      (hat : t.at? (here ++ [name]) = some (.link target))
      (hrest : Way t links (if Path.isAbsolute target then [] else here)
        (split '/' target ++ rest) there places) :
      Way t (links + 1) here (name :: rest) there ((here ++ [name]) :: places)

variable {there : List String} {places : List (List String)}

/-- Names that lead somewhere have a way there. -/
theorem way_of_follow (h : t.follow links here names = .ok there) :
    t.Way links here names there (t.trail links here names) := by
  fun_induction t.follow links here names with
  | case1 links here =>
      cases h
      rw [trail]
      exact .nil
  | case2 links here name rest hstay ih =>
      rw [trail, if_pos hstay]
      exact .stay hstay (ih h)
  | case3 links here rest hstay ih =>
      rw [trail, if_neg hstay, if_pos rfl]
      exact .up (ih h)
  | case6 links here name rest hstay hup hshort entries hat ih =>
      rw [trail, if_neg hstay, if_neg hup, hat]
      exact .folder ⟨hstay, hup, hshort⟩ hat (ih h)
  | case7 links here name rest hstay hup hshort bytes hat hlast =>
      obtain rfl := List.isEmpty_iff.1 hlast
      cases h
      rw [trail, if_neg hstay, if_neg hup, hat]
      exact .file hat
  | case11 here name rest hstay hup hshort target hat links htarget ih =>
      rw [trail, if_neg hstay, if_neg hup, hat]
      exact .link ⟨hstay, hup, hshort⟩ htarget hat (ih h)
  | _ => cases h

namespace Way

/-- On a way there is a file only at its end. -/
theorem eq_of_mem (h : t.Way links here names there places) {bytes : List UInt8}
    (hplace : place ∈ places) (hat : t.at? place = some (.file bytes)) : place = there := by
  induction h with
  | nil => cases hplace
  | stay hstay hrest ih => exact ih hplace
  | up hrest ih => exact ih hplace
  | folder hdown hfolder hrest ih =>
      rcases List.mem_cons.1 hplace with rfl | hplace
      · rw [hfolder] at hat
        cases hat
      · exact ih hplace
  | file hfile => exact List.mem_singleton.1 hplace
  | link hdown htarget hlink hrest ih =>
      rcases List.mem_cons.1 hplace with rfl | hplace
      · rw [hlink] at hat
        cases hat
      · exact ih hplace

/-- A way that does not look at a place does not lead to it or below it, unless
it starts there. -/
theorem not_below (h : t.Way links here names there places) (hne : place ≠ [])
    (hhere : ¬ place <+: here) (hplaces : place ∉ places) : ¬ place <+: there := by
  induction h with
  | nil => exact hhere
  | stay hstay hrest ih => exact ih hhere hplaces
  | up hrest ih =>
      refine ih (fun hprefix => hhere ?_) hplaces
      exact hprefix.trans (List.dropLast_prefix _)
  | folder hdown hfolder hrest ih =>
      rw [List.mem_cons, not_or] at hplaces
      refine ih ?_ hplaces.2
      rw [List.prefix_concat_iff, not_or]
      exact ⟨hplaces.1, hhere⟩
  | file hfile =>
      rw [List.prefix_concat_iff, not_or]
      exact ⟨fun he => hplaces (he ▸ List.mem_singleton_self _), hhere⟩
  | link hdown htarget hlink hrest ih =>
      rw [List.mem_cons, not_or] at hplaces
      refine ih ?_ hplaces.2
      split
      · simpa using hne
      · exact hhere

/-- More names are followed from the folder that a way leads to. -/
theorem follow_append (h : t.Way links here names there places) {entries : List (String × Tree)}
    (hthere : t.at? there = some (.folder entries)) :
    ∃ left, ∀ more, t.follow links here (names ++ more) = t.follow left there more ∧
      t.trail links here (names ++ more) = places ++ t.trail left there more := by
  induction h with
  | @nil links here => exact ⟨links, fun more => ⟨rfl, rfl⟩⟩
  | stay hstay hrest ih =>
      obtain ⟨left, hleft⟩ := ih hthere
      refine ⟨left, fun more => ?_⟩
      rw [List.cons_append, follow, trail, if_pos hstay, if_pos hstay]
      exact hleft more
  | up hrest ih =>
      obtain ⟨left, hleft⟩ := ih hthere
      refine ⟨left, fun more => ?_⟩
      have hstay : ¬ (".." = "" ∨ ".." = ".") := by decide
      rw [List.cons_append, follow, trail, if_neg hstay, if_neg hstay, if_pos rfl, if_pos rfl]
      exact hleft more
  | folder hdown hfolder hrest ih =>
      obtain ⟨left, hleft⟩ := ih hthere
      refine ⟨left, fun more => ?_⟩
      rw [List.cons_append, follow, trail, if_neg hdown.moves, if_neg hdown.moves,
        if_neg hdown.not_up, if_neg hdown.not_up, if_neg hdown.short, hfolder]
      exact ⟨(hleft more).1, congrArg _ (hleft more).2⟩
  | file hfile =>
      rw [hfile] at hthere
      cases hthere
  | link hdown htarget hlink hrest ih =>
      obtain ⟨left, hleft⟩ := ih hthere
      refine ⟨left, fun more => ?_⟩
      rw [List.cons_append, follow, trail, if_neg hdown.moves, if_neg hdown.moves,
        if_neg hdown.not_up, if_neg hdown.not_up, if_neg hdown.short, hlink]
      obtain ⟨hfollow, htrail⟩ := hleft more
      rw [List.append_assoc] at hfollow htrail
      exact ⟨(if_neg htarget).trans hfollow, congrArg _ htrail⟩

end Way

/-- On the way to a file by names alone there are only folders. -/
theorem eq_of_mem_trail (hnames : ∀ n ∈ names, Path.IsName n) {bytes : List UInt8} {u : Tree}
    (hat : t.at? (here ++ names) = some (.file bytes)) (hplace : place ∈ t.trail links here names)
    (hu : t.at? place = some u) (hsingle : u.IsSingle) : place = here ++ names := by
  induction names generalizing here with
  | nil =>
      rw [trail] at hplace
      cases hplace
  | cons name rest ih =>
      obtain ⟨hname, hrest⟩ := List.forall_mem_cons.1 hnames
      have hassoc : here ++ name :: rest = here ++ [name] ++ rest := by simp
      rw [hassoc] at hat ⊢
      rw [trail, if_neg (by simp [hname.ne_empty, hname.ne_here]), if_neg hname.ne_above,
        List.mem_cons] at hplace
      cases rest with
      | nil =>
          rw [List.append_nil] at hat ⊢
          rw [hat] at hplace
          exact hplace.resolve_right List.not_mem_nil
      | cons next rest =>
          have hfound := hat
          rw [at?_append] at hfound
          obtain ⟨folder, hfolder, hinside⟩ := Option.bind_eq_some_iff.1 hfound
          cases folder with
          | file => cases hinside
          | link => cases hinside
          | folder entries =>
              rcases hplace with hfirst | hplace
              · rw [hfirst, hfolder] at hu
                obtain rfl := Option.some.inj hu
                exact hsingle.elim
              · rw [hfolder] at hplace
                exact ih hrest hat hplace

/-- A resolved path is followed by its names. -/
theorem follow_ofSteps (hnames : ∀ n ∈ names, Path.IsName n) :
    t.follow links here (split '/' (Path.ofSteps names)) = t.follow links here names ∧
      t.trail links here (split '/' (Path.ofSteps names)) = t.trail links here names := by
  have hskip (rest : List String) : t.follow links here ("" :: rest) = t.follow links here rest ∧
      t.trail links here ("" :: rest) = t.trail links here rest := by
    rw [follow, trail, if_pos (.inl rfl), if_pos (.inl rfl)]
    exact ⟨rfl, rfl⟩
  cases names with
  | nil =>
      have hsplit : split '/' (Path.ofSteps []) = ["", ""] := by decide +kernel
      rw [hsplit, (hskip _).1, (hskip _).1, (hskip _).2, (hskip _).2]
      exact ⟨rfl, rfl⟩
  | cons name rest =>
      rw [Path.split_ofSteps_of_ne_nil (List.cons_ne_nil _ _) hnames]
      exact hskip _

/-- A tree is **unlinked** when there is no link in it. -/
def IsUnlinked (t : Tree) : Prop :=
  ∀ place target, t.at? place ≠ some (.link target)

theorem isUnlinked_file (bytes : List UInt8) : (file bytes).IsUnlinked := by
  intro place target hat
  cases place <;> cases hat

theorem isUnlinked_folder {entries : List (String × Tree)}
    (h : ∀ e ∈ entries, e.2.IsUnlinked) : (folder entries).IsUnlinked := by
  intro place target hat
  cases place with
  | nil => cases hat
  | cons name rest =>
      obtain ⟨u, hu, hrest⟩ := Option.bind_eq_some_iff.1 hat
      exact h (name, u) (mem_of_lookup hu) rest target hrest

section Unlinked

variable (hlinks : t.IsUnlinked)
variable (hnames : ∀ n ∈ names, Path.IsName n)
include hlinks hnames

/-- Without links names lead to the place that they name. -/
theorem eq_of_follow_unlinked (h : t.follow links here names = .ok there) :
    there = here ++ names := by
  induction names generalizing here with
  | nil =>
      rw [follow_nil] at h
      rw [List.append_nil]
      exact (Except.ok.inj h).symm
  | cons name rest ih =>
      obtain ⟨hname, hrest⟩ := List.forall_mem_cons.1 hnames
      rw [follow, if_neg (by simp [hname.ne_empty, hname.ne_here]), if_neg hname.ne_above] at h
      split at h
      · cases h
      · split at h
        · cases h
        · rw [ih hrest h, List.append_assoc, List.singleton_append]
        · split at h
          · next hlast =>
              rw [List.isEmpty_iff.1 hlast]
              exact (Except.ok.inj h).symm
          · cases h
        · next target hat => exact absurd hat (hlinks _ _)

/-- Without links the places on the way are those of the first names. -/
theorem exists_prefix_of_mem_trail (h : place ∈ t.trail links here names) :
    ∃ before, before <+: names ∧ place = here ++ before := by
  induction names generalizing here with
  | nil =>
      rw [trail] at h
      cases h
  | cons name rest ih =>
      obtain ⟨hname, hrest⟩ := List.forall_mem_cons.1 hnames
      rw [trail, if_neg (by simp [hname.ne_empty, hname.ne_here]), if_neg hname.ne_above,
        List.mem_cons] at h
      rcases h with rfl | h
      · exact ⟨[name], List.prefix_append [name] rest, rfl⟩
      · split at h
        · obtain ⟨before, hbefore, hplace⟩ := ih hrest h
          refine ⟨name :: before, (List.prefix_cons_inj name).2 hbefore, ?_⟩
          rw [hplace, List.append_assoc, List.singleton_append]
        · next target hat => exact absurd hat (hlinks _ _)
        · cases h

end Unlinked

end LicenseAudit.Tree
