import LicenseAudit.Manifest.Reading
import Mathlib.Data.List.Induction
import Mathlib.Data.List.Nodup
import Mathlib.Data.List.TakeWhile

/-!
# The entries that apply to a path

Of the entries of each manifest the last one that matches a path applies
to it.  Manifests of one name that match a path lie in directories on the
way to it, one below the other, so no two of the entries that apply have
the same depth, and sorting them by depth leaves nothing open.

`mem_applicable` says which entries apply without mentioning the order in
which they are taken in, and `pairwise_applicable` that the list of them
goes strictly from the shallowest to the deepest.
-/

namespace LicenseAudit

open Text

/-- Dividing a text by a separator makes one piece more than the text has
separators. -/
theorem Text.length_pieces (separator : Char) (cs : List Char) :
    (pieces separator cs).length = cs.count separator + 1 := by
  induction cs with
  | nil => rfl
  | cons c cs ih =>
      unfold pieces
      split
      · next h => simp [h, ih]
      · next h =>
          cases hp : pieces separator cs with
          | nil => exact absurd hp (pieces_ne_nil separator cs)
          | cons p ps =>
              rw [hp] at ih
              simpa [List.count_cons_of_ne h] using ih

namespace Manifest

/-- Where the manifest with a name in a directory lies. -/
def within (directory name : String) : String :=
  if directory = "" then name else directory ++ "/" ++ name

/-- A directory that is not the root is as deep as it has slashes, and one
more. -/
theorem depthOf_eq {directory : String} (h : directory ≠ "") :
    depthOf directory = directory.toList.count '/' + 1 := by
  simp [depthOf, h, Path.depth, split, length_pieces]

/-- The directory of a manifest is read off its path. -/
theorem directoryOf_within {directory name : String} (hname : name ≠ "")
    (hslash : '/' ∉ name.toList) (hrelative : directory.toList.head? ≠ some '/')
    (hdot : directory ≠ ".") : directoryOf (within directory name) = directory := by
  have hall : ∀ c ∈ name.toList, (c != '/') = true := by
    intro c hc
    simpa using fun he : c = '/' => hslash (he ▸ hc)
  by_cases hroot : directory = ""
  · obtain ⟨c, cs, hcs⟩ := List.exists_cons_of_ne_nil (show name.toList ≠ [] by simpa using hname)
    have hc : c ≠ '/' := by simpa using hall c (by simp [hcs])
    have hback : (cs.reverse.dropWhile (· == '/')).dropWhile (· != '/') = [] := by
      refine List.dropWhile_eq_nil_iff.2 fun d hd => hall d ?_
      have hmem := (List.dropWhile_suffix _).subset hd
      simp [hcs, List.mem_reverse.1 hmem]
    simp [directoryOf, Path.parent, within, hroot, hcs, hback, hc]
  · obtain ⟨c, cs, hcs⟩ :=
      List.exists_cons_of_ne_nil (show directory.toList ≠ [] by simpa using hroot)
    have hc : c ≠ '/' := by simpa [hcs] using hrelative
    have hp : (within directory name).toList = c :: (cs ++ '/' :: name.toList) := by
      simp [within, hroot, hcs]
    have hlast : (name.toList.reverse ++ '/' :: cs.reverse).dropWhile (· == '/') =
        name.toList.reverse ++ '/' :: cs.reverse := by
      obtain ⟨d, ds, hr⟩ := List.exists_cons_of_ne_nil
        (show name.toList.reverse ≠ [] by simpa using hname)
      have hd : d ≠ '/' := by simpa using hall d (List.mem_reverse.1 (by simp [hr]))
      simp [hr, hd]
    have hback : ((cs ++ '/' :: name.toList).reverse.dropWhile (· == '/')).dropWhile (· != '/') =
        '/' :: cs.reverse := by
      rw [List.reverse_append, List.reverse_cons, List.append_assoc, List.singleton_append, hlast,
        List.dropWhile_append_of_pos fun d hd => hall d (List.mem_reverse.1 hd)]
      simp
    have hparent : Path.parent (within directory name) = directory := by
      simp only [Path.parent, hp, hback, hc, false_and, if_false, List.reverse_reverse, ← hcs,
        String.ofList_toList]
    simp [directoryOf, hparent, hdot]

end Manifest

namespace Entry

/-- An entry is **given by** manifests of one name when it says of its
place what the path of its manifest says. -/
structure GivenBy (name : String) (e : Entry) : Prop where
  manifest_eq : e.manifest = Manifest.within e.directory name
  depth_eq : e.depth = Manifest.depthOf e.directory

/-- The entries that are read from a manifest are made of its rows. -/
theorem exists_entryOf_of_parse {path text : String} {m : Manifest} {e : Entry}
    (hm : Manifest.parse path text = .ok m) (he : e ∈ m.entries) :
    ∃ row i, e = Manifest.entryOf path row i := by
  unfold Manifest.parse at hm
  split at hm
  · cases hm
  · split at hm
    · cases hm
    · cases hm
      obtain ⟨⟨row, i⟩, -, rfl⟩ := List.mem_map.1 he
      exact ⟨row, i, rfl⟩

/-- They lie in its directory. -/
theorem directory_of_parse {path text : String} {m : Manifest} {e : Entry}
    (hm : Manifest.parse path text = .ok m) (he : e ∈ m.entries) :
    e.directory = Manifest.directoryOf path := by
  obtain ⟨row, i, rfl⟩ := exists_entryOf_of_parse hm he
  rfl

/-- They know the path of the manifest. -/
theorem manifest_of_parse {path text : String} {m : Manifest} {e : Entry}
    (hm : Manifest.parse path text = .ok m) (he : e ∈ m.entries) : e.manifest = path := by
  obtain ⟨row, i, rfl⟩ := exists_entryOf_of_parse hm he
  rfl

/-- They are given by its name. -/
theorem givenBy_of_parse {directory name text : String} {m : Manifest} {e : Entry}
    (hname : name ≠ "") (hslash : '/' ∉ name.toList)
    (hrelative : directory.toList.head? ≠ some '/') (hdot : directory ≠ ".")
    (hm : Manifest.parse (Manifest.within directory name) text = .ok m) (he : e ∈ m.entries) :
    GivenBy name e := by
  have hdirectory := Manifest.directoryOf_within hname hslash hrelative hdot
  obtain ⟨row, i, rfl⟩ := exists_entryOf_of_parse hm he
  exact ⟨by simp [Manifest.entryOf, hdirectory], rfl⟩

/-- An entry that matches a path lies in a directory on the way to it. -/
theorem below_of_isMatch {e : Entry} {path : String} (h : e.isMatch path = true) :
    e.directory = "" ∨ ∃ rest, path.toList = e.directory.toList ++ '/' :: rest := by
  unfold isMatch pathBelow? at h
  by_cases hroot : e.directory = ""
  · exact Or.inl hroot
  · rw [if_neg hroot] at h
    cases hb : Path.below? e.directory path with
    | none => simp [hb] at h
    | some rest =>
        obtain ⟨cs, hcs, rfl⟩ := Option.map_eq_some_iff.1 hb
        exact Or.inr ⟨cs, by simpa using dropStart?_eq_some_iff.1 hcs⟩

/-- Two directories on the way to one path with equally many slashes are
the same. -/
theorem eq_of_count_slash_eq {d d' r r' : List Char} (h : d ++ '/' :: r = d' ++ '/' :: r')
    (hcount : d.count '/' = d'.count '/') : d = d' := by
  rcases List.append_eq_append_iff.1 h with ⟨t, hd', hr⟩ | ⟨t, hd, hr⟩
  all_goals
    cases t with
    | nil => simp_all
    | cons c t =>
        obtain ⟨rfl, -⟩ := List.cons.inj hr
        simp_all

/-- Of the manifests of one name no two at the same depth match one
path. -/
theorem manifest_eq_of_depth_eq {name path : String} {a b : Entry} (ha : GivenBy name a)
    (hb : GivenBy name b) (hapath : a.isMatch path = true) (hbpath : b.isMatch path = true)
    (hdepth : a.depth = b.depth) : a.manifest = b.manifest := by
  have hdirectory : a.directory = b.directory := by
    rw [ha.depth_eq, hb.depth_eq] at hdepth
    by_cases hra : a.directory = "" <;> by_cases hrb : b.directory = ""
    · rw [hra, hrb]
    · rw [hra, Manifest.depthOf_eq hrb] at hdepth
      simp [Manifest.depthOf] at hdepth
    · rw [hrb, Manifest.depthOf_eq hra] at hdepth
      simp [Manifest.depthOf] at hdepth
    · rw [Manifest.depthOf_eq hra, Manifest.depthOf_eq hrb] at hdepth
      obtain ⟨r, hr⟩ := (below_of_isMatch hapath).resolve_left hra
      obtain ⟨r', hr'⟩ := (below_of_isMatch hbpath).resolve_left hrb
      exact String.toList_injective
        (eq_of_count_slash_eq (hr.symm.trans hr') (Nat.succ.inj hdepth))
  rw [ha.manifest_eq, hb.manifest_eq, hdirectory]

/-- The manifest of an entry and its position there. -/
def place (e : Entry) : String × Nat :=
  (e.manifest, e.index)

/-- An entry **applies** to a path when it matches it and no later entry of
its manifest does. -/
structure Applies (entries : List Entry) (path : String) (e : Entry) : Prop where
  mem : e ∈ entries
  isMatch : e.isMatch path = true
  last : ∀ a ∈ entries, a.isMatch path = true → a.manifest = e.manifest → a.index ≤ e.index

theorem map_manifest_supersede (chosen : List Entry) (a : Entry) :
    (supersede chosen a).map manifest =
      if a.manifest ∈ chosen.map manifest then chosen.map manifest
      else chosen.map manifest ++ [a.manifest] := by
  induction chosen with
  | nil => simp [supersede]
  | cons b rest ih =>
      by_cases hb : b.manifest = a.manifest
      · by_cases hi : b.index < a.index <;> simp [supersede, hb, hi]
      · simp only [supersede, hb, if_false, List.map_cons, ih, List.mem_cons, Ne.symm hb, false_or]
        split <;> rfl

/-- An entry that is taken in stands in for the one of its manifest, and
leaves the others alone. -/
theorem mem_supersede {chosen : List Entry} (hchosen : (chosen.map manifest).Nodup)
    {a x : Entry} : x ∈ supersede chosen a ↔
      (x ∈ chosen ∧ (x.manifest = a.manifest → a.index ≤ x.index)) ∨
        (x = a ∧ ∀ b ∈ chosen, b.manifest = a.manifest → b.index < a.index) := by
  induction chosen with
  | nil => simp [supersede]
  | cons b rest ih =>
      simp only [List.map_cons, List.nodup_cons, List.mem_map, not_exists, not_and] at hchosen
      obtain ⟨hb, hrest⟩ := hchosen
      by_cases hm : b.manifest = a.manifest
      · have hother : ∀ c ∈ rest, c.manifest ≠ a.manifest :=
          fun c hc he => hb c hc (he.trans hm.symm)
        by_cases hi : b.index < a.index <;> simp only [supersede, hm, hi, if_true, if_false]
        all_goals grind
      · simp only [supersede, hm, if_false, List.mem_cons, ih hrest]
        grind

theorem lastOfEach_append (entries : List Entry) (a : Entry) :
    lastOfEach (entries ++ [a]) = supersede (lastOfEach entries) a := by
  simp [lastOfEach]

theorem mem_of_mem_supersede {chosen : List Entry} {a x : Entry}
    (h : x ∈ supersede chosen a) : x ∈ chosen ∨ x = a := by
  induction chosen with
  | nil => simpa [supersede] using h
  | cons b rest ih => grind [supersede]

theorem mem_of_mem_lastOfEach {entries : List Entry} {e : Entry}
    (h : e ∈ lastOfEach entries) : e ∈ entries := by
  induction entries using List.reverseRecOn with
  | nil => exact h
  | append_singleton entries a ih =>
      rw [lastOfEach_append] at h
      rcases mem_of_mem_supersede h with h | rfl
      · exact List.mem_append_left _ (ih h)
      · simp

theorem mem_map_manifest_lastOfEach {entries : List Entry} {m : String} :
    m ∈ (lastOfEach entries).map manifest ↔ m ∈ entries.map manifest := by
  induction entries using List.reverseRecOn with
  | nil => rfl
  | append_singleton entries a ih =>
      rw [lastOfEach_append, map_manifest_supersede]
      split
      · next h => grind
      · next h => grind

theorem nodup_map_manifest_lastOfEach (entries : List Entry) :
    ((lastOfEach entries).map manifest).Nodup := by
  induction entries using List.reverseRecOn with
  | nil => exact .nil
  | append_singleton entries a ih =>
      rw [lastOfEach_append, map_manifest_supersede]
      split
      · exact ih
      · next h => exact List.nodup_append.2 ⟨ih, by simp, by grind⟩

/-- The entries that are left are those that come last in their
manifests. -/
theorem mem_lastOfEach {entries : List Entry} (hplaces : (entries.map place).Nodup)
    {e : Entry} : e ∈ lastOfEach entries ↔
      e ∈ entries ∧ ∀ a ∈ entries, a.manifest = e.manifest → a.index ≤ e.index := by
  -- Entries are taken in from the first to the last, so the last is split off.
  induction entries using List.reverseRecOn generalizing e with
  | nil => simp [lastOfEach]
  | append_singleton entries a ih =>
      rw [List.map_append, List.nodup_append] at hplaces
      obtain ⟨hentries, -, hnew⟩ := hplaces
      have hfresh : ∀ b ∈ entries, b.manifest = a.manifest → b.index ≠ a.index :=
        fun b hb hm hi => hnew (place b) (List.mem_map_of_mem hb) (place a) (by simp)
          (Prod.ext hm hi)
      have hlatest : ∀ b ∈ entries, b.manifest = a.manifest →
          ∃ c ∈ lastOfEach entries, c.manifest = a.manifest ∧ b.index ≤ c.index := by
        intro b hb hm
        obtain ⟨c, hc, hcm⟩ := List.mem_map.1
          (mem_map_manifest_lastOfEach.2 (List.mem_map_of_mem (f := manifest) hb))
        exact ⟨c, hc, hcm.trans hm, ((ih hentries).1 hc).2 b hb hcm.symm⟩
      rw [lastOfEach_append, mem_supersede (nodup_map_manifest_lastOfEach entries), ih hentries]
      constructor
      · rintro (⟨⟨he, hlast⟩, ha⟩ | ⟨rfl, hlast⟩)
        · grind
        · grind
      · rintro ⟨he, hlast⟩
        rcases List.mem_append.1 he with he | he
        · grind
        · grind

/-- The entries of the list of applicable ones are those that apply. -/
theorem mem_applicable {entries : List Entry} (hplaces : (entries.map place).Nodup)
    {path : String} {e : Entry} : e ∈ applicable entries path ↔ Applies entries path e := by
  have hmatching : ((entries.filter (·.isMatch path)).map place).Nodup :=
    hplaces.sublist (List.filter_sublist.map place)
  rw [applicable, byDepth, List.mem_mergeSort, mem_lastOfEach hmatching]
  constructor
  · rintro ⟨he, hlast⟩
    obtain ⟨hmem, hmatch⟩ := List.mem_filter.1 he
    exact ⟨hmem, hmatch, fun a ha ham => hlast a (List.mem_filter.2 ⟨ha, ham⟩)⟩
  · rintro ⟨hmem, hmatch, hlast⟩
    refine ⟨List.mem_filter.2 ⟨hmem, hmatch⟩, fun a ha => ?_⟩
    obtain ⟨ha, ham⟩ := List.mem_filter.1 ha
    exact hlast a ha ham

/-- The entries that apply go strictly from the shallowest to the
deepest. -/
theorem pairwise_applicable {name : String} {entries : List Entry}
    (hgiven : ∀ e ∈ entries, GivenBy name e) (path : String) :
    (applicable entries path).Pairwise fun a b => a.depth < b.depth := by
  have hsorted : (applicable entries path).Pairwise fun a b => decide (a.depth ≤ b.depth) = true :=
    List.pairwise_mergeSort (fun a b c => by simpa using le_trans)
      (fun a b => by simpa using le_total a.depth b.depth) _
  have hperm := List.mergeSort_perm (lastOfEach (entries.filter (·.isMatch path)))
    fun a b => decide (a.depth ≤ b.depth)
  have hmanifests : (applicable entries path).Pairwise fun a b => a.manifest ≠ b.manifest :=
    List.pairwise_map.1 ((hperm.map manifest).nodup_iff.2 (nodup_map_manifest_lastOfEach _))
  have hmem : ∀ e ∈ applicable entries path, e ∈ entries ∧ e.isMatch path = true := by
    intro e he
    have hlast := List.mem_mergeSort.1 he
    exact List.mem_filter.1 (mem_of_mem_lastOfEach hlast)
  refine (hsorted.and hmanifests).imp_of_mem ?_
  rintro a b ha hb ⟨hle, hne⟩
  refine lt_of_le_of_ne (by simpa using hle) fun hdepth => hne ?_
  exact manifest_eq_of_depth_eq (hgiven a (hmem a ha).1) (hgiven b (hmem b hb).1)
    (hmem a ha).2 (hmem b hb).2 hdepth

end Entry

end LicenseAudit
