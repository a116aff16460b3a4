import LicenseAudit.Proofs.Glob.Section

/-!
# Placing sections

The search for the sections between globstars places each as early as it can and
no later than its limit.  What it places stands (`stand_of_place`), and the last
limit leaves the tail its names.

The other limits are not all what they should be: a section leaves to those after
it the sum of as many sizes from the first section on, and where that is more than
they need, sections that stand may be missed.  With limits that are **ample**
everything that stands is placed (`place_of_stand`), for a section that can stand
later leaves no more room to those after it than one that stands early.  The limits
of **balanced** sections are ample (`ample_limits`).
-/

namespace LicenseAudit.Glob

variable {s : List Part} {placed : List (List Part × Int)} {limit index room : Int}
variable {name : List Char} {names rest run : List (List Char)} {tailed : Bool}

/-- A section that is placed stands at the first name or is placed further on. -/
theorem place_cons_cons_eq_true
    (h : place tailed ((s, limit) :: placed) index (name :: names) = some true) :
    index ≤ limit ∧
      ((acceptsFirst s (name :: names) = true ∧
          place tailed placed (index + s.length) ((name :: names).drop s.length) = some true) ∨
        place tailed ((s, limit) :: placed) (index + 1) names = some true) := by
  rw [place] at h
  split at h
  · cases h
  · next hlimit =>
      refine ⟨Int.not_lt.1 hlimit, ?_⟩
      have hfurther (hf : (if isDots name then some false
          else place tailed ((s, limit) :: placed) (index + 1) names) = some true) :
          place tailed ((s, limit) :: placed) (index + 1) names = some true := by
        split at hf
        · cases hf
        · exact hf
      simp only at h
      split at h
      · next haccepts =>
          split at h
          · exact .inr (hfurther h)
          · exact .inl ⟨haccepts, h⟩
      · exact .inr (hfurther h)

/-- A section that the first names fit is placed there when those after it are
placed. -/
theorem place_here (hlimit : index ≤ limit) (haccepts : acceptsFirst s (name :: names) = true)
    (h : place tailed placed (index + s.length) ((name :: names).drop s.length) = some true) :
    place tailed ((s, limit) :: placed) index (name :: names) = some true := by
  rw [place, if_neg (Int.not_lt.2 hlimit)]
  simp only [haccepts, h, if_true]

/-- A section that the first names do not fit is placed further on. -/
theorem place_further (hlimit : index ≤ limit) (hdots : isDots name = false)
    (haccepts : acceptsFirst s (name :: names) = false)
    (h : place tailed ((s, limit) :: placed) (index + 1) names = some true) :
    place tailed ((s, limit) :: placed) index (name :: names) = some true := by
  rw [place, if_neg (Int.not_lt.2 hlimit)]
  simp only [haccepts, hdots, h, Bool.false_eq_true, if_false]

/-- **What is placed stands**: behind the last section, which keeps its limit,
some names are left when no tail follows. -/
theorem stand_of_place (hsections : ∀ s ∈ placed, IsSection s.1) (hnames : AreNames names)
    (h : place tailed placed index names = some true) :
    ∃ rest, Stand (placed.map Prod.fst) names rest ∧ (tailed = false → rest ≠ []) ∧
      ∀ s limit, placed.getLast? = some (s, limit) →
        index + names.length ≤ limit + s.length + rest.length := by
  induction placed generalizing index names with
  | nil =>
      refine ⟨names, rfl, ?_, nofun⟩
      rintro rfl rfl
      simp [place] at h
  | cons first placed ih =>
      obtain ⟨s, limit⟩ := first
      induction names generalizing index with
      | nil => rw [place] at h; cases h
      | cons name names ihnames =>
          obtain ⟨hlimit, ⟨haccepts, hrest⟩ | hfurther⟩ := place_cons_cons_eq_true h
          · have hs : IsSection s := hsections (s, limit) List.mem_cons_self
            have hrun := (acceptsFirst_iff hs hnames).1 haccepts
            have hlength := length_eq_of_fits hs.free hrun
            obtain ⟨rest, hstand, hend, hlast⟩ :=
              ih (fun s hs => hsections s (List.mem_cons_of_mem _ hs))
                (hnames.of_subset (List.drop_subset ..)) hrest
            refine ⟨rest, ⟨[], _, _, (List.take_append_drop ..).symm, hrun, hstand⟩, hend, ?_⟩
            have hsum := congrArg List.length (List.take_append_drop s.length (name :: names))
            rw [List.length_append, hlength] at hsum
            intro s' limit' hlast'
            cases placed with
            | nil =>
                obtain ⟨rfl, rfl⟩ : s = s' ∧ limit = limit' := by simpa using hlast'
                have hrest : (name :: names).drop s.length = rest := hstand
                rw [hrest] at hsum
                omega
            | cons next placed =>
                have hnumber := hlast s' limit' (by simpa using hlast')
                omega
          · obtain ⟨rest, ⟨skipped, run, after, rfl, hrun, hstand⟩, hend, hlast⟩ :=
              ihnames (hnames.of_subset (List.subset_cons_self ..)) hfurther
            refine ⟨rest, ⟨name :: skipped, run, after, rfl, hrun, hstand⟩, hend, ?_⟩
            intro s' limit' hlast'
            have hnumber := hlast s' limit' hlast'
            rw [List.length_cons]
            omega

/-- Limits are **ample** when no section is kept from leaving just enough room
for itself and those after it. -/
def Ample (room : Int) : List (List Part × Int) → Prop
  | [] => True
  | (s, limit) :: placed =>
    room ≤ limit + totalSize (((s, limit) :: placed).map Prod.fst) ∧ Ample room placed

/-- A section that stands within its limit is placed when those after it are
placed behind any names that it leaves them. -/
theorem place_section {skipped after : List (List Char)} (hs : IsSection s) (hne : s ≠ [])
    (hrun : Fits s run) (hnames : AreNames (skipped ++ (run ++ after)))
    (hlimit : index + skipped.length ≤ limit)
    (hafter : ∀ before, AreNames (before ++ after) →
      place tailed placed (index + skipped.length + s.length - before.length) (before ++ after) =
        some true) :
    place tailed ((s, limit) :: placed) index (skipped ++ (run ++ after)) = some true := by
  have hlength := length_eq_of_fits hs.free hrun
  induction skipped generalizing index with
  | nil =>
      have hindex : index + (0 : Nat) + s.length - (0 : Nat) = index + s.length := by omega
      have hrest := hafter [] (hnames.of_subset (List.subset_append_right run after))
      rw [List.length_nil, hindex] at hrest
      obtain ⟨name, names, hsplit⟩ : ∃ name names, run ++ after = name :: names := by
        refine List.exists_cons_of_ne_nil fun hnil => hne ?_
        rw [← List.length_eq_zero_iff, ← hlength, (List.append_eq_nil_iff.1 hnil).1]
        rfl
      rw [List.nil_append] at hnames ⊢
      have haccepts : acceptsFirst s (run ++ after) = true := by
        rwa [acceptsFirst_iff hs hnames, List.take_left' hlength]
      have hdrop : (run ++ after).drop s.length = after := List.drop_left' hlength
      rw [hsplit] at haccepts hdrop ⊢
      exact place_here (by simpa using hlimit) haccepts (by rwa [hdrop])
  | cons name skipped ih =>
      have hhere : index ≤ limit := by omega
      rw [List.cons_append] at hnames ⊢
      cases haccepts : acceptsFirst s (name :: (skipped ++ (run ++ after))) with
      | true =>
          refine place_here hhere haccepts ?_
          -- The section stands earlier, and leaves more names to those after it.
          have hdrop : (name :: (skipped ++ (run ++ after))).drop s.length =
              (name :: (skipped ++ run)).drop s.length ++ after := by
            rw [← List.drop_append_of_le_length (by simp; omega)]
            simp
          have hrest := hafter _ (hdrop ▸ hnames.of_subset (List.drop_subset ..))
          have hindex : index + (name :: skipped).length + s.length -
              ((name :: (skipped ++ run)).drop s.length).length = index + s.length := by
            simp only [List.length_drop, List.length_cons, List.length_append]
            omega
          rwa [hdrop, ← hindex]
      | false =>
          have hdots := isDots_eq (hnames name List.mem_cons_self)
          have hindex : index + (name :: skipped).length = index + 1 + skipped.length := by
            rw [List.length_cons]
            omega
          rw [hindex] at hlimit hafter
          exact place_further hhere hdots haccepts
            (ih (hnames.of_subset (List.subset_cons_self ..)) hlimit hafter)

/-- **What stands is placed** when the limits are ample. -/
theorem place_of_stand (hsections : ∀ s ∈ placed, IsSection s.1 ∧ s.1 ≠ [])
    (hnames : AreNames names) (hample : Ample room placed)
    (hroom : index + names.length ≤ room + rest.length)
    (hend : tailed = false → rest ≠ []) (h : Stand (placed.map Prod.fst) names rest) :
    place tailed placed index names = some true := by
  induction placed generalizing index names rest with
  | nil =>
      obtain rfl := h
      have hdots : names.any isDots = false :=
        List.any_eq_false.2 fun name hname => by simp [isDots_eq (hnames name hname)]
      cases tailed with
      | true => simp [place, hdots]
      | false => simpa [place, hdots] using hend rfl
  | cons first placed ih =>
      obtain ⟨s, limit⟩ := first
      obtain ⟨hs, hne⟩ : IsSection s ∧ s ≠ [] := hsections (s, limit) List.mem_cons_self
      have hrest : ∀ s ∈ placed, IsSection s.1 ∧ s.1 ≠ [] := fun s hs =>
        hsections s (List.mem_cons_of_mem _ hs)
      obtain ⟨skipped, run, after, rfl, hrun, hstand⟩ := h
      have hlength : run.length = s.length := length_eq_of_fits hs.free hrun
      have hsize : totalSize (placed.map Prod.fst) + rest.length ≤ after.length :=
        hstand.length_le fun s' hs' => by
          obtain ⟨p, hp, rfl⟩ := List.mem_map.1 hs'
          exact (hrest p hp).1.free
      obtain ⟨hlimit, hample⟩ := hample
      simp only [List.map_cons, totalSize_cons] at hlimit
      simp only [List.length_append] at hroom
      refine place_section hs hne hrun hnames (by omega) fun before hbefore => ?_
      obtain ⟨rest', hstand', hle⟩ := hstand.prepend before
      refine ih hrest hbefore hample ?_ ?_ hstand'
      · rw [List.length_append]
        omega
      · rintro h rfl
        exact hend h (List.length_eq_zero_iff.1 (Nat.le_zero.1 hle))

variable {body before : List (List Part)}

theorem foldl_sizes (sections : List (List Part)) :
    (sections.map fun s => (s.length : Int)).foldl (· + ·) 0 = (totalSize sections : Int) := by
  rw [← List.sum_eq_foldl, totalSize]
  induction sections with
  | nil => rfl
  | cons s sections ih => simp [ih]

/-- The limit of the section with the number `k` of a body. -/
def limitAt (room : Int) (body : List (List Part)) (k : Nat) (s : List Part) : Int :=
  room - (totalSize (body.take (body.length - 1 - k)) + s.length)

theorem limits_eq (room : Int) (body : List (List Part)) :
    limits room body = body.zipIdx.map fun p => (p.1, limitAt room body p.2 p.1) := by
  simp only [limits, ← List.map_take, foldl_sizes, limitAt]

theorem map_fst_limits (room : Int) (body : List (List Part)) :
    (limits room body).map Prod.fst = body := by
  rw [limits_eq, List.map_map]
  exact List.zipIdx_map_fst 0 body

theorem fst_mem_of_mem_limits {p : List Part × Int} (h : p ∈ limits room body) : p.1 ∈ body := by
  rw [← map_fst_limits room body]
  exact List.mem_map_of_mem h

/-- The last limit is exact. -/
theorem getLast?_limits (h : (limits room body).getLast? = some (s, limit)) :
    limit + s.length = room := by
  rcases List.eq_nil_or_concat' body with rfl | ⟨before, last, rfl⟩
  · cases h
  · rw [limits_eq, List.zipIdx_append, List.map_append] at h
    simp only [List.zipIdx_singleton, List.map_cons, List.map_nil, List.getLast?_concat,
      Option.some.injEq, Prod.mk.injEq, limitAt, List.length_append, List.length_singleton] at h
    obtain ⟨rfl, rfl⟩ := h
    have hnumber : before.length + 1 - 1 - (0 + before.length) = 0 := by omega
    rw [hnumber, List.take_zero]
    simp [totalSize]

/-- Sections are **balanced** when the first of them are never larger than as many
of the last. -/
def IsBalanced (body : List (List Part)) : Prop :=
  ∀ n < body.length, totalSize (body.take n) ≤ totalSize (body.drop (body.length - n))

instance (body : List (List Part)) : Decidable (IsBalanced body) :=
  inferInstanceAs (Decidable (∀ n < body.length, _))

/-- The limits of balanced sections are ample. -/
theorem ample_limits (hbalanced : IsBalanced body) (room : Int) : Ample room (limits room body) := by
  rw [limits_eq]
  suffices h : ∀ suffix before, body = before ++ suffix → Ample room
      ((suffix.zipIdx before.length).map fun p => (p.1, limitAt room body p.2 p.1)) from
    h body [] rfl
  intro suffix
  induction suffix with
  | nil => exact fun _ _ => trivial
  | cons s suffix ih =>
      intro before hsplit
      have hlength : body.length = before.length + (suffix.length + 1) := by
        rw [hsplit, List.length_append, List.length_cons]
      have hrest : body.drop (body.length - suffix.length) = suffix := by
        have hdrop : body.length - suffix.length = before.length + 1 := by omega
        rw [hdrop, hsplit]
        simp
      have hsize := hbalanced suffix.length (by omega)
      rw [hrest] at hsize
      have hnext := ih (before ++ [s]) (by simp [hsplit])
      rw [List.length_append, List.length_singleton] at hnext
      refine ⟨?_, hnext⟩
      have hnumber : body.length - 1 - before.length = suffix.length := by omega
      have hsections : (suffix.zipIdx (before.length + 1)).map Prod.fst = suffix :=
        List.zipIdx_map_fst _ suffix
      simp only [List.map_cons, List.map_map, Function.comp_def, totalSize_cons, hsections, limitAt,
        hnumber]
      omega

end LicenseAudit.Glob
