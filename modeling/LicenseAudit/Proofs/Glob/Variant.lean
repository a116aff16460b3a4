import LicenseAudit.Proofs.Glob.Placement

/-!
# Variants and the names that they accept

A variant without globstars is one section.  One with globstars is a head, a body
of sections and a tail (`exists_sectionsOf_eq`): the head takes the first names, the
tail the last, and the body stands in the middle (`fits_iff_exists_stand`).

A variant of literal segments fits what it accepts (`fits_of_acceptsPath`), and
accepts what it fits when it has **room** for its sections
(`acceptsPath_of_fits`).  With two globstars or fewer it has room
(`hasRoom_of_count_le`).
-/

namespace LicenseAudit.Glob

variable {s ps head tail : List Part} {body : List (List Part)}
variable {names front middle back : List (List Char)}

theorem sectionsOf_of_not_mem (h : .globstar ∉ ps) : sectionsOf ps = [ps] := by
  induction ps with
  | nil => rfl
  | cons p ps ih =>
      obtain ⟨hp, hps⟩ := not_or.1 (mt List.mem_cons.2 h)
      simp only [sectionsOf, ih hps, if_neg (Ne.symm hp)]

/-- Parts with a globstar are a head, the sections of the body, each after a
globstar, and a tail after the last globstar. -/
theorem exists_sectionsOf_eq (h : .globstar ∈ ps) :
    ∃ head body tail, sectionsOf ps = head :: (body ++ [tail]) ∧
      ps = head ++ (body.flatMap (.globstar :: ·) ++ .globstar :: tail) := by
  induction ps with
  | nil => cases h
  | cons p ps ih =>
      by_cases hps : .globstar ∈ ps
      · obtain ⟨head, body, tail, hsections, hparts⟩ := ih hps
        by_cases hp : p = .globstar
        · exact ⟨[], head :: body, tail, by simp [sectionsOf, hsections, hp], by simp [hparts, hp]⟩
        · exact ⟨p :: head, body, tail, by simp [sectionsOf, hsections, hp], by simp [hparts]⟩
      · obtain rfl : p = .globstar := ((List.mem_cons.1 h).resolve_right hps).symm
        exact ⟨[], [], ps, by simp [sectionsOf, sectionsOf_of_not_mem hps], rfl⟩

theorem sectionsOf_ne_nil (ps : List Part) : sectionsOf ps ≠ [] := by
  cases ps with
  | nil => exact List.cons_ne_nil _ _
  | cons p ps =>
      rw [sectionsOf]
      split
      · exact List.cons_ne_nil _ _
      · split <;> exact List.cons_ne_nil _ _

/-- The sections of literal parts are sections. -/
theorem isSection_of_mem_sectionsOf (hliteral : ∀ p ∈ ps, p.IsLiteral) (hs : s ∈ sectionsOf ps) :
    IsSection s := by
  have hempty : IsSection [] := ⟨List.not_mem_nil, nofun⟩
  induction ps generalizing s with
  | nil => exact List.mem_singleton.1 hs ▸ hempty
  | cons p ps ih =>
      obtain ⟨hp, hps⟩ := List.forall_mem_cons.1 hliteral
      rw [sectionsOf] at hs
      split at hs
      · next hsections => exact absurd hsections (sectionsOf_ne_nil ps)
      · next first others hsections =>
          have hrest : ∀ s ∈ first :: others, IsSection s := fun s hs => ih hps (hsections ▸ hs)
          obtain ⟨hfirst, hothers⟩ := List.forall_mem_cons.1 hrest
          by_cases hglobstar : p = .globstar
          · rw [if_pos hglobstar] at hs
            exact List.forall_mem_cons.2 ⟨hempty, hrest⟩ s hs
          · rw [if_neg hglobstar] at hs
            have hcons : IsSection (p :: first) :=
              ⟨by simp [Ne.symm hglobstar, hfirst.free],
                List.forall_mem_cons.2 ⟨hp, hfirst.literal⟩⟩
            exact List.forall_mem_cons.2 ⟨hcons, hothers⟩ s hs

/-- The tail takes as many names at the end as it has parts. -/
theorem tailSize?_eq_some_iff {used size : Nat} (htail : IsSection tail) (hnames : AreNames names) :
    tailSize? tail used names = some size ↔ size = tail.length ∧ ∃ before back,
      names = before ++ back ∧ used ≤ before.length ∧ Fits tail back := by
  have hlast : names.getLast? ≠ some [] := by
    intro hlast
    exact absurd rfl (hnames [] (List.mem_of_getLast? hlast)).ne_empty
  have hback (n : Nat) := acceptsAll_iff htail (hnames.of_subset (List.drop_subset n names))
  rw [tailSize?, if_neg fun h : _ ∧ _ => hlast h.1]
  constructor
  · intro h
    split at h
    · cases h
    · next hlength =>
        split at h
        · next hfits =>
            refine ⟨(Option.some.inj h).symm, _, _, (List.take_append_drop _ names).symm, ?_,
              (hback _).1 hfits⟩
            rw [List.length_take]
            omega
        · cases h
  · rintro ⟨rfl, before, back, rfl, hused, hfits⟩
    have hlength := length_eq_of_fits htail.free hfits
    have hdrop : (before ++ back).drop ((before ++ back).length - tail.length) = back := by
      rw [← hlength, List.length_append, Nat.add_sub_cancel, List.drop_left]
    rw [hdrop, if_neg (by rw [List.length_append]; omega), if_pos]
    exact (acceptsAll_iff htail (hnames.of_subset (List.subset_append_right ..))).2 hfits

/-- Names **split** into those of the head of a variant, those in the middle and
those of its tail. -/
structure Splits (head tail : List Part) (names front middle back : List (List Char)) : Prop where
  names_eq : names = front ++ (middle ++ back)
  front : Fits head front
  back : Fits tail back

theorem Splits.middle_subset (h : Splits head tail names front middle back) :
    middle ++ back ⊆ names :=
  h.names_eq ▸ List.subset_append_right front (middle ++ back)

theorem getLastD_sections (head : List Part) (body : List (List Part)) (tail : List Part) :
    (head :: (body ++ [tail])).getLastD [] = tail := by
  rw [← List.cons_append, List.getLastD_eq_getLast?, List.getLast?_concat, Option.getD_some]

theorem exists_splits_of_acceptsGlobstar (hhead : IsSection head) (htail : IsSection tail)
    (hnames : AreNames names) (hsections : sectionsOf ps = head :: (body ++ [tail]))
    (h : acceptsGlobstar ps names = true) :
    ∃ front middle back, Splits head tail names front middle back := by
  simp only [acceptsGlobstar, hsections, List.headD_cons, Bool.and_eq_true, getLastD_sections,
    acceptsFirst_iff hhead hnames] at h
  obtain ⟨hfront, hrest⟩ := h
  cases hsize : tailSize? tail head.length names with
  | none => simp [hsize] at hrest
  | some size =>
      obtain ⟨-, before, back, rfl, hlength, hback⟩ := (tailSize?_eq_some_iff htail hnames).1 hsize
      rw [List.take_append_of_le_length hlength] at hfront
      refine ⟨before.take head.length, before.drop head.length, back, ?_, hfront, hback⟩
      rw [← List.append_assoc, List.take_append_drop]

/-- What is asked of the names in the middle. -/
theorem acceptsGlobstar_of_splits (hhead : IsSection head) (htail : IsSection tail)
    (hnames : AreNames names) (hsections : sectionsOf ps = head :: (body ++ [tail]))
    (h : Splits head tail names front middle back) :
    acceptsGlobstar ps names =
      if body.isEmpty then !tail.isEmpty || !middle.isEmpty
      else body.length ≤ sectionLimit && place (!tail.isEmpty)
        (limits (front.length + middle.length) body) front.length (middle ++ back) = some true := by
  obtain ⟨rfl, hfront, hback⟩ := h
  have hhlength := length_eq_of_fits hhead.free hfront
  have htlength := length_eq_of_fits htail.free hback
  have hfirst : acceptsFirst head (front ++ (middle ++ back)) = true := by
    rwa [acceptsFirst_iff hhead hnames, List.take_left' hhlength]
  have hsize : tailSize? tail head.length (front ++ (middle ++ back)) = some tail.length := by
    refine (tailSize?_eq_some_iff htail hnames).2 ⟨rfl, front ++ middle, back, by simp, ?_, hback⟩
    rw [List.length_append]
    omega
  have hroom : (front ++ (middle ++ back)).length - tail.length = head.length + middle.length := by
    simp only [List.length_append]
    omega
  have hdrop : (front ++ (middle ++ back)).drop head.length = middle ++ back :=
    List.drop_left' hhlength
  have hmiddle : ((front ++ (middle ++ back)).take (head.length + middle.length)).drop head.length =
      middle := by
    rw [← List.append_assoc, List.take_left' (by simp [hhlength]), List.drop_left' hhlength]
  have hdots : middle.any isDots = false :=
    List.any_eq_false.2 fun name hname => by simp [isDots_eq (hnames name (by simp [hname]))]
  have hbody : ((head :: (body ++ [tail])).drop 1).dropLast = body := by simp
  simp only [acceptsGlobstar, hsections, List.headD_cons, getLastD_sections, hbody, hfirst, hsize,
    hroom, hdrop, hmiddle, hdots, hhlength, Int.natCast_add, Bool.true_and, Bool.not_false]

/-- A variant with globstars fits names when its sections stand in the middle. -/
theorem fits_iff_exists_stand (hhead : .globstar ∉ head) (hbody : ∀ s ∈ body, .globstar ∉ s) :
    Fits (head ++ (body.flatMap (.globstar :: ·) ++ .globstar :: tail)) names ↔
      ∃ front middle back rest, Splits head tail names front middle back ∧
        Stand body (middle ++ back) rest ∧ back <:+ rest ∧ (tail = [] → rest ≠ []) := by
  rw [fits_append hhead]
  simp only [fits_body hbody, fits_globstar_cons]
  constructor
  · rintro ⟨front, _, rfl, hfront, rest, hstand, run, back, rfl, hrun, hback⟩
    obtain ⟨middle, rfl⟩ := (List.suffix_append run back).trans hstand.suffix
    refine ⟨front, middle, back, run ++ back, ⟨rfl, hfront, hback⟩, hstand,
      List.suffix_append run back, fun htail hnil => hrun htail (List.append_eq_nil_iff.1 hnil).1⟩
  · rintro ⟨front, middle, back, _, ⟨rfl, hfront, hback⟩, hstand, ⟨run, rfl⟩, hend⟩
    refine ⟨front, _, rfl, hfront, _, hstand, run, back, rfl, ?_, hback⟩
    rintro rfl rfl
    exact hend rfl (by simpa using fits_nil.1 hback)

/-- The sections between the globstars of a variant. -/
def bodyOf (ps : List Part) : List (List Part) :=
  ((sectionsOf ps).drop 1).dropLast

/-- A variant has **room** for its sections when they are not too many and they
are balanced. -/
def HasRoom (ps : List Part) : Prop :=
  (bodyOf ps).length ≤ sectionLimit ∧ IsBalanced (bodyOf ps)

instance (ps : List Part) : Decidable (HasRoom ps) :=
  inferInstanceAs (Decidable (_ ∧ _))

theorem length_sectionsOf (ps : List Part) : (sectionsOf ps).length = ps.count .globstar + 1 := by
  induction ps with
  | nil => rfl
  | cons p ps ih =>
      obtain ⟨first, others, hsections⟩ := List.exists_cons_of_ne_nil (sectionsOf_ne_nil ps)
      rw [hsections] at ih
      by_cases hp : p = .globstar
      · simpa [sectionsOf, hsections, hp] using ih
      · simpa [sectionsOf, hsections, hp] using ih

/-- A variant with two globstars or fewer has room. -/
theorem hasRoom_of_count_le (h : ps.count .globstar ≤ 2) : HasRoom ps := by
  have hlength : (bodyOf ps).length ≤ 1 := by
    rw [bodyOf, List.length_dropLast, List.length_drop, length_sectionsOf]
    omega
  refine ⟨le_trans hlength (by decide), fun n hn => ?_⟩
  obtain rfl : n = 0 := by omega
  exact Nat.zero_le _

/-- No two globstars stand side by side. -/
def StandApart (ps : List Part) : Prop :=
  ¬ [.globstar, .globstar] <:+: ps

/-- Between globstars that stand apart there are no empty sections. -/
theorem StandApart.ne_nil (h : StandApart (head ++ (body.flatMap (.globstar :: ·) ++ .globstar :: tail)))
    (hs : s ∈ body) : s ≠ [] := by
  rintro rfl
  obtain ⟨before, after, rfl⟩ := List.append_of_mem hs
  obtain ⟨rest, hrest⟩ : ∃ rest, after.flatMap (Part.globstar :: ·) ++ .globstar :: tail =
      .globstar :: rest := by
    cases after <;> exact ⟨_, rfl⟩
  refine h ⟨head ++ before.flatMap (.globstar :: ·), rest, ?_⟩
  simp [hrest]

/-- **A variant fits the names that it accepts.** -/
theorem fits_of_acceptsPath (hliteral : ∀ p ∈ ps, p.IsLiteral) (hnames : AreNames names)
    (h : acceptsPath ps names = true) : Fits ps names := by
  by_cases hglobstar : .globstar ∈ ps
  · rw [acceptsPath, if_pos (List.contains_iff_mem.2 hglobstar)] at h
    obtain ⟨head, body, tail, hsections, hparts⟩ := exists_sectionsOf_eq hglobstar
    have hsection {s} (hs : s ∈ head :: (body ++ [tail])) : IsSection s :=
      isSection_of_mem_sectionsOf hliteral (hsections ▸ hs)
    have hhead := hsection List.mem_cons_self
    have htail : IsSection tail := hsection (by simp)
    have hbody {s} (hs : s ∈ body) : IsSection s := hsection (by simp [hs])
    obtain ⟨front, middle, back, hsplits⟩ :=
      exists_splits_of_acceptsGlobstar hhead htail hnames hsections h
    rw [acceptsGlobstar_of_splits hhead htail hnames hsections hsplits] at h
    rw [hparts, fits_iff_exists_stand hhead.free fun s hs => (hbody hs).free]
    cases body with
    | nil =>
        have hfree : tail = [] → middle ≠ [] := by
          rintro rfl rfl
          cases h
        refine ⟨front, middle, back, _, hsplits, rfl, List.suffix_append middle back, ?_⟩
        exact fun htail hnil => hfree htail (List.append_eq_nil_iff.1 hnil).1
    | cons s body =>
        simp only [List.isEmpty_cons, Bool.false_eq_true, if_false, Bool.and_eq_true,
          decide_eq_true_iff] at h
        obtain ⟨rest, hstand, hend, hlast⟩ := stand_of_place
          (fun p hp => hbody (fst_mem_of_mem_limits hp))
          (hnames.of_subset hsplits.middle_subset) h.2
        rw [map_fst_limits] at hstand
        refine ⟨front, middle, back, rest, hsplits, hstand, ?_, fun htail => hend (by simp [htail])⟩
        cases hlimits : (limits (front.length + middle.length) (s :: body)).getLast? with
        | none =>
            have hnil := map_fst_limits (front.length + middle.length) (s :: body)
            rw [List.getLast?_eq_none_iff.1 hlimits] at hnil
            cases hnil
        | some last =>
            have hlength := hlast last.1 last.2 hlimits
            have hexact := getLast?_limits hlimits
            rw [List.length_append] at hlength
            exact List.suffix_of_suffix_length_le (List.suffix_append middle back) hstand.suffix
              (by omega)
  · rw [acceptsPath, if_neg (mt List.contains_iff_mem.1 hglobstar)] at h
    exact (acceptsAll_iff ⟨hglobstar, hliteral⟩ hnames).1 h

/-- **A variant that has room accepts the names that it fits.** -/
theorem acceptsPath_of_fits (hliteral : ∀ p ∈ ps, p.IsLiteral) (hnames : AreNames names)
    (hapart : StandApart ps) (hroom : HasRoom ps) (h : Fits ps names) :
    acceptsPath ps names = true := by
  by_cases hglobstar : .globstar ∈ ps
  · rw [acceptsPath, if_pos (List.contains_iff_mem.2 hglobstar)]
    obtain ⟨head, body, tail, hsections, rfl⟩ := exists_sectionsOf_eq hglobstar
    have hsection {s} (hs : s ∈ head :: (body ++ [tail])) : IsSection s :=
      isSection_of_mem_sectionsOf hliteral (hsections ▸ hs)
    have hhead := hsection List.mem_cons_self
    have htail : IsSection tail := hsection (by simp)
    have hbody {s} (hs : s ∈ body) : IsSection s := hsection (by simp [hs])
    obtain ⟨hlimit, hbalanced⟩ := hroom
    simp only [bodyOf, hsections, List.drop_one, List.tail_cons, List.dropLast_concat] at hlimit hbalanced
    rw [fits_iff_exists_stand hhead.free fun s hs => (hbody hs).free] at h
    obtain ⟨front, middle, back, rest, hsplits, hstand, hback, hend⟩ := h
    rw [acceptsGlobstar_of_splits hhead htail hnames hsections hsplits]
    split
    · next hempty =>
        obtain rfl := List.isEmpty_iff.1 hempty
        obtain rfl : middle ++ back = rest := hstand
        cases tail with
        | nil => simpa [fits_nil.1 hsplits.back] using hend rfl
        | cons p tail => rfl
    · simp only [hlimit, decide_true, Bool.true_and, decide_eq_true_iff]
      refine place_of_stand (fun p hp => ?_) (hnames.of_subset hsplits.middle_subset)
        (ample_limits hbalanced _) ?_ (fun htail => hend (by simpa using htail)) ?_
      · have hmem := fst_mem_of_mem_limits hp
        exact ⟨hbody hmem, hapart.ne_nil hmem⟩
      · have hlength := hback.length_le
        rw [List.length_append]
        omega
      · rwa [map_fst_limits]
  · rw [acceptsPath, if_neg (mt List.contains_iff_mem.1 hglobstar)]
    exact (acceptsAll_iff ⟨hglobstar, hliteral⟩ hnames).2 h

/-- Two names leave room for two to the one after them, which the tail needs. -/
example :
    let part (c : Char) : Part := .segment [.plain c]
    acceptsPath [.globstar, part 'a', part 'b', .globstar, part 'c', .globstar, part 'd']
      [['a'], ['b'], ['c'], ['d']] = false := by
  cbv

end LicenseAudit.Glob
