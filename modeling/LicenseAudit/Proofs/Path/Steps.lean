import LicenseAudit.Proofs.Path

/-!
# The steps of paths

Following a path keeps a stack of the steps that are left.  What is left of a
rooted path are names (`isName_of_mem_steps`), and the path of some names has
just these steps (`steps_ofSteps`).

A path is **direct** when it leads down from where it starts and never above.
Then it does not matter where it starts: as seen from any directory its steps
come after those of the directory (`IsDirect.stepsFrom_eq`).

`resolve` gives paths of names only, and `relative` takes a path back that was
resolved below a directory (`relative_of_steps`).  Below a directory that is
**resolved** in this sense the path of a file is the names of both
(`join_place`).
-/

namespace LicenseAudit.Path

open Text

variable {p n : String} {names back base : List String} {rooted : Bool}

/-- The names of a path that goes on are those of both parts. -/
theorem split_append (a b : String) : split '/' (a ++ "/" ++ b) = split '/' a ++ split '/' b := by
  have hchars : (a ++ "/" ++ b).toList = a.toList ++ '/' :: b.toList := by simp
  rw [split, hchars, pieces_append, List.map_append]
  rfl

theorem no_slash_of_mem_split (h : n ∈ split '/' p) : '/' ∉ n.toList := by
  obtain ⟨piece, hpiece, rfl⟩ := List.mem_map.1 h
  simpa using not_mem_of_mem_pieces hpiece

/-- What may be left of a path after a step: names, and steps up when the path
is not rooted. -/
def IsStep (rooted : Bool) (n : String) : Prop :=
  IsName n ∨ rooted = false ∧ n = ".."

theorem IsStep.no_slash (h : IsStep rooted n) : '/' ∉ n.toList := by
  rcases h with hn | ⟨-, rfl⟩
  · exact hn.no_slash
  · decide

theorem isStep_of_mem_advance (hback : ∀ m ∈ back, IsStep rooted m) (hn : '/' ∉ n.toList) :
    ∀ m ∈ advance rooted back n, IsStep rooted m := by
  intro m hm
  unfold advance at hm
  split at hm
  · exact hback m hm
  · next hstay =>
      rw [not_or] at hstay
      split at hm
      · cases back with
        | nil =>
            cases rooted with
            | false => exact .inr ⟨rfl, List.mem_singleton.1 hm⟩
            | true => cases hm
        | cons top rest =>
            dsimp only at hm
            split at hm
            · next htop =>
                rcases List.mem_cons.1 hm with habove | hm
                · rw [habove, ← htop]
                  exact hback top List.mem_cons_self
                · exact hback m hm
            · exact hback m (List.mem_cons_of_mem _ hm)
      · next habove =>
          rcases List.mem_cons.1 hm with hm | hm
          · rw [hm]
            exact .inl ⟨hstay.1, hstay.2, habove, hn⟩
          · exact hback m hm

theorem isStep_of_mem_foldl (hnames : ∀ m ∈ names, '/' ∉ m.toList)
    (hback : ∀ m ∈ back, IsStep rooted m) :
    ∀ m ∈ names.foldl (advance rooted) back, IsStep rooted m := by
  induction names generalizing back with
  | nil => exact hback
  | cons a names ih =>
      have ha : '/' ∉ a.toList := hnames a List.mem_cons_self
      exact ih (fun m hm => hnames m (List.mem_cons_of_mem _ hm)) (isStep_of_mem_advance hback ha)

theorem isStep_of_mem_steps (h : n ∈ steps rooted p) : IsStep rooted n :=
  isStep_of_mem_foldl (fun _ => no_slash_of_mem_split) (List.forall_mem_nil _) n
    (List.mem_reverse.1 h)

/-- The steps of a rooted path are names. -/
theorem isName_of_mem_steps (h : n ∈ steps true p) : IsName n :=
  (isStep_of_mem_steps h).resolve_right fun habove => Bool.noConfusion habove.1

/-- Names are followed one after the other. -/
theorem foldl_advance_names (hnames : ∀ m ∈ names, IsName m) :
    names.foldl (advance rooted) back = names.reverse ++ back := by
  induction names generalizing back with
  | nil => rfl
  | cons a names ih =>
      have ha := hnames a List.mem_cons_self
      have hstep : advance rooted back a = a :: back := by
        simp [advance, ha.ne_empty, ha.ne_here, ha.ne_above]
      rw [List.foldl_cons, hstep, ih fun m hm => hnames m (List.mem_cons_of_mem _ hm)]
      simp

theorem split_ofSteps (names : List String) :
    split '/' (ofSteps names) = "" :: split '/' (joined names) := by
  have hempty : "/" ++ joined names = "" ++ "/" ++ joined names := by simp
  rw [ofSteps, hempty, split_append]
  rfl

/-- The absolute path of some names has these steps. -/
theorem steps_ofSteps (hnames : ∀ m ∈ names, IsName m) : steps true (ofSteps names) = names := by
  have hempty (back : List String) : advance true back "" = back := by simp [advance]
  rw [steps, split_ofSteps, List.foldl_cons, hempty]
  cases names with
  | nil => rfl
  | cons a names =>
      rw [split_joined (by simp) fun m hm => (hnames m hm).no_slash, foldl_advance_names hnames]
      simp

/-- Steps end with a name, so their path does not end with a slash. -/
theorem exists_toList_joined (hne : names ≠ []) (hnames : ∀ m ∈ names, IsStep false m) :
    ∃ cs c, (joined names).toList = cs ++ [c] ∧ c ≠ '/' := by
  obtain ⟨before, n, rfl⟩ := (List.eq_nil_or_concat' names).resolve_left hne
  obtain ⟨cs, c, hcs, hc⟩ : ∃ cs c, n.toList = cs ++ [c] ∧ c ≠ '/' := by
    rcases hnames n (by simp) with hn | ⟨-, rfl⟩
    · obtain ⟨c, cs, hcs, hc, -⟩ := hn.exists_reverse_eq
      exact ⟨cs.reverse, c, by simpa using congrArg List.reverse hcs, hc⟩
    · exact ⟨['.'], '.', rfl, by decide⟩
  cases before with
  | nil => exact ⟨cs, c, by rw [List.nil_append, joined_singleton, hcs], hc⟩
  | cons a before =>
      refine ⟨(joined (a :: before)).toList ++ '/' :: cs, c, ?_, hc⟩
      rw [joined_append (by simp) (by simp), joined_singleton]
      simp [hcs]

/-- A step above the start is never taken back. -/
theorem above_mem_foldl (h : ".." ∈ back) : ".." ∈ names.foldl (advance false) back := by
  induction names generalizing back with
  | nil => exact h
  | cons a names ih =>
      refine ih ?_
      unfold advance
      split
      · exact h
      · split
        · cases back with
          | nil => cases h
          | cons top rest =>
              dsimp only
              split
              · exact List.mem_cons_self
              · next htop => exact (List.mem_cons.1 h).resolve_left (Ne.symm htop)
        · exact List.mem_cons_of_mem _ h

/-- Steps up that are left stand before all names. -/
theorem getLast?_advance (hback : ".." ∈ back → back.getLast? = some "..")
    (h : ".." ∈ advance false back n) : (advance false back n).getLast? = some ".." := by
  unfold advance at h ⊢
  split
  · next hstay =>
      rw [if_pos hstay] at h
      exact hback h
  · next hstay =>
      rw [if_neg hstay] at h
      split
      · next habove =>
          rw [if_pos habove] at h
          cases back with
          | nil => rfl
          | cons top rest =>
              dsimp only at h ⊢
              split
              · next htop =>
                  have hlast := hback (by rw [htop]; exact List.mem_cons_self)
                  rw [List.getLast?_cons_cons, hlast]
              · next htop =>
                  rw [if_neg htop] at h
                  have hlast := hback (List.mem_cons_of_mem _ h)
                  obtain ⟨m, others, rfl⟩ := List.exists_cons_of_ne_nil (List.ne_nil_of_mem h)
                  rwa [List.getLast?_cons_cons] at hlast
      · next habove =>
          rw [if_neg habove] at h
          have hmem : ".." ∈ back := (List.mem_cons.1 h).resolve_left (Ne.symm habove)
          obtain ⟨m, others, rfl⟩ := List.exists_cons_of_ne_nil (List.ne_nil_of_mem hmem)
          rw [List.getLast?_cons_cons, hback hmem]

theorem getLast?_foldl (hback : ".." ∈ back → back.getLast? = some "..")
    (h : ".." ∈ names.foldl (advance false) back) :
    (names.foldl (advance false) back).getLast? = some ".." := by
  induction names generalizing back with
  | nil => exact hback h
  | cons a names ih => exact ih (getLast?_advance hback) h

/-- A path that leads above its start does so at its first step. -/
theorem head?_steps (h : ".." ∈ steps false p) : (steps false p).head? = some ".." := by
  have hfold := getLast?_foldl (fun hmem => absurd hmem List.not_mem_nil) (List.mem_reverse.1 h)
  rw [steps, List.head?_reverse]
  exact hfold

/-- Names that never lead above the start lead to the same steps from
anywhere. -/
theorem foldl_advance_append (h : ".." ∉ names.foldl (advance false) back) :
    names.foldl (advance true) (back ++ base) = names.foldl (advance false) back ++ base := by
  induction names generalizing back with
  | nil => rfl
  | cons a names ih =>
      have hback : ".." ∉ back := by
        intro hmem
        exact h (above_mem_foldl hmem)
      rw [List.foldl_cons] at h ⊢
      have hstep : advance true (back ++ base) a = advance false back a ++ base := by
        unfold advance
        split
        · rfl
        · split
          · next habove =>
              cases back with
              | nil =>
                  -- A step up from the start stays on the stack.
                  refine absurd (above_mem_foldl ?_) h
                  simp [advance, habove]
              | cons top rest =>
                  have htop : top ≠ ".." := fun he => hback (by simp [he])
                  simp [htop]
          · rfl
      rw [hstep, List.foldl_cons, ih h]

/-- A path is **direct** when it leads down from where it starts, and at no
step above. -/
structure IsDirect (p : String) : Prop where
  relative : isAbsolute p = false
  stays : ".." ∉ steps false p

instance (p : String) : Decidable (IsDirect p) :=
  decidable_of_iff (isAbsolute p = false ∧ ".." ∉ steps false p)
    ⟨fun ⟨hr, hs⟩ => ⟨hr, hs⟩, fun ⟨hr, hs⟩ => ⟨hr, hs⟩⟩

/-- A direct path goes on from the directory that it is seen from. -/
theorem IsDirect.stepsFrom_eq (hp : IsDirect p) (directory : String) :
    stepsFrom directory p = steps true directory ++ steps false p := by
  have hstays : ".." ∉ (split '/' p).foldl (advance false) [] := by
    intro hmem
    exact hp.stays (List.mem_reverse.2 hmem)
  have hfold := @foldl_advance_append _ [] ((split '/' directory).foldl (advance true) []) hstays
  rw [stepsFrom, hp.relative, if_neg Bool.false_ne_true, steps, split_append, List.foldl_append,
    ← List.nil_append ((split '/' directory).foldl (advance true) []), hfold, List.reverse_append]
  rfl

/-- The steps to a place that a path names are those of its absolute path. -/
theorem steps_resolve (directory p : String) :
    steps true (resolve directory p) = stepsFrom directory p :=
  steps_ofSteps fun _ => isName_of_mem_steps

/-- A path is **inside** a directory when its steps go on from those of the
directory. -/
def IsInside (directory p : String) : Prop :=
  ∃ names, names ≠ [] ∧ steps true p = steps true directory ++ names

theorem between_append (xs ys : List String) : between xs (xs ++ ys) = ys := by
  induction xs with
  | nil => cases ys <;> rfl
  | cons x xs ih => rw [List.cons_append, between, if_pos rfl, ih]

/-- The path from a directory to what lies below it leads down. -/
theorem relative_of_steps {directory : String} (h : steps true p = steps true directory ++ names) :
    relative directory p = joined names := by
  rw [relative, h, between_append]

/-- A path is **resolved** when it is the absolute path of some names. -/
def IsResolved (p : String) : Prop :=
  ∃ names, (∀ m ∈ names, IsName m) ∧ p = ofSteps names

theorem isResolved_resolve (directory p : String) : IsResolved (resolve directory p) :=
  ⟨stepsFrom directory p, fun _ => isName_of_mem_steps, rfl⟩

/-- The names of an absolute path come after an empty one. -/
theorem split_ofSteps_of_ne_nil (hne : names ≠ []) (hnames : ∀ m ∈ names, IsName m) :
    split '/' (ofSteps names) = "" :: names := by
  rw [split_ofSteps, split_joined hne fun m hm => (hnames m hm).no_slash]

theorem endsWith_slash_joined (hne : names ≠ []) (hnames : ∀ m ∈ names, IsName m)
    (before : String) : endsWith (before ++ joined names) "/" = false := by
  obtain ⟨cs, c, hcs, hc⟩ := exists_toList_joined hne fun m hm => .inl (hnames m hm)
  have hslash : ¬ '/' = c := Ne.symm hc
  simp [endsWith, dropEnd?, hcs, dropStart?, hslash]

/-- What is added to an absolute path is added to its last name. -/
theorem ofSteps_append (names : List String) (n ending : String) :
    ofSteps (names ++ [n]) ++ ending = ofSteps (names ++ [n ++ ending]) := by
  cases names with
  | nil => simp [ofSteps, joined_singleton, String.append_assoc]
  | cons a names =>
      rw [ofSteps, ofSteps, joined_append (List.cons_ne_nil _ _) (List.cons_ne_nil _ _),
        joined_append (List.cons_ne_nil _ _) (List.cons_ne_nil _ _), joined_singleton,
        joined_singleton]
      simp only [String.append_assoc]

/-- Below a resolved directory the path of a place is the names of both. -/
theorem join_place {base : List String} (hbase : ∀ m ∈ base, IsName m) (hne : names ≠ [])
    (hnames : ∀ m ∈ names, IsName m) :
    join (ofSteps base) (joined names) = ofSteps (base ++ names) := by
  have hplace : IsPlace (joined names) := ⟨names, hne, hnames, rfl⟩
  have hrooted : isAbsolute (ofSteps base ++ "/" ++ joined names) = true := by
    simp [isAbsolute, ofSteps]
  have hpath : ofSteps base ++ "/" ++ joined names ≠ "" := by
    intro he
    rw [he] at hrooted
    cases hrooted
  have hbaseSteps : (split '/' (ofSteps base)).foldl (advance true) [] = base.reverse := by
    have hreverse := congrArg List.reverse (steps_ofSteps hbase)
    rwa [steps, List.reverse_reverse] at hreverse
  have hsteps : steps true (ofSteps base ++ "/" ++ joined names) = base ++ names := by
    rw [steps, split_append, List.foldl_append, hbaseSteps,
      split_joined hne fun m hm => (hnames m hm).no_slash, foldl_advance_names hnames,
      List.reverse_append, List.reverse_reverse, List.reverse_reverse]
  rw [join, if_neg hplace.ne_empty, normalize, if_neg hpath]
  simp only [hrooted, hsteps, endsWith_slash_joined hne hnames]
  simp [ofSteps]

end LicenseAudit.Path
