import LicenseAudit.Proofs.Pool

/-!
# Runs on record

The record of a run says in order which items a worker took and the work on
which items ended.  Every run has one (`Reaches.exists_records`), and the
moves of a pool number the items as they are taken, so the items that the
record of a run starts are the first ones, each once (`started_eq`).

What becomes of the items does not depend on what the work returns for them.
A pool that **forgets** its results moves like the pool itself, and for work
that always succeeds it satisfies the invariant of steady work.  From that
follows what a pool does with its items whoever moves when: none is taken
twice, no more are in flight than workers were asked for or items are there,
and at the end each was taken once and the answer has what the work on it
returned, in the order of the items (`answer_of_records`).

The run with a clock is one of these runs, and it comes to its end
(`Timed.records_run`).
-/

namespace LicenseAudit.Pool

variable {σ ε α β : Type} {work : Nat → σ → Except ε α × σ} {size : Nat} {p q : Pool σ ε α}
variable {record : List Occurrence}

/-- What is seen when the work on an item ends. -/
def Occurrence.ofOutcome (i : Nat) : Except ε α → Occurrence
  | .ok _ => .done i
  | .error _ => .failed i

/-- A run on **record**: what is seen of the moves that lead from one state to
another. -/
inductive Records (work : Nat → σ → Except ε α × σ) (size : Nat) (p : Pool σ ε α) :
    List Occurrence → Pool σ ε α → Prop
  | refl : Records work size p [] p
  | take {record : List Occurrence} {q : Pool σ ε α} : Records work size p record q →
      0 < q.idle → q.next < size → Records work size p (record ++ [.start q.next]) q.take
  | finish {record : List Occurrence} {q : Pool σ ε α} (i : Nat) : Records work size p record q →
      i ∈ q.running →
      Records work size p (record ++ [.ofOutcome i (work i q.shared).1])
        (q.finish i (work i q.shared).1 (work i q.shared).2)

/-- In a run on record an item was **worked off with** a shared value when this
is the value that the moves before the end of the work on the item led to. -/
def WorkedOffWith (work : Nat → σ → Except ε α × σ) (size : Nat) (p : Pool σ ε α)
    (record : List Occurrence) (i : Nat) (s : σ) : Prop :=
  ∃ before after q, record = before ++ .done i :: after ∧ Records work size p before q ∧ q.shared = s

theorem WorkedOffWith.append {i : Nat} {s : σ} (h : WorkedOffWith work size p record i s)
    (more : List Occurrence) : WorkedOffWith work size p (record ++ more) i s := by
  obtain ⟨before, after, q, rfl, hq, hs⟩ := h
  exact ⟨before, after ++ more, q, by simp, hq, hs⟩

theorem Records.reaches (h : Records work size p record q) : Reaches work size p q := by
  induction h with
  | refl => exact .refl p
  | take _ hidle hnext ih => exact .step ih (.take _ hidle hnext)
  | finish i _ hi ih => exact .step ih (.finish _ i hi)

/-- Every run can be recorded. -/
theorem Reaches.exists_records (h : Reaches work size p q) :
    ∃ record, Records work size p record q := by
  induction h with
  | refl => exact ⟨[], .refl⟩
  | step _ hmove ih =>
      obtain ⟨record, hrecord⟩ := ih
      cases hmove with
      | take hidle hnext => exact ⟨_, .take hrecord hidle hnext⟩
      | finish i hi => exact ⟨_, .finish i hrecord hi⟩

/-- The item that was taken. -/
def Occurrence.started? : Occurrence → Option Nat
  | .start i => some i
  | _ => none

/-- The item that the work succeeded on. -/
def Occurrence.done? : Occurrence → Option Nat
  | .done i => some i
  | _ => none

/-- The items that were taken, in order. -/
def started (record : List Occurrence) : List Nat :=
  record.filterMap Occurrence.started?

theorem mem_started {i : Nat} : i ∈ started record ↔ .start i ∈ record := by
  rw [started, List.mem_filterMap]
  constructor
  · rintro ⟨o, ho, hi⟩
    cases o <;> cases hi
    exact ho
  · intro h
    exact ⟨.start i, h, rfl⟩

theorem started_append_ofOutcome (record : List Occurrence) (i : Nat) (outcome : Except ε α) :
    started (record ++ [.ofOutcome i outcome]) = started record := by
  rw [started, List.filterMap_append]
  cases outcome <;> exact List.append_nil _

namespace Records

variable {asked : Int} {s : σ}

/-- Items are taken in their order. -/
theorem started_eq (h : Records work size (start asked size s) record q) :
    started record = List.range q.next := by
  induction h with
  | refl => rfl
  | @take record q _ _ _ ih =>
      have hlast : started (record ++ [.start q.next]) = started record ++ [q.next] := by
        rw [started, List.filterMap_append]
        rfl
      rw [hlast, ih]
      exact List.range_succ.symm
  | @finish record q i _ _ ih =>
      rw [started_append_ofOutcome, ih]
      cases (work i q.shared).1 <;> rfl

/-- The items with a result are those that the work succeeded on. -/
theorem map_fst_results (h : Records work size (start asked size s) record q) :
    q.results.map Prod.fst = record.filterMap Occurrence.done? := by
  induction h with
  | refl => rfl
  | take _ _ _ ih =>
      rw [List.filterMap_append, ← ih]
      exact (List.append_nil _).symm
  | @finish record q i _ _ ih =>
      rw [List.filterMap_append, ← ih]
      cases (work i q.shared).1 with
      | ok a => exact List.map_append
      | error e => exact (List.append_nil _).symm

theorem mem_map_fst_results {i : Nat} (h : Records work size (start asked size s) record q) :
    i ∈ q.results.map Prod.fst ↔ .done i ∈ record := by
  rw [h.map_fst_results, List.mem_filterMap]
  constructor
  · rintro ⟨o, ho, hi⟩
    cases o <;> cases hi
    exact ho
  · intro hi
    exact ⟨.done i, hi, rfl⟩

/-- What is in flight are items. -/
theorem lt_of_mem_running (h : Records work size (start asked size s) record q) {i : Nat}
    (hi : i ∈ q.running) : i < size := by
  induction h with
  | refl => cases hi
  | take _ _ hnext ih =>
      rcases List.mem_append.1 hi with hi | hi
      · exact ih hi
      · rwa [List.mem_singleton.1 hi]
  | @finish record q j _ _ ih =>
      refine ih (List.mem_of_mem_erase (b := j) ?_)
      cases houtcome : (work j q.shared).1 <;> rwa [houtcome] at hi

/-- A result is what the work on its item returned when the item was worked
off. -/
theorem exists_workedOffWith (h : Records work size (start asked size s) record q) {i : Nat}
    {a : α} (ha : (i, a) ∈ q.results) :
    ∃ t, WorkedOffWith work size (start asked size s) record i t ∧ (work i t).1 = .ok a := by
  induction h with
  | refl => cases ha
  | take _ _ _ ih =>
      obtain ⟨t, ht, hreturned⟩ := ih ha
      exact ⟨t, ht.append _, hreturned⟩
  | @finish record q j hrecord _ ih =>
      have hearlier (hmem : (i, a) ∈ q.results) (o : Occurrence) :
          ∃ t, WorkedOffWith work size (start asked size s) (record ++ [o]) i t ∧
            (work i t).1 = .ok a := by
        obtain ⟨t, ht, hreturned⟩ := ih hmem
        exact ⟨t, ht.append _, hreturned⟩
      cases houtcome : (work j q.shared).1 with
      | error e =>
          rw [houtcome] at ha
          exact hearlier ha _
      | ok b =>
          rw [houtcome] at ha
          rcases List.mem_append.1 ha with ha | ha
          · exact hearlier ha _
          · obtain ⟨rfl, rfl⟩ := Prod.mk.inj (List.mem_singleton.1 ha)
            exact ⟨q.shared, ⟨record, [], q, rfl, hrecord, rfl⟩, houtcome⟩

end Records

/-- A pool without what the work returned. -/
def forget (p : Pool σ ε α) : Pool σ ε Unit :=
  { p with results := p.results.map fun (i, _) => (i, ()) }

/-- Work that does not tell what it returns. -/
def forgetting (work : Nat → σ → Except ε α × σ) (i : Nat) (s : σ) : Except ε Unit × σ :=
  ((work i s).1.map fun _ => (), (work i s).2)

theorem forget_finish (p : Pool σ ε α) (i : Nat) (outcome : Except ε α) (s : σ) :
    (p.finish i outcome s).forget = p.forget.finish i (outcome.map fun _ => ()) s := by
  cases outcome with
  | ok a => simp [finish, forget, Except.map]
  | error e => rfl

theorem map_fst_results_forget (p : Pool σ ε α) :
    p.forget.results.map Prod.fst = p.results.map Prod.fst := by
  simp [forget, Function.comp_def]

/-- A pool that forgets its results moves like the pool. -/
theorem Reaches.forget (h : Reaches work size p q) :
    Reaches (forgetting work) size p.forget q.forget := by
  induction h with
  | refl => exact .refl _
  | @step q r _ hmove ih =>
      cases hmove with
      | take hidle hnext => exact .step ih (.take q.forget hidle hnext)
      | finish i hi =>
          rw [forget_finish]
          exact .step ih (.finish q.forget i hi)

/-- Work that always succeeds is steady when what it returns is forgotten. -/
theorem steady_forgetting (hwork : ∀ i < size, ∀ s, ∃ a, (work i s).1 = .ok a) :
    Steady (forgetting work) size (fun _ => True) fun _ => () where
  returns i hi s _ := by
    obtain ⟨a, ha⟩ := hwork i hi s
    rw [forgetting, ha]
    rfl
  keeps _ _ _ _ := trivial

/-- What holds at any moment of a run of work that always succeeds. -/
theorem Reaches.invariant_forget (hwork : ∀ i < size, ∀ s, ∃ a, (work i s).1 = .ok a)
    {asked : Int} {s : σ} (h : Reaches work size (start asked size s) q) :
    Invariant (workerCount asked size) size (fun _ => True) (fun _ => ()) q.forget :=
  (invariant_start asked size trivial).reaches (steady_forgetting hwork) h.forget

/-- Work **calls** a function on some items when the work on one of them is to
call the function with the item, its index and the value that the workers
share, and to return what the function returns. -/
def Calls (items : List β) (call : β → Nat → σ → α × σ) (work : Nat → σ → Except ε α × σ) :
    Prop :=
  ∀ i (hi : i < items.length) s, work i s = (.ok (call items[i] i s).1, (call items[i] i s).2)

theorem Calls.exists_ok {items : List β} {call : β → Nat → σ → α × σ}
    (hwork : Calls items call work) : ∀ i < items.length, ∀ s, ∃ a, (work i s).1 = .ok a :=
  fun i hi s => ⟨(call items[i] i s).1, congrArg Prod.fst (hwork i hi s)⟩

/-- When something is found at every index, all of it is found in order. -/
theorem getElem?_filterMap_range {found : Nat → Option α} (h : ∀ i < size, ∃ a, found i = some a) :
    ((List.range size).filterMap found).length = size ∧
      ∀ i < size, ((List.range size).filterMap found)[i]? = found i := by
  induction size with
  | zero => exact ⟨rfl, fun _ hi => absurd hi (Nat.not_lt_zero _)⟩
  | succ n ih =>
      obtain ⟨hlength, hfound⟩ := ih fun i hi => h i (Nat.lt_succ_of_lt hi)
      obtain ⟨a, ha⟩ := h n (Nat.lt_succ_self n)
      have hlast : (List.range (n + 1)).filterMap found =
          (List.range n).filterMap found ++ [a] := by
        rw [List.range_succ, List.filterMap_append]
        simp [ha]
      rw [hlast]
      refine ⟨by simp [hlength], fun i hi => ?_⟩
      rcases Nat.lt_succ_iff_lt_or_eq.1 hi with hi | rfl
      · rw [List.getElem?_append_left (hlength.symm ▸ hi), hfound i hi]
      · rw [List.getElem?_append_right (Nat.le_of_eq hlength), hlength, Nat.sub_self, ha]
        rfl

section Items

variable {items : List β} {call : β → Nat → σ → α × σ} {asked : Int} {s : σ}

/-- In flight are the items that were taken and not worked off. -/
theorem mem_running_iff (hwork : ∀ i < size, ∀ s, ∃ a, (work i s).1 = .ok a)
    (h : Records work size (start asked size s) record q) {i : Nat} :
    i ∈ q.running ↔ .start i ∈ record ∧ .done i ∉ record := by
  have hclaimed := (h.reaches.invariant_forget hwork).claimed
  rw [map_fst_results_forget] at hclaimed
  have hmem : i ∈ q.running ∨ i ∈ q.results.map Prod.fst ↔ i ∈ started record := by
    rw [h.started_eq, ← List.mem_append]
    exact hclaimed.mem_iff
  have hapart : i ∈ q.running → i ∉ q.results.map Prod.fst := by
    intro hrunning hresult
    have hnodup := hclaimed.nodup_iff.2 List.nodup_range
    exact (List.nodup_append.1 hnodup).2.2 i hrunning i hresult rfl
  rw [← mem_started, ← h.mem_map_fst_results, ← hmem]
  tauto

/-- There are no more items in flight than workers were asked for, and no more
than items. -/
theorem length_running_le (hwork : ∀ i < size, ∀ s, ∃ a, (work i s).1 = .ok a)
    (hasked : 1 ≤ asked) (h : Reaches work size (start asked size s) q) :
    (q.running.length : Int) ≤ min asked size := by
  have hinvariant := h.invariant_forget hwork
  have hstaff : q.idle + q.running.length = workerCount asked size := hinvariant.staff
  have hclaimed := hinvariant.claimed.length_eq
  have hnext : q.next ≤ size := hinvariant.next_le
  rw [List.length_append, List.length_range] at hclaimed
  have hrunning : q.running.length ≤ q.next := Nat.le.intro hclaimed
  rw [workerCount] at hstaff
  omega

/-- At its end a pool has taken all items and has a result for each. -/
theorem exists_lookup_of_isDone (hwork : ∀ i < size, ∀ s, ∃ a, (work i s).1 = .ok a)
    (h : Reaches work size (start asked size s) q) (hdone : q.IsDone size) :
    q.next = size ∧ ∀ i < size, ∃ a, q.results.lookup i = some a := by
  have hinvariant := h.invariant_forget hwork
  have hnext : q.next = size := hinvariant.next_eq_of_isDone (workerCount_pos asked size) hdone
  refine ⟨hnext, fun i hi => ?_⟩
  have hclaimed : (q.running ++ q.forget.results.map Prod.fst).Perm (List.range q.next) :=
    hinvariant.claimed
  rw [hdone.1, List.nil_append, map_fst_results_forget, hnext] at hclaimed
  obtain ⟨entry, hentry, rfl⟩ := List.mem_map.1 (hclaimed.mem_iff.2 (List.mem_range.2 hi))
  refine Option.ne_none_iff_exists'.1 fun hnone => ?_
  simpa using List.lookup_eq_none_iff.1 hnone entry hentry

/-- **Every item is taken once, and the results keep the order of the
items**: whoever moves when, no item is taken twice, and in flight, where the
items are that were taken and not worked off, are at most as many as workers
were asked for and items are there.  The pool can come to its end; there
every item was taken once, and the answer has at the place of each item what
the call with it returned. -/
theorem answer_of_records (hwork : Calls items call work) (hasked : 1 ≤ asked)
    (h : Records work items.length (start asked items.length s) record q) :
    (started record).Nodup ∧ (∀ i ∈ started record, i < items.length) ∧
      (∀ i, i ∈ q.running ↔ .start i ∈ record ∧ .done i ∉ record) ∧
      (q.running.length : Int) ≤ min asked items.length ∧
      (∃ r, Reaches work items.length q r ∧ r.IsDone items.length) ∧
      (q.IsDone items.length →
        (started record).Perm (List.range items.length) ∧
        ∃ values, q.answer items.length = .ok values ∧ values.length = items.length ∧
          ∀ i (hi : i < items.length),
            ∃ t, WorkedOffWith work items.length (start asked items.length s) record i t ∧
              values[i]? = some (call items[i] i t).1) := by
  have hok := hwork.exists_ok
  have hinvariant := h.reaches.invariant_forget hok
  have hnext : q.next ≤ items.length := hinvariant.next_le
  refine ⟨?_, ?_, fun i => mem_running_iff hok h, length_running_le hok hasked h.reaches,
    exists_reaches_isDone work items.length q, fun hdone => ?_⟩
  · rw [h.started_eq]
    exact List.nodup_range
  · intro i hi
    rw [h.started_eq] at hi
    exact Nat.lt_of_lt_of_le (List.mem_range.1 hi) hnext
  · obtain ⟨hall, hlookup⟩ := exists_lookup_of_isDone hok h.reaches hdone
    obtain ⟨hlength, hvalues⟩ := getElem?_filterMap_range hlookup
    have hunfailing : q.failure = none := hinvariant.unfailing
    refine ⟨by rw [h.started_eq, hall], _, by rw [answer, hunfailing], hlength, fun i hi => ?_⟩
    obtain ⟨a, ha⟩ := hlookup i hi
    obtain ⟨before, after, hresults, -⟩ := List.lookup_eq_some_iff.1 ha
    have hmem : (i, a) ∈ q.results := by simp [hresults]
    obtain ⟨t, ht, hreturned⟩ := h.exists_workedOffWith hmem
    refine ⟨t, ht, ?_⟩
    rw [hvalues i hi, ha, ← Except.ok.inj ((congrArg Prod.fst (hwork i hi t)).symm.trans hreturned)]

/-- Two workers on three items, the second item being worked off first; each
result has the number of its place in the order of the results. -/
theorem answer_of_records_numbered :
    let items := ["a", "b", "c"]
    let call : String → Nat → Nat → (String × Nat) × Nat := fun x _ n => ((x, n), n + 1)
    let work : Nat → Nat → Except Empty (String × Nat) × Nat :=
      fun i n => (.ok (items.getD i "", n), n + 1)
    let record : List Occurrence := [.start 0, .start 1, .done 1, .start 2, .done 0, .done 2]
    let q : Pool Nat Empty (String × Nat) :=
      ⟨3, 2, [], [(1, "b", 0), (0, "a", 1), (2, "c", 2)], 3, none⟩
    Calls items call work ∧ (1 : Int) ≤ 2 ∧ Records work items.length (start 2 3 0) record q ∧
      (started record).Nodup ∧ (∀ i ∈ started record, i < items.length) ∧
      (∀ i, i ∈ q.running ↔ .start i ∈ record ∧ .done i ∉ record) ∧
      (q.running.length : Int) ≤ min 2 items.length ∧
      (∃ r, Reaches work items.length q r ∧ r.IsDone items.length) ∧
      (q.IsDone items.length →
        (started record).Perm (List.range items.length) ∧
        ∃ values, q.answer items.length = .ok values ∧ values.length = items.length ∧
          ∀ i (hi : i < items.length),
            ∃ t, WorkedOffWith work items.length (start 2 3 0) record i t ∧
              values[i]? = some (call items[i] i t).1) := by
  intro items call work record q
  have hwork : Calls items call work := by
    intro i hi n
    simp [work, call, List.getD_eq_getElem?_getD, List.getElem?_eq_getElem hi]
  have hrecord : Records work items.length (start 2 3 0) record q :=
    .finish 2 (.finish 0 (.take (.finish 1 (.take (.take .refl (by decide) (by decide))
      (by decide) (by decide)) (by decide)) (by decide) (by decide)) (by decide)) (by decide)
  exact ⟨hwork, by decide, hrecord, answer_of_records hwork (by decide) hrecord⟩

end Items

namespace Timed

variable {jobs : List (Job ε α)} {work : Nat → Unit → Except ε α × Unit} {asked : Int}
variable {t u : Timed ε α}

/-- The work on a job ends as the job says. -/
def Does (jobs : List (Job ε α)) (work : Nat → Unit → Except ε α × Unit) : Prop :=
  ∀ i job, jobs[i]? = some job → (work i ()).1 = job.outcome

/-- What holds at any moment of a run with a clock: what has occurred is the
record of the pool, and due are the items in flight. -/
structure Follows (asked : Int) (jobs : List (Job ε α)) (work : Nat → Unit → Except ε α × Unit)
    (t : Timed ε α) : Prop where
  records : Records work jobs.length (start asked jobs.length ()) t.trace t.pool
  due : (t.due.map Prod.snd).Perm t.pool.running

theorem mem_of_earliest? {due : List (Nat × Nat)} {entry : Nat × Nat}
    (h : earliest? due = some entry) : entry ∈ due := by
  induction due generalizing entry with
  | nil => cases h
  | cons first rest ih =>
      unfold earliest? at h
      split at h
      · exact List.mem_cons.2 (.inl (Option.some.inj h).symm)
      · next other hother =>
          split at h
          · exact List.mem_cons.2 (.inl (Option.some.inj h).symm)
          · exact List.mem_cons.2 (.inr (ih (hother.trans h)))

theorem earliest?_eq_none {due : List (Nat × Nat)} (h : earliest? due = none) : due = [] := by
  cases due with
  | nil => rfl
  | cons first rest =>
      unfold earliest? at h
      split at h
      · cases h
      · split at h <;> cases h

/-- A move takes the next job, or ends one of those that are due. -/
theorem move?_eq_some (h : move? jobs t = some u) :
    (0 < t.pool.idle ∧ ∃ job, jobs[t.pool.next]? = some job ∧
      u = ⟨t.pool.take, t.now, t.due ++ [(t.now + job.ticks, t.pool.next)],
        t.trace ++ [.start t.pool.next]⟩) ∨
    (∃ time i job, (time, i) ∈ t.due ∧ jobs[i]? = some job ∧
      u = ⟨t.pool.finish i job.outcome (), time, t.due.erase (time, i),
        t.trace ++ [.ofOutcome i job.outcome]⟩) := by
  unfold move? at h
  split at h
  · next job hidle hjob =>
      exact .inl ⟨of_decide_eq_true hidle, job, hjob, (Option.some.inj h).symm⟩
  · split at h
    · cases h
    · next time i hearliest =>
        obtain ⟨job, hjob, rfl⟩ := Option.map_eq_some_iff.1 h
        refine .inr ⟨time, i, job, mem_of_earliest? hearliest, hjob, ?_⟩
        cases job.outcome <;> rfl

/-- Without a move no idle worker has a job left, and nothing is due unless
something is that is no job. -/
theorem move?_eq_none (h : move? jobs t = none) :
    (t.pool.idle = 0 ∨ jobs[t.pool.next]? = none) ∧
      (t.due = [] ∨ ∃ entry ∈ t.due, jobs[entry.2]? = none) := by
  unfold move? at h
  split at h
  · cases h
  · next hmove =>
      constructor
      · by_contra hleft
        rw [not_or] at hleft
        obtain ⟨job, hjob⟩ := Option.ne_none_iff_exists'.1 hleft.2
        exact hmove job (decide_eq_true (Nat.pos_of_ne_zero hleft.1)) hjob
      · split at h
        · next hnone => exact .inl (earliest?_eq_none hnone)
        · next time i hearliest =>
            exact .inr ⟨(time, i), mem_of_earliest? hearliest, Option.map_eq_none_iff.1 h⟩

namespace Follows

theorem start (asked : Int) (jobs : List (Job ε α)) (work : Nat → Unit → Except ε α × Unit) :
    Follows asked jobs work ⟨.start asked jobs.length (), 0, [], []⟩ :=
  ⟨.refl, .refl _⟩

/-- A move of the run with a clock is one of the pool. -/
theorem move (hwork : Does jobs work) (ht : Follows asked jobs work t)
    (h : move? jobs t = some u) :
    Follows asked jobs work u ∧ Step work jobs.length t.pool u.pool := by
  rcases move?_eq_some h with ⟨hidle, job, hjob, rfl⟩ | ⟨time, i, job, hdue, hjob, rfl⟩
  · obtain ⟨hnext, -⟩ := List.getElem?_eq_some_iff.1 hjob
    have hdue := ht.due.append_right [t.pool.next]
    exact ⟨⟨.take ht.records hidle hnext, by rw [List.map_append]; exact hdue⟩,
      .take _ hidle hnext⟩
  · have hi : i ∈ t.pool.running := ht.due.mem_iff.1 (List.mem_map_of_mem (f := Prod.snd) hdue)
    have houtcome : (work i t.pool.shared).1 = job.outcome := hwork i job hjob
    have hrest : ((t.due.erase (time, i)).map Prod.snd).Perm (t.pool.running.erase i) :=
      List.Perm.cons_inv <| ((List.perm_cons_erase hdue).map Prod.snd).symm.trans <|
        ht.due.trans (List.perm_cons_erase hi)
    refine ⟨⟨houtcome ▸ .finish i ht.records hi, ?_⟩, houtcome ▸ .finish _ i hi⟩
    cases job.outcome <;> exact hrest

/-- Without a move the pool has come to its end. -/
theorem isDone (ht : Follows asked jobs work t) (h : move? jobs t = none) :
    t.pool.IsDone jobs.length := by
  obtain ⟨hworkers, hdue | ⟨entry, hentry, hnone⟩⟩ := move?_eq_none h
  · have hrunning := ht.due
    rw [hdue] at hrunning
    exact ⟨hrunning.symm.eq_nil, hworkers.imp_right List.getElem?_eq_none_iff.1⟩
  · have hmem := ht.due.mem_iff.1 (List.mem_map_of_mem (f := Prod.snd) hentry)
    have hlt := ht.records.lt_of_mem_running hmem
    exact absurd (List.getElem?_eq_none_iff.1 hnone) (Nat.not_le_of_lt hlt)

/-- As many moves as are left bring the pool to its end. -/
theorem moves (hwork : Does jobs work) (ht : Follows asked jobs work t) {fuel : Nat}
    (hfuel : t.pool.movesLeft jobs.length ≤ fuel) :
    Follows asked jobs work (moves jobs fuel t) ∧ (moves jobs fuel t).pool.IsDone jobs.length := by
  induction fuel generalizing t with
  | zero =>
      have hnone : move? jobs t = none := by
        by_contra hmove
        obtain ⟨u, hu⟩ := Option.ne_none_iff_exists'.1 hmove
        have hless := (ht.move hwork hu).2.movesLeft_lt
        omega
      exact ⟨ht, ht.isDone hnone⟩
  | succ fuel ih =>
      unfold Timed.moves
      split
      · next hnone => exact ⟨ht, ht.isDone hnone⟩
      · next u hu =>
          obtain ⟨hfollows, hstep⟩ := ht.move hwork hu
          have hless := hstep.movesLeft_lt
          exact ih hfollows (by omega)

end Follows

/-- The run with a clock is a run of the pool, with what has occurred as its
record, and it goes on to the end. -/
theorem records_run (hwork : Does jobs work) (asked : Int) :
    Records work jobs.length (start asked jobs.length ()) (run asked jobs).trace
        (run asked jobs).pool ∧
      (run asked jobs).pool.IsDone jobs.length := by
  have hleft : (Pool.start asked jobs.length () : Pool Unit ε α).movesLeft jobs.length ≤
      2 * jobs.length + 1 := by
    simp [movesLeft, Pool.start]
  obtain ⟨hfollows, hdone⟩ := (Follows.start asked jobs work).moves hwork hleft
  exact ⟨hfollows.records, hdone⟩

end Timed

end LicenseAudit.Pool
