import LicenseAudit.Pool
import Mathlib.Data.List.Range

/-!
# Runs of pools

Whoever moves when, a pool gives every item to one worker, keeps a result
for every item whose work has ended, and comes to its end.  `Invariant` says
what holds at any moment of a run when the work on an item is **steady**:
what it returns is the value of the item, as long as the value that the
workers share is of some kind, and it leaves that value of this kind.

`Invariant.step` is about one move and `Invariant.reaches` about a whole run,
so that at the end the results are the values of the items
(`answer_of_reaches`).  Every move leaves less to do, and a pool that is not
at its end has a move, so every run can be brought to its end
(`exists_reaches_isDone`).
-/

namespace LicenseAudit.Pool

variable {σ ε α : Type} {work : Nat → σ → Except ε α × σ} {size workers : Nat}
variable {kind : σ → Prop} {value : Nat → α} {p q r : Pool σ ε α}

/-- There is a worker at least. -/
theorem workerCount_pos (asked : Int) (size : Nat) : 0 < workerCount asked size := by
  unfold workerCount
  omega

/-- Work is **steady** when, on a shared value of a kind, the work on an
item returns the value of the item and leaves a shared value of that
kind. -/
structure Steady (work : Nat → σ → Except ε α × σ) (size : Nat) (kind : σ → Prop)
    (value : Nat → α) : Prop where
  returns : ∀ i < size, ∀ s, kind s → (work i s).1 = .ok (value i)
  keeps : ∀ i < size, ∀ s, kind s → kind (work i s).2

/-- What holds of a pool at any moment: the items before the next one are
those in flight and those with a result, each once; no worker is lost; and
a result is the value of its item. -/
structure Invariant (workers size : Nat) (kind : σ → Prop) (value : Nat → α)
    (p : Pool σ ε α) : Prop where
  next_le : p.next ≤ size
  claimed : (p.running ++ p.results.map Prod.fst).Perm (List.range p.next)
  staff : p.idle + p.running.length = workers
  result : ∀ entry ∈ p.results, entry.2 = value entry.1
  shared : kind p.shared
  unfailing : p.failure = none

theorem invariant_start (asked : Int) (size : Nat) {s : σ} (hs : kind s) :
    Invariant (workerCount asked size) size kind value (start asked size s : Pool σ ε α) where
  next_le := Nat.zero_le size
  claimed := .refl _
  staff := rfl
  result := nofun
  shared := hs
  unfailing := rfl

namespace Invariant

/-- An item in flight is one of the items. -/
theorem lt_of_mem_running (hp : Invariant workers size kind value p) {i : Nat}
    (hi : i ∈ p.running) : i < size := by
  have hmem : i ∈ List.range p.next := hp.claimed.mem_iff.1 (List.mem_append_left _ hi)
  exact Nat.lt_of_lt_of_le (List.mem_range.1 hmem) hp.next_le

theorem take (hp : Invariant workers size kind value p) (hidle : 0 < p.idle)
    (hnext : p.next < size) : Invariant workers size kind value p.take where
  next_le := hnext
  claimed := by
    have hlast : (p.running ++ [p.next] ++ p.results.map Prod.fst).Perm
        (p.running ++ p.results.map Prod.fst ++ [p.next]) := by
      rw [List.append_assoc, List.append_assoc]
      exact List.perm_append_comm.append_left p.running
    rw [Pool.take, List.range_succ]
    exact hlast.trans (hp.claimed.append_right [p.next])
  staff := by
    have hstaff := hp.staff
    simp only [Pool.take, List.length_append, List.length_singleton]
    omega
  result := hp.result
  shared := hp.shared
  unfailing := hp.unfailing

theorem finish (hp : Invariant workers size kind value p) {i : Nat} (hi : i ∈ p.running) {s : σ}
    (hs : kind s) : Invariant workers size kind value (p.finish i (.ok (value i)) s) where
  next_le := hp.next_le
  claimed := by
    have hmoved : (p.running.erase i ++ (p.results.map Prod.fst ++ [i])).Perm
        (i :: p.running.erase i ++ p.results.map Prod.fst) := by
      rw [← List.append_assoc]
      exact List.perm_append_singleton i _
    have hback := (List.perm_cons_erase hi).symm.append_right (p.results.map Prod.fst)
    simp only [Pool.finish, List.map_append, List.map_cons, List.map_nil]
    exact (hmoved.trans hback).trans hp.claimed
  staff := by
    have hstaff := hp.staff
    have hlength := List.length_erase_of_mem hi
    have hpos := List.length_pos_of_mem hi
    simp only [Pool.finish]
    omega
  result := by
    intro entry hentry
    rcases List.mem_append.1 hentry with hentry | hentry
    · exact hp.result entry hentry
    · rw [List.mem_singleton.1 hentry]
  shared := hs
  unfailing := hp.unfailing

/-- A move of steady work keeps the invariant. -/
theorem step (hwork : Steady work size kind value) (hp : Invariant workers size kind value p)
    (h : Step work size p q) : Invariant workers size kind value q := by
  cases h with
  | take hidle hnext => exact hp.take hidle hnext
  | finish i hi =>
      have hsize := hp.lt_of_mem_running hi
      rw [hwork.returns i hsize p.shared hp.shared]
      exact hp.finish hi (hwork.keeps i hsize p.shared hp.shared)

/-- A run of steady work keeps the invariant. -/
theorem reaches (hwork : Steady work size kind value) (hp : Invariant workers size kind value p)
    (h : Reaches work size p q) : Invariant workers size kind value q := by
  induction h with
  | refl => exact hp
  | step _ hmove ih => exact ih.step hwork hmove

/-- At its end a pool has gone through all items. -/
theorem next_eq_of_isDone (hp : Invariant workers size kind value p) (hworkers : 0 < workers)
    (hdone : p.IsDone size) : p.next = size := by
  obtain ⟨hrunning, hidle | hnext⟩ := hdone
  · have hstaff := hp.staff
    rw [hrunning, hidle] at hstaff
    simp only [List.length_nil] at hstaff
    omega
  · exact Nat.le_antisymm hp.next_le hnext

/-- At its end a pool has the value of every item. -/
theorem lookup_results (hp : Invariant workers size kind value p) (hworkers : 0 < workers)
    (hdone : p.IsDone size) {i : Nat} (hi : i < size) : p.results.lookup i = some (value i) := by
  have hclaimed := hp.claimed
  rw [hdone.1, List.nil_append, hp.next_eq_of_isDone hworkers hdone] at hclaimed
  have hmem : i ∈ p.results.map Prod.fst := hclaimed.mem_iff.2 (List.mem_range.2 hi)
  cases hlookup : p.results.lookup i with
  | none =>
      obtain ⟨entry, hentry, hkey⟩ := List.mem_map.1 hmem
      have hne := List.lookup_eq_none_iff.1 hlookup entry hentry
      simp [hkey] at hne
  | some a =>
      obtain ⟨before, after, hresults, -⟩ := List.lookup_eq_some_iff.1 hlookup
      have hvalue : a = value i := hp.result (i, a) (by simp [hresults])
      rw [hvalue]

/-- The answer of a pool at its end is the value of every item, in the order
of the items. -/
theorem answer_eq (hp : Invariant workers size kind value p) (hworkers : 0 < workers)
    (hdone : p.IsDone size) : p.answer size = .ok ((List.range size).map value) := by
  have hlookup : (List.range size).filterMap (fun i => p.results.lookup i) =
      (List.range size).map value := by
    rw [← List.filterMap_eq_map]
    refine List.filterMap_congr fun i hi => ?_
    exact hp.lookup_results hworkers hdone (List.mem_range.1 hi)
  rw [answer, hp.unfailing]
  simp only [hlookup]

end Invariant

/-- **What a run comes to**: whoever moved when, the answer is the value of
every item, and the shared value is of its kind. -/
theorem answer_of_reaches (hwork : Steady work size kind value) {asked : Int} {s : σ}
    (hs : kind s) (h : Reaches work size (start asked size s) q) (hdone : q.IsDone size) :
    q.answer size = .ok ((List.range size).map value) ∧ kind q.shared := by
  have hq := (invariant_start asked size hs).reaches hwork h
  exact ⟨hq.answer_eq (workerCount_pos asked size) hdone, hq.shared⟩

/-- How many moves are left: taking the items that are left, ending each of
them, and ending those in flight. -/
def movesLeft (size : Nat) (p : Pool σ ε α) : Nat :=
  2 * (size - p.next) + p.running.length

/-- Every move leaves fewer moves. -/
theorem Step.movesLeft_lt (h : Step work size p q) : q.movesLeft size < p.movesLeft size := by
  cases h with
  | take _ hnext =>
      simp only [movesLeft, Pool.take, List.length_append, List.length_singleton]
      omega
  | finish i hi =>
      have hlength := List.length_erase_of_mem hi
      have hpos := List.length_pos_of_mem hi
      unfold Pool.finish
      split
      all_goals
        simp only [movesLeft]
        omega

/-- A pool that has not come to its end has a move. -/
theorem exists_step (work : Nat → σ → Except ε α × σ) (h : ¬ p.IsDone size) :
    ∃ q, Step work size p q := by
  cases hrunning : p.running with
  | cons i rest =>
      have hi : i ∈ p.running := by simp [hrunning]
      exact ⟨_, .finish p i hi⟩
  | nil =>
      have hleft : ¬ (p.idle = 0 ∨ size ≤ p.next) := fun hend => h ⟨hrunning, hend⟩
      exact ⟨_, .take p (by omega) (by omega)⟩

/-- A run may begin with one move more. -/
theorem Reaches.head (h : Step work size p q) (hrest : Reaches work size q r) :
    Reaches work size p r := by
  induction hrest with
  | refl => exact .step (.refl p) h
  | step _ hmove ih => exact .step ih hmove

/-- From every state a pool can come to its end. -/
theorem exists_reaches_isDone (work : Nat → σ → Except ε α × σ) (size : Nat) (p : Pool σ ε α) :
    ∃ q, Reaches work size p q ∧ q.IsDone size := by
  -- The number of moves that are left is what the induction is on.
  induction hn : p.movesLeft size using Nat.strong_induction_on generalizing p with
  | _ n ih =>
      by_cases hdone : p.IsDone size
      · exact ⟨p, .refl p, hdone⟩
      · obtain ⟨q, hstep⟩ := exists_step work hdone
        obtain ⟨r, hreaches, hr⟩ := ih _ (hn ▸ hstep.movesLeft_lt) q rfl
        exact ⟨r, hreaches.head hstep, hr⟩

end LicenseAudit.Pool
