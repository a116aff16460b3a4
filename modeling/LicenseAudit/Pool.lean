/-!
# Pools of workers

A pool works on the items `0, 1, …, size - 1` with some number of workers.
A worker that is idle takes the next item; when its work on the item ends
it is idle again, unless the work failed, and what the work returns is
kept under the item's index.  The workers share a value that each piece of
work may change when it ends.

`Step` is one move of a pool and leaves open who moves when; `Timed.run` is
the run in which each item takes a given time and nobody waits.
-/

namespace LicenseAudit

/-- A pool in the middle of its run: the next item, the idle workers, the
items in flight, the results, the shared value and the first failure. -/
structure Pool (σ ε α : Type) where
  next : Nat
  idle : Nat
  running : List Nat
  results : List (Nat × α)
  shared : σ
  failure : Option ε

namespace Pool

variable {σ ε α : Type}

/-- How many workers a pool for some items has: as many as are asked for,
but no more than items, and one at least. -/
def workerCount (asked : Int) (size : Nat) : Nat :=
  (max 1 (min asked size)).toNat

/-- A pool before its run. -/
def start (asked : Int) (size : Nat) (shared : σ) : Pool σ ε α :=
  ⟨0, workerCount asked size, [], [], shared, none⟩

/-- The pool after an idle worker has taken the next item. -/
def take (p : Pool σ ε α) : Pool σ ε α :=
  { p with next := p.next + 1, idle := p.idle - 1, running := p.running ++ [p.next] }

/-- The pool after the work on an item has ended.  A worker whose work
fails takes no further item. -/
def finish (p : Pool σ ε α) (i : Nat) (outcome : Except ε α) (shared : σ) : Pool σ ε α :=
  match outcome with
  | .ok a =>
    { p with
      idle := p.idle + 1
      running := p.running.erase i
      results := p.results ++ [(i, a)]
      shared }
  | .error e =>
    { p with
      running := p.running.erase i
      shared
      failure := p.failure <|> some e }

/-- One move of a pool over `size` items, `work` telling what the work on
an item returns and makes of the shared value. -/
inductive Step (work : Nat → σ → Except ε α × σ) (size : Nat) : Pool σ ε α → Pool σ ε α → Prop
  | take (p : Pool σ ε α) : 0 < p.idle → p.next < size → Step work size p p.take
  | finish (p : Pool σ ε α) (i : Nat) : i ∈ p.running →
      Step work size p (p.finish i (work i p.shared).1 (work i p.shared).2)

/-- The states that moves lead to from another. -/
inductive Reaches (work : Nat → σ → Except ε α × σ) (size : Nat) : Pool σ ε α → Pool σ ε α → Prop
  | refl (p : Pool σ ε α) : Reaches work size p p
  | step {p q r : Pool σ ε α} : Reaches work size p q → Step work size q r → Reaches work size p r

/-- Whether a pool has come to its end: nothing is in flight, and no idle
worker has an item left. -/
def IsDone (size : Nat) (p : Pool σ ε α) : Prop :=
  p.running = [] ∧ (p.idle = 0 ∨ size ≤ p.next)

/-- What a pool answers: the results in the order of the items, or the
first failure. -/
def answer (size : Nat) (p : Pool σ ε α) : Except ε (List α) :=
  match p.failure with
  | some e => .error e
  | none => .ok ((List.range size).filterMap fun i => p.results.lookup i)

/-- What can be seen of a pool. -/
inductive Occurrence where
  | start (i : Nat)
  | done (i : Nat)
  | failed (i : Nat)
  deriving DecidableEq, Repr

/-- The text of an occurrence. -/
def Occurrence.text : Occurrence → String
  | .start i => "start " ++ toString i
  | .done i => "end " ++ toString i
  | .failed i => "fail " ++ toString i

/-- An item that takes some time, and what it ends with. -/
structure Job (ε α : Type) where
  ticks : Nat
  outcome : Except ε α

/-- A pool with a clock: the time, when the items in flight are due, and
what has occurred. -/
structure Timed (ε α : Type) where
  pool : Pool Unit ε α
  now : Nat
  due : List (Nat × Nat)
  trace : List Occurrence

namespace Timed

/-- The entry that is due first; of several the one with the least
index. -/
def earliest? : List (Nat × Nat) → Option (Nat × Nat)
  | [] => none
  | entry :: rest =>
    match earliest? rest with
    | none => some entry
    | some other =>
      if entry.1 < other.1 ∨ (entry.1 = other.1 ∧ entry.2 < other.2) then some entry
      else some other

/-- One move: an idle worker takes the next item, or else the item that is
due first ends. -/
def move? (jobs : List (Job ε α)) (t : Timed ε α) : Option (Timed ε α) :=
  match decide (0 < t.pool.idle), jobs[t.pool.next]? with
  | true, some job =>
    let i := t.pool.next
    some ⟨t.pool.take, t.now, t.due ++ [(t.now + job.ticks, i)], t.trace ++ [.start i]⟩
  | _, _ =>
    match earliest? t.due with
    | none => none
    | some (time, i) =>
      (jobs[i]?).map fun job =>
        let occurred :=
          match job.outcome with
          | .ok _ => Occurrence.done i
          | .error _ => .failed i
        ⟨t.pool.finish i job.outcome (), time, t.due.erase (time, i), t.trace ++ [occurred]⟩

/-- The pool after at most `fuel` moves. -/
def moves (jobs : List (Job ε α)) : Nat → Timed ε α → Timed ε α
  | 0, t => t
  | fuel + 1, t =>
    match move? jobs t with
    | none => t
    | some t => moves jobs fuel t

/-- The pool after the whole run: every item is taken once and ends once at
most. -/
def run (asked : Int) (jobs : List (Job ε α)) : Timed ε α :=
  moves jobs (2 * jobs.length + 1) ⟨.start asked jobs.length (), 0, [], []⟩

end Timed

end Pool

end LicenseAudit
