import Mathlib.Algebra.Group.Nat.Defs
import Mog.Lib.Threads
import Mog.Sim.Types

/-!
# The grid runner

Worker threads that claim the tasks of a grid by one atomic counter. A worker's accesses are
the `fetch_add`, the call of the task function, the store of what it returned and the store of
the task's id over it. The task function is any callable: what it may return for a task is a
relation, and the log of its calls is no part of the program.

Nothing orders the accesses of different workers but the counter itself, so any interleaving is
a run. Starting threads and joining them are the two ends of a run: the grid starts with every
worker at its first access, and is joined when all have left their loops.
-/

namespace Mog

open Threads

structure GridTask where
  taskId : Nat := 0
  config : SimConfig

structure GridResult where
  taskId : Nat := 0
  digest : Nat := 0
  totalFills : Nat := 0
  totalFilledShares : Int := 0
  totalFilledNotional : Int := 0
  totalFees : Int := 0
deriving DecidableEq, Repr

/-- The id that the worker writes over the one the task function returned. -/
def GridResult.labelled (r : GridResult) (task : GridTask) : GridResult :=
  { r with taskId := task.taskId }

structure ParallelGridRunner where
  threadCount : Nat
  pos : 0 < threadCount

namespace ParallelGridRunner

/-- `num_threads`, or what the hardware reports, and at least one. -/
def init (numThreads hardwareConcurrency : Nat) : ParallelGridRunner where
  threadCount := if 0 < numThreads then numThreads else max 1 hardwareConcurrency
  pos := by
    split
    · assumption
    · exact Nat.lt_of_lt_of_le Nat.one_pos (Nat.le_max_left _ _)

/-- The threads that are started for a grid. -/
def workers (g : ParallelGridRunner) (tasks : List GridTask) : Nat :=
  min g.threadCount tasks.length

end ParallelGridRunner

/-- A task function without state of its own. -/
def GridTask.Returns (f : GridTask → GridResult) (task : GridTask) (r : GridResult) : Prop :=
  r = f task

/-- Where a worker stands in its loop. -/
inductive WorkerPc where
  /-- At the `fetch_add`. -/
  | fetch
  /-- Inside the call of the task function for its task. -/
  | call (idx : Nat)
  | store (idx : Nat) (r : GridResult)
  | label (idx : Nat)
  | done
deriving DecidableEq

/-- The task a worker has claimed and not finished. -/
def WorkerPc.claim : WorkerPc → Option Nat
  | .fetch => none
  | .call idx => some idx
  | .store idx _ => some idx
  | .label idx => some idx
  | .done => none

/-- What the workers share. -/
structure Grid where
  nextIndex : Nat := 0
  results : List GridResult
  /-- The calls of the task function that returned, oldest first. -/
  calls : List (Nat × GridResult) := []

namespace Grid

/-- One access of `worker_loop`. -/
inductive Access (returns : GridTask → GridResult → Prop) (tasks : List GridTask) :
    Grid → WorkerPc → Grid → WorkerPc → Prop where
  | claim (g : Grid) (h : g.nextIndex < tasks.length) :
      Access returns tasks g .fetch { g with nextIndex := (g.nextIndex + 1) % 2 ^ 64 }
        (.call g.nextIndex)
  | leave (g : Grid) (h : tasks.length ≤ g.nextIndex) :
      Access returns tasks g .fetch { g with nextIndex := (g.nextIndex + 1) % 2 ^ 64 } .done
  | call (g : Grid) (idx : Nat) (task : GridTask) (r : GridResult) (ht : tasks[idx]? = some task)
      (h : returns task r) :
      Access returns tasks g (.call idx) { g with calls := g.calls ++ [(idx, r)] } (.store idx r)
  | store (g : Grid) (idx : Nat) (r : GridResult) :
      Access returns tasks g (.store idx r) { g with results := g.results.set idx r } (.label idx)
  | label (g : Grid) (idx : Nat) (task : GridTask) (ht : tasks[idx]? = some task) :
      Access returns tasks g (.label idx)
        { g with results := g.results.modify idx (GridResult.labelled · task) } .fetch

/-- The grid when the threads are started: results value-initialised, none claimed. -/
def start (tasks : List GridTask) (workers : Nat) : System (Fin workers) Grid WorkerPc where
  shared := { results := List.replicate tasks.length {} }
  locals := fun _ => .fetch

/-- What the task function returned for a task. -/
def returned (g : Grid) (idx : Nat) : List GridResult :=
  (g.calls.filter (·.1 = idx)).map Prod.snd

end Grid

/-- Every worker has left its loop, so every `join` returns. -/
def Joined {workers : Nat} (s : System (Fin workers) Grid WorkerPc) : Prop :=
  ∀ w, s.locals w = .done

/-- What `run_grid` may return. -/
def RunGrid (g : ParallelGridRunner) (returns : GridTask → GridResult → Prop)
    (tasks : List GridTask) (out : List GridResult) : Prop :=
  if tasks = [] then out = []
  else ∃ s, Reachable (Grid.Access returns tasks) (Grid.start tasks (g.workers tasks)) s
    ∧ Joined s ∧ out = s.shared.results

end Mog
