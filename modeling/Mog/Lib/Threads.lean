import Mathlib.Algebra.BigOperators.Group.Finset.Basic
import Mathlib.Algebra.Order.BigOperators.Group.Finset
import Mathlib.Data.Fintype.Basic
import Mathlib.Logic.Function.Basic
import Mathlib.Logic.Relation

/-!
# Threads over a shared memory

Threads that run the same code over one memory, each with a private place in it. A step is
one access of one thread; which thread moves next is free. What every access keeps, every
interleaving keeps, and an access that spends from a fixed budget bounds the length of a run.

The accesses of a thread are a relation between the memory and its place before and after. The
library does not know what a lock is or which accesses are atomic: whatever the program does in
one go is one access. Invariants are proved access by access, and lengths of runs by a measure
that every access lowers.
-/

namespace Mog

namespace Threads

variable {ι σ loc : Type}

structure System (ι σ loc : Type) where
  shared : σ
  locals : ι → loc

variable [DecidableEq ι]

namespace System

/-- Thread `i` has made an access. -/
def after (s : System ι σ loc) (i : ι) (shared : σ) (l : loc) : System ι σ loc :=
  { shared, locals := Function.update s.locals i l }

variable {s : System ι σ loc} {i j : ι} {shared : σ} {l : loc}

@[simp] theorem after_shared : (s.after i shared l).shared = shared := rfl

@[simp] theorem after_self : (s.after i shared l).locals i = l := Function.update_self _ _ _

theorem after_other (h : j ≠ i) : (s.after i shared l).locals j = s.locals j :=
  Function.update_of_ne h _ _

/-- A place after an access: the thread that moved is at its new one, the others where they were. -/
theorem after_cases {P : ι → loc → Prop} (hself : P i l) (hother : ∀ j, j ≠ i → P j (s.locals j)) :
    ∀ j, P j ((s.after i shared l).locals j) := by
  intro j
  by_cases hj : j = i
  · rw [hj, after_self]
    exact hself
  · rw [after_other hj]
    exact hother j hj

/-- What holds of the places of any two threads. -/
def Apart (R : loc → loc → Prop) (s : System ι σ loc) : Prop :=
  ∀ i j, i ≠ j → R (s.locals i) (s.locals j)

theorem Apart.after {R : loc → loc → Prop} (hsymm : ∀ a b, R a b → R b a) (h : s.Apart R)
    (hnew : ∀ j, j ≠ i → R l (s.locals j)) : (s.after i shared l).Apart R := by
  intro j k hjk
  by_cases hj : j = i
  · have hk : k ≠ i := fun hki => hjk (hj.trans hki.symm)
    rw [hj, after_self, after_other hk]
    exact hnew k hk
  · by_cases hk : k = i
    · rw [hk, after_self, after_other hj]
      exact hsymm _ _ (hnew j hj)
    · rw [after_other hj, after_other hk]
      exact h j k hjk

/-- A weight of every place, summed over the threads, moves by the thread that moved. -/
theorem sum_after [Fintype ι] (f : loc → Nat) (i : ι) (shared : σ) (l : loc) :
    (∑ j, f ((s.after i shared l).locals j)) + f (s.locals i) = (∑ j, f (s.locals j)) + f l := by
  have hnew := Finset.add_sum_erase Finset.univ (fun j => f ((s.after i shared l).locals j))
    (Finset.mem_univ i)
  have hold := Finset.add_sum_erase Finset.univ (fun j => f (s.locals j)) (Finset.mem_univ i)
  have hrest : ∑ j ∈ Finset.univ.erase i, f ((s.after i shared l).locals j)
      = ∑ j ∈ Finset.univ.erase i, f (s.locals j) := by
    refine Finset.sum_congr rfl fun j hj => ?_
    rw [after_other (Finset.ne_of_mem_erase hj)]
  simp only [after_self] at hnew
  omega

end System

variable {act : σ → loc → σ → loc → Prop}

/-- One access of one thread: what it sees of the memory and its place, and what it leaves. -/
inductive Step (act : σ → loc → σ → loc → Prop) (s : System ι σ loc) : System ι σ loc → Prop where
  | access (i : ι) (shared : σ) (l : loc) (h : act s.shared (s.locals i) shared l) :
      Step act s (s.after i shared l)

/-- What any interleaving can reach. -/
def Reachable (act : σ → loc → σ → loc → Prop) (start s : System ι σ loc) : Prop :=
  Relation.ReflTransGen (Step act) start s

/-- A run of `n` accesses. -/
inductive Runs (act : σ → loc → σ → loc → Prop) (start : System ι σ loc) :
    Nat → System ι σ loc → Prop where
  | start : Runs act start 0 start
  | step {n : Nat} {s t : System ι σ loc} (h : Runs act start n s) (hs : Step act s t) :
      Runs act start (n + 1) t

variable {start s : System ι σ loc}

/-- **What every access keeps, every interleaving keeps.** -/
theorem Reachable.keeps {P : System ι σ loc → Prop} (h : Reachable act start s) (hstart : P start)
    (hstep : ∀ s i shared l, P s → act s.shared (s.locals i) shared l → P (s.after i shared l)) :
    P s := by
  induction h with
  | refl => exact hstart
  | tail _ hs ih =>
      cases hs with
      | access i shared l h => exact hstep _ i shared l ih h

theorem Runs.reachable {n : Nat} (h : Runs act start n s) : Reachable act start s := by
  induction h with
  | start => exact Relation.ReflTransGen.refl
  | step _ hs ih => exact ih.tail hs

theorem Reachable.runs (h : Reachable act start s) : ∃ n, Runs act start n s := by
  induction h with
  | refl => exact ⟨0, .start⟩
  | tail _ hs ih =>
      obtain ⟨n, hn⟩ := ih
      exact ⟨n + 1, hn.step hs⟩

/-- **A run spends its budget**: if every access lowers a number, a run is no longer than that. -/
theorem Runs.length_le {μ : System ι σ loc → Nat} {n : Nat} (h : Runs act start n s)
    (hstep : ∀ s i shared l, Reachable act start s → act s.shared (s.locals i) shared l →
      μ (s.after i shared l) < μ s) : n + μ s ≤ μ start := by
  induction h with
  | start => omega
  | step hr hs ih =>
      cases hs with
      | access i shared l h =>
          have := hstep _ i shared l hr.reachable h
          omega

end Threads

end Mog
