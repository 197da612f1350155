import Mathlib.Data.List.Infix
import Mathlib.Logic.Relation

/-!
# A bounded first-in first-out queue

What a bounded queue is for, as a log of what has been pushed and what has been popped:
values leave in the order they came, and never more than its capacity are inside.

The log keeps both lists for good: what is inside is what has been pushed and not popped, so the
queue's order is that popped values are a beginning of the pushed ones. A concurrent queue
refines it by saying at which of its steps a push or a pop happens.
-/

namespace Mog

namespace BoundedFifo

variable {τ : Type}

/-- What has been pushed and what has been popped, oldest first. -/
structure Log (τ : Type) where
  pushed : List τ := []
  popped : List τ := []

/-- What is still inside. -/
def Log.queue (l : Log τ) : List τ := l.pushed.drop l.popped.length

/-- A push into a queue with room, or a pop of its oldest value. -/
inductive Step (capacity : Nat) : Log τ → Log τ → Prop where
  | push (l : Log τ) (v : τ) (h : l.queue.length < capacity) :
      Step capacity l { l with pushed := l.pushed ++ [v] }
  | pop (l : Log τ) (v : τ) (rest : List τ) (h : l.queue = v :: rest) :
      Step capacity l { l with popped := l.popped ++ [v] }

/-- The logs of a queue that starts empty. -/
def Reachable (capacity : Nat) (l : Log τ) : Prop := Relation.ReflTransGen (Step capacity) {} l

/-- A log in which nothing was lost, duplicated or reordered, and nothing was let in too many. -/
structure Ok (capacity : Nat) (l : Log τ) : Prop where
  order : l.popped <+: l.pushed
  bound : l.pushed.length ≤ l.popped.length + capacity

variable {capacity : Nat} {l l' : Log τ} {v : τ}

theorem length_queue (l : Log τ) : l.queue.length = l.pushed.length - l.popped.length :=
  List.length_drop

theorem Ok.queue (h : Ok capacity l) : l.pushed = l.popped ++ l.queue := by
  have hpre := List.prefix_iff_eq_take.mp h.order
  rw [Log.queue]
  conv_lhs => rw [← List.take_append_drop l.popped.length l.pushed, ← hpre]

/-- The next value to be popped. -/
theorem queue_eq_cons {n : Nat} (hn : n = l.popped.length) (hv : l.pushed[n]? = some v) :
    l.queue = v :: l.pushed.drop (n + 1) := by
  obtain ⟨hlt, hget⟩ := List.getElem?_eq_some_iff.mp hv
  rw [Log.queue, ← hn, List.drop_eq_getElem_cons hlt, hget]

theorem Step.ok (hs : Step capacity l l') (h : Ok capacity l) : Ok capacity l' := by
  cases hs with
  | push v hroom =>
      rw [length_queue] at hroom
      refine ⟨h.order.trans (List.prefix_append _ _), ?_⟩
      show (l.pushed ++ [v]).length ≤ l.popped.length + capacity
      rw [List.length_append, List.length_singleton]
      omega
  | pop v rest hq =>
      refine ⟨?_, ?_⟩
      · have heq := h.queue
        rw [hq, List.append_cons] at heq
        exact ⟨rest, heq.symm⟩
      · have := h.bound
        show l.pushed.length ≤ (l.popped ++ [v]).length + capacity
        rw [List.length_append]
        omega

/-- **Every log of a bounded queue is one of a first-in first-out queue.** -/
theorem Reachable.ok (h : Reachable capacity l) : Ok capacity l := by
  induction h with
  | refl => exact ⟨List.prefix_refl _, Nat.zero_le _⟩
  | tail _ hs ih => exact hs.ok ih

end BoundedFifo

end Mog
