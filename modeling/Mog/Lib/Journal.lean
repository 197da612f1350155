import Mathlib.Data.List.TakeDrop

/-!
# Histories with a cursor

What was done, in order, and a cursor into it: what lies before the cursor is in
effect, what lies after it has been stepped back from and can be stepped into again.
Doing something new drops the part after the cursor.

The rest is about replaying: a machine that executes steps, a journal that keeps an
entry for each of them, and when executing the entries is executing the steps.
-/

namespace Journal

universe u v w

variable {κ : Type u} {ε : Type v} {σ : Type w}

structure History (κ : Type u) where
  made : List κ := []
  cursor : Nat := 0

namespace History

variable (h : History κ)

/-- What is in effect. -/
def visible : List κ := h.made.take h.cursor

def record (c : κ) : History κ := { made := h.visible ++ [c], cursor := h.cursor + 1 }

def seek (n : Nat) : History κ := { h with cursor := n }

/-- The cursor lies within the history. -/
def Within : Prop := h.cursor ≤ h.made.length

variable {h}

theorem Within.length_visible (hw : h.Within) : h.visible.length = h.cursor := by
  rw [visible, List.length_take, Nat.min_eq_left hw]

theorem Within.record (hw : h.Within) (c : κ) : (h.record c).Within := by
  refine Nat.le_of_eq ?_
  show h.cursor + 1 = (h.visible ++ [c]).length
  rw [List.length_append, hw.length_visible, List.length_singleton]

theorem Within.visible_record (hw : h.Within) (c : κ) :
    (h.record c).visible = h.visible ++ [c] := by
  have hlen : (h.visible ++ [c]).length = h.cursor + 1 := by
    rw [List.length_append, hw.length_visible, List.length_singleton]
  exact List.take_of_length_le (Nat.le_of_eq hlen)

end History

/-- Replaying the entry of a step is executing the step. -/
def Faithful (exec : σ → κ → σ) (replay : σ → ε → σ) (entry : κ → ε) (c : κ) : Prop :=
  ∀ s, replay s (entry c) = exec s c

/-- **Replaying the entries of faithful steps is executing the steps.** -/
theorem foldl_entries {exec : σ → κ → σ} {replay : σ → ε → σ} {entry : κ → ε} {l : List κ}
    (hl : ∀ c ∈ l, Faithful exec replay entry c) (s : σ) :
    (l.map entry).foldl replay s = l.foldl exec s := by
  induction l generalizing s with
  | nil => rfl
  | cons c l ih =>
      rw [List.map_cons, List.foldl_cons, List.foldl_cons, hl c List.mem_cons_self]
      exact ih (fun d hd => hl d (List.mem_cons_of_mem _ hd)) _

/-- Executing up to `n` is executing up to an earlier point, then from there on. -/
theorem foldl_take_of_le (f : σ → κ → σ) (s : σ) (l : List κ) {m n : Nat} (h : m ≤ n) :
    (l.take n).foldl f s = ((l.drop m).take (n - m)).foldl f ((l.take m).foldl f s) := by
  rw [← List.foldl_append]
  congr 1
  calc l.take n = l.take (m + (n - m)) := by rw [Nat.add_sub_cancel' h]
    _ = l.take m ++ (l.drop m).take (n - m) := List.take_add

end Journal
