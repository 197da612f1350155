import Mathlib.Algebra.BigOperators.Group.List.Basic
import Mathlib.Algebra.Order.Group.Int
import Mathlib.Algebra.Order.Ring.Int
import Mathlib.Algebra.Order.BigOperators.Group.List
import Mathlib.Data.List.Nodup

/-!
# Sums ahead in a queue

For a weight on the members of a list, `ahead f i l` is the weight of what stands
before `i` in `l`. The lemmas say how it changes when a member joins at the tail,
leaves, or changes its own weight.

The weights are integers and the list has no member twice. A queue of a program is such a list,
and its quantities such a weight, so that what stands ahead of an order is one sum whose changes
these lemmas give without unfolding it.
-/

namespace QueueSum

variable {α : Type} [DecidableEq α] {f g : α → Int} {i a : α} {l l' : List α}

/-- The members before `i`. -/
def before (i : α) (l : List α) : List α := l.takeWhile (fun j => j ≠ i)

/-- The weight of the members before `i`. -/
def ahead (f : α → Int) (i : α) (l : List α) : Int := ((before i l).map f).sum

@[simp] theorem before_nil : before i ([] : List α) = [] := rfl

theorem before_cons_self : before i (i :: l) = [] := by simp [before]

theorem before_cons_of_ne (h : a ≠ i) : before i (a :: l) = a :: before i l := by
  simp [before, h]

theorem mem_of_mem_before (h : a ∈ before i l) : a ∈ l := (List.takeWhile_sublist _).mem h

theorem ne_of_mem_before (h : a ∈ before i l) : a ≠ i := by
  induction l with
  | nil => simp at h
  | cons b l ih =>
      by_cases hb : b = i
      · subst hb; rw [before_cons_self] at h; simp at h
      · rw [before_cons_of_ne hb] at h
        rcases List.mem_cons.mp h with hab | hal
        · rw [hab]; exact hb
        · exact ih hal

@[simp] theorem ahead_nil : ahead f i [] = 0 := rfl

theorem ahead_cons_self : ahead f i (i :: l) = 0 := by rw [ahead, before_cons_self]; rfl

theorem ahead_cons_of_ne (h : a ≠ i) : ahead f i (a :: l) = f a + ahead f i l := by
  rw [ahead, before_cons_of_ne h]; simp [ahead]

/-- Only the members before `i` count. -/
theorem ahead_congr (h : ∀ j ∈ before i l, f j = g j) : ahead f i l = ahead g i l := by
  unfold ahead
  rw [List.map_congr_left h]

/-- What joins behind `i` does not count. -/
theorem before_append_of_mem (h : i ∈ l) : before i (l ++ l') = before i l := by
  induction l with
  | nil => simp at h
  | cons b l ih =>
      by_cases hb : b = i
      · subst hb; rw [List.cons_append, before_cons_self, before_cons_self]
      · rw [List.cons_append, before_cons_of_ne hb, before_cons_of_ne hb,
          ih ((List.mem_cons.mp h).resolve_left (Ne.symm hb))]

theorem ahead_append_of_mem (h : i ∈ l) : ahead f i (l ++ l') = ahead f i l := by
  rw [ahead, before_append_of_mem h, ahead]

/-- Everything stands before the last member. -/
theorem before_snoc (h : i ∉ l) : before i (l ++ [i]) = l := by
  induction l with
  | nil => exact before_cons_self
  | cons b l ih =>
      have hb : b ≠ i := fun he => h (by simp [he])
      rw [List.cons_append, before_cons_of_ne hb, ih (fun hm => h (by simp [hm]))]

theorem ahead_snoc (h : i ∉ l) : ahead f i (l ++ [i]) = (l.map f).sum := by
  rw [ahead, before_snoc h]

/-- The members before `i` once `a` has left. -/
theorem before_erase (hne : a ≠ i) (hnd : l.Nodup) : before i (l.erase a) = (before i l).erase a := by
  induction l with
  | nil => rfl
  | cons b l ih =>
      obtain ⟨hbl, hnd⟩ := List.nodup_cons.mp hnd
      by_cases hba : b = a
      · subst hba
        rw [List.erase_cons_head, before_cons_of_ne hne, List.erase_cons_head]
      · rw [List.erase_cons_tail (by simpa using hba)]
        by_cases hbi : b = i
        · subst hbi; rw [before_cons_self, before_cons_self]; rfl
        · rw [before_cons_of_ne hbi, before_cons_of_ne hbi, List.erase_cons_tail (by simpa using hba),
            ih hnd]

theorem before_nodup (hnd : l.Nodup) : (before i l).Nodup := hnd.sublist (List.takeWhile_sublist _)

/-- **A member that leaves** counted for those behind it. -/
theorem ahead_erase (hne : a ≠ i) (hnd : l.Nodup) :
    ahead f i (l.erase a) = ahead f i l - if a ∈ before i l then f a else 0 := by
  unfold ahead
  rw [before_erase hne hnd]
  by_cases ha : a ∈ before i l
  · have hsum := List.sum_map_erase f ha
    rw [if_pos ha]
    omega
  · rw [if_neg ha, List.erase_of_not_mem ha]
    omega

/-- **A member that changes its weight** counts anew for those behind it. -/
theorem ahead_reweigh (hnd : l.Nodup) (h : ∀ j ∈ l, j ≠ a → g j = f j) :
    ahead g i l = ahead f i l + if a ∈ before i l then g a - f a else 0 := by
  unfold ahead
  by_cases ha : a ∈ before i l
  · have hf := List.sum_map_erase f ha
    have hg := List.sum_map_erase g ha
    have heq : ((before i l).erase a).map g = ((before i l).erase a).map f := by
      refine List.map_congr_left (fun j hj => ?_)
      have hj' := (before_nodup hnd).mem_erase_iff.mp hj
      exact h j (mem_of_mem_before hj'.2) hj'.1
    rw [heq] at hg
    rw [if_pos ha]
    omega
  · rw [if_neg ha, List.map_congr_left (g := f)]
    · omega
    · intro j hj
      exact h j (mem_of_mem_before hj) (fun he => ha (he ▸ hj))

/-- The head of a queue stands before all its other members. -/
theorem mem_before_head (hne : a ≠ i) : a ∈ before i (a :: l) := by
  rw [before_cons_of_ne hne]; simp

theorem ahead_nonneg (h : ∀ j ∈ l, 0 ≤ f j) : 0 ≤ ahead f i l := by
  refine List.sum_nonneg (fun x hx => ?_)
  obtain ⟨j, hj, rfl⟩ := List.mem_map.mp hx
  exact h j (mem_of_mem_before hj)

/-- What stands before `i`, and `i` itself, are part of the whole. -/
theorem ahead_add_le (h : ∀ j ∈ l, 0 ≤ f j) (hi : i ∈ l) : ahead f i l + f i ≤ (l.map f).sum := by
  induction l with
  | nil => simp at hi
  | cons b l ih =>
      have hrest : 0 ≤ (l.map f).sum := by
        refine List.sum_nonneg (fun x hx => ?_)
        obtain ⟨j, hj, rfl⟩ := List.mem_map.mp hx
        exact h j (by simp [hj])
      rw [List.map_cons, List.sum_cons]
      by_cases hb : b = i
      · subst hb; rw [ahead_cons_self]; omega
      · rw [ahead_cons_of_ne hb]
        have := ih (fun j hj => h j (by simp [hj])) ((List.mem_cons.mp hi).resolve_left (Ne.symm hb))
        omega

end QueueSum
