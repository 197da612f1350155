import Mathlib.Algebra.Order.Group.Nat
import Mathlib.Tactic.Ring

/-!
# Positions on a wheel of digits

A hierarchical timing wheel of base `B` has one level for each digit. A timestamp that
is not in the past belongs to the highest level at which its digit differs from the
current time's, in the bucket of its own digit there. When the time moves to the near
edge of a bucket, the other timestamps keep their positions.
-/

namespace DigitWheel

variable {B now ts li b : Nat}

/-- The position of `ts` is bucket `b` of level `li`. -/
structure Placed (B now ts li b : Nat) : Prop where
  above : ts / B ^ (li + 1) = now / B ^ (li + 1)
  own : ts / B ^ li % B = b
  ahead : 0 < li → now / B ^ li % B < b

/-- The near edge of bucket `j` of level `li`. -/
def edge (B now li j : Nat) : Nat := now - now % B ^ (li + 1) + j * B ^ li

/-- A number, cut at a digit, is its higher part and that digit. -/
theorem div_eq (B x li : Nat) : x / B ^ li = x / B ^ (li + 1) * B + x / B ^ li % B := by
  rw [Nat.pow_succ, ← Nat.div_div_eq_div_mul, Nat.mul_comm]
  exact (Nat.div_add_mod _ _).symm

theorem div_congr {x y m n : Nat} (h : x / B ^ m = y / B ^ m) (hmn : m ≤ n) :
    x / B ^ n = y / B ^ n := by
  obtain ⟨d, rfl⟩ := Nat.exists_eq_add_of_le hmn
  rw [Nat.pow_add, ← Nat.div_div_eq_div_mul, ← Nat.div_div_eq_div_mul, h]

theorem Placed.div_lt (h : Placed B now ts li b) (hli : 0 < li) : now / B ^ li < ts / B ^ li := by
  rw [div_eq B now li, div_eq B ts li, h.above, h.own]
  exact Nat.add_lt_add_left (h.ahead hli) _

/-- Above level 0 the position lies in the future. -/
theorem Placed.now_lt (h : Placed B now ts li b) (hli : 0 < li) : now < ts :=
  Nat.lt_of_div_lt_div (h.div_lt hli)

/-- Only the current time is due now. -/
theorem Placed.zero_of_now (h : Placed B now now li b) : li = 0 ∧ b = now % B := by
  have hzero : li = 0 := by
    by_contra hc
    exact Nat.lt_irrefl _ (h.now_lt (Nat.pos_of_ne_zero hc))
  subst hzero
  have hown := h.own
  rw [Nat.pow_zero, Nat.div_one] at hown
  exact ⟨rfl, hown.symm⟩

/-- Two timestamps of one level 0 bucket are equal. -/
theorem Placed.eq_of_zero (h : Placed B now ts 0 b) {ts' : Nat} (h' : ts' / B = now / B)
    (hb : ts' % B = b) : ts' = ts := by
  have habove := h.above
  have hown := h.own
  rw [Nat.zero_add, Nat.pow_one] at habove
  rw [Nat.pow_zero, Nat.div_one] at hown
  rw [← Nat.div_add_mod ts' B, ← Nat.div_add_mod ts B, h', hb, habove, hown]

/-- **A position stands** while the digits above it do, and its bucket stays ahead. -/
theorem Placed.move (h : Placed B now ts li b) {now' : Nat}
    (habove : now' / B ^ (li + 1) = now / B ^ (li + 1)) (hahead : 0 < li → now' / B ^ li % B < b) :
    Placed B now' ts li b := ⟨h.above.trans habove.symm, h.own, hahead⟩

/-! ## Edges -/

section

variable {j : Nat}

theorem edge_div (hj : j < B) :
    edge B now li j / B ^ li = now / B ^ (li + 1) * B + j ∧ edge B now li j % B ^ li = 0 := by
  have hB : 0 < B ^ li := Nat.pow_pos (Nat.zero_lt_of_lt hj)
  have heq : edge B now li j = B ^ li * (now / B ^ (li + 1) * B + j) := by
    have hsplit := Nat.div_add_mod now (B ^ (li + 1))
    unfold edge
    calc now - now % B ^ (li + 1) + j * B ^ li
        = B ^ (li + 1) * (now / B ^ (li + 1)) + j * B ^ li := by omega
      _ = B ^ li * (now / B ^ (li + 1) * B + j) := by rw [Nat.pow_succ]; ring
  rw [heq, Nat.mul_div_cancel_left _ hB, Nat.mul_mod_right]
  exact ⟨rfl, rfl⟩

theorem edge_digit (hj : j < B) : edge B now li j / B ^ li % B = j := by
  rw [(edge_div hj).1, Nat.add_comm, Nat.add_mul_mod_self_right, Nat.mod_eq_of_lt hj]

theorem edge_above (hj : j < B) : edge B now li j / B ^ (li + 1) = now / B ^ (li + 1) := by
  rw [Nat.pow_succ, ← Nat.div_div_eq_div_mul, (edge_div hj).1, Nat.add_comm,
    Nat.add_mul_div_right _ _ (Nat.zero_lt_of_lt hj), Nat.div_eq_of_lt hj, Nat.zero_add]
  rw [Nat.pow_succ, ← Nat.div_div_eq_div_mul]

/-- An edge is what its level's digit and those above make of it. -/
theorem edge_le_of_div_le (hj : j < B) {x : Nat} (h : edge B now li j / B ^ li ≤ x / B ^ li) :
    edge B now li j ≤ x := by
  have hlow : edge B now li j % B ^ li = 0 := (edge_div hj).2
  calc edge B now li j = B ^ li * (edge B now li j / B ^ li) + edge B now li j % B ^ li :=
        (Nat.div_add_mod _ _).symm
    _ = B ^ li * (edge B now li j / B ^ li) := by rw [hlow, Nat.add_zero]
    _ ≤ B ^ li * (x / B ^ li) := Nat.mul_le_mul_left _ h
    _ ≤ x := Nat.mul_div_le x _

/-- The near edge of a bucket is no later than what the bucket and those after it hold. -/
theorem Placed.edge_le (h : Placed B now ts li b) (hj : j < B) (hjb : j ≤ b) :
    edge B now li j ≤ ts := by
  refine edge_le_of_div_le hj ?_
  rw [(edge_div hj).1, div_eq B ts li, h.above, h.own]
  exact Nat.add_le_add_left hjb _

/-- An edge comes before what higher levels hold. -/
theorem Placed.edge_lt (h : Placed B now ts li b) {li' : Nat} (hli : li' < li) (hj : j < B) :
    edge B now li' j < ts := by
  have hdiv : edge B now li' j / B ^ li = now / B ^ li := div_congr (edge_above hj) hli
  refine Nat.lt_of_div_lt_div (c := B ^ li) ?_
  rw [hdiv]
  exact h.div_lt (Nat.zero_lt_of_lt hli)

theorem now_lt_edge (hj : j < B) (hahead : now / B ^ li % B < j) : now < edge B now li j := by
  refine Nat.lt_of_div_lt_div (c := B ^ li) ?_
  rw [(edge_div hj).1, div_eq B now li]
  exact Nat.add_lt_add_left hahead _

/-- Positions of other levels stand when the time moves to an edge below them. -/
theorem Placed.move_edge (h : Placed B now ts li b) {li' : Nat} (hli : li' < li) (hj : j < B) :
    Placed B (edge B now li' j) ts li b := by
  have hdiv : ∀ m, li' < m → edge B now li' j / B ^ m = now / B ^ m := fun m hm =>
    div_congr (edge_above hj) hm
  refine h.move (hdiv _ (by omega)) fun hpos => ?_
  rw [hdiv li hli]
  exact h.ahead hpos

/-- So do those of the later buckets of its level. -/
theorem Placed.move_edge_same (h : Placed B now ts li b) (hj : j < B) (hjb : j < b) :
    Placed B (edge B now li j) ts li b :=
  h.move (edge_above hj) fun _ => by rw [edge_digit hj]; exact hjb

/-- What the bucket at the edge holds moves to a lower level. -/
theorem Placed.demoted {li' b' : Nat} (h : Placed B now ts li j) (hj : j < B)
    (h' : Placed B (edge B now li j) ts li' b') (hli : 0 < li) : li' < li := by
  by_contra hc
  have hsame : ts / B ^ li = edge B now li j / B ^ li := by
    rw [(edge_div hj).1, div_eq B ts li, h.above, h.own]
  have hlt := h'.div_lt (by omega)
  rw [div_congr hsame (Nat.not_lt.mp hc)] at hlt
  exact Nat.lt_irrefl _ hlt

end

end DigitWheel
