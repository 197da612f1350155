import Mathlib.Logic.Function.Basic
import Mathlib.Order.Defs.LinearOrder
import Mathlib.Order.Lattice

/-!
# Binary heaps in an array

The children of position `i` are `2 * i + 1` and `2 * i + 2`, and a parent sorts no
later than its children. An insertion leaves one position that may sort before its
parent, a removal one that may sort after its children; each swap moves that position
one level, up or down.

The order is on keys of any linear order, and the heap is a memory of which the first `n`
positions count. Positions are natural numbers here; a program that computes a child's number in
a machine word uses these lemmas where that computation is exact.
-/

namespace BinaryHeap

universe u

variable {γ : Type u} [LinearOrder γ] {h : Nat → γ} {n i : Nat}

/-- The position above. -/
def parent (i : Nat) : Nat := (i - 1) / 2

/-- Two positions exchanged. -/
def swap {β : Type u} (h : Nat → β) (a b : Nat) : Nat → β :=
  Function.update (Function.update h a (h b)) b (h a)

theorem swap_left {β : Type u} (h : Nat → β) {a b : Nat} : swap h a b a = h b := by
  unfold swap
  by_cases hab : a = b
  · subst hab
    rw [Function.update_self]
  · rw [Function.update_of_ne hab, Function.update_self]

theorem swap_right {β : Type u} (h : Nat → β) {a b : Nat} : swap h a b b = h a :=
  Function.update_self ..

theorem swap_other {β : Type u} (h : Nat → β) {a b j : Nat} (ha : j ≠ a) (hb : j ≠ b) :
    swap h a b j = h j := by
  unfold swap
  rw [Function.update_of_ne hb, Function.update_of_ne ha]

theorem parent_lt (hi : 0 < i) : parent i < i := by
  unfold parent
  omega

theorem parent_ne (hi : 0 < i) : parent i ≠ i := Nat.ne_of_lt (parent_lt hi)

/-- A position is above its two children. -/
theorem parent_eq_iff {j : Nat} (hj : 0 < j) : parent j = i ↔ j = 2 * i + 1 ∨ j = 2 * i + 2 := by
  unfold parent
  omega

/-- Every parent sorts no later than its children. -/
def Ordered (h : Nat → γ) (n : Nat) : Prop := ∀ j, 0 < j → j < n → h (parent j) ≤ h j

/-- Ordered, but `i` may sort before its parent. -/
structure UpOrdered (h : Nat → γ) (n i : Nat) : Prop where
  others : ∀ j, 0 < j → j < n → j ≠ i → h (parent j) ≤ h j
  grand : 0 < i → ∀ j, 0 < j → j < n → parent j = i → h (parent i) ≤ h j

/-- Ordered, but `i` may sort after its children. -/
structure DownOrdered (h : Nat → γ) (n i : Nat) : Prop where
  others : ∀ j, 0 < j → j < n → parent j ≠ i → h (parent j) ≤ h j
  grand : 0 < i → ∀ j, 0 < j → j < n → parent j = i → h (parent i) ≤ h j

theorem Ordered.mono {m : Nat} (ho : Ordered h n) (hm : m ≤ n) : Ordered h m :=
  fun j hj hlt => ho j hj (Nat.lt_of_lt_of_le hlt hm)

/-- **The root of an ordered heap sorts first.** -/
theorem Ordered.root_le (ho : Ordered h n) (j : Nat) (hj : j < n) : h 0 ≤ h j := by
  induction j using Nat.strongRecOn with
  | ind j ih =>
    by_cases hz : j = 0
    · rw [hz]
    · have hup := parent_lt (Nat.pos_of_ne_zero hz)
      calc h 0 ≤ h (parent j) := ih _ hup (Nat.lt_trans hup hj)
        _ ≤ h j := ho j (Nat.pos_of_ne_zero hz) hj

/-- A new last element is out of order with the positions above it alone. -/
theorem Ordered.up (ho : Ordered h n) {x : γ} : UpOrdered (Function.update h n x) (n + 1) n where
  others j hj hlt hne := by
    have hlt' : j < n := by omega
    rw [Function.update_of_ne hne, Function.update_of_ne (by have := parent_lt hj; omega)]
    exact ho j hj hlt'
  grand hpos j hj hlt hp := by
    have := parent_lt hj
    omega

/-- Where the position above is not larger, the heap is in order. -/
theorem UpOrdered.done (ho : UpOrdered h n i) (hi : 0 < i → h (parent i) ≤ h i) : Ordered h n := by
  intro j hj hlt
  by_cases hji : j = i
  · subst hji
    exact hi hj
  · exact ho.others j hj hlt hji

/-- Where no child is smaller, the heap is in order. -/
theorem DownOrdered.done (ho : DownOrdered h n i)
    (hi : ∀ j, 0 < j → j < n → parent j = i → h i ≤ h j) : Ordered h n := by
  intro j hj hlt
  by_cases hp : parent j = i
  · rw [hp]
    exact hi j hj hlt hp
  · exact ho.others j hj hlt hp

/-- **One step up.** -/
theorem UpOrdered.step (ho : UpOrdered h n i) (hpos : 0 < i) (hin : i < n)
    (hlt : h i < h (parent i)) : UpOrdered (swap h i (parent i)) n (parent i) where
  others j hj hjn hne := by
    by_cases hji : j = i
    · subst hji
      rw [swap_left, swap_right]
      exact le_of_lt hlt
    · rw [swap_other h hji hne]
      by_cases hpi : parent j = i
      · rw [hpi, swap_left]
        exact ho.grand hpos j hj hjn hpi
      · by_cases hpp : parent j = parent i
        · have hle := ho.others j hj hjn hji
          rw [hpp] at hle ⊢
          rw [swap_right]
          exact (le_of_lt hlt).trans hle
        · rw [swap_other h hpi hpp]
          exact ho.others j hj hjn hji
  grand hpp j hj hjn hjp := by
    have hup := ho.others (parent i) hpp (Nat.lt_trans (parent_lt hpos) hin) (parent_ne hpos)
    have h1 := parent_lt hpp
    have h2 := parent_lt hpos
    rw [swap_other h (by omega) (by omega)]
    by_cases hji : j = i
    · subst hji
      rw [swap_left]
      exact hup
    · have h3 := parent_lt hj
      rw [swap_other h hji (by omega)]
      have hle := ho.others j hj hjn hji
      rw [hjp] at hle
      exact hup.trans hle

/-- **One step down**, to the child that sorts first. -/
theorem DownOrdered.step (ho : DownOrdered h n i) {c : Nat} (hc : 0 < c) (hcn : c < n)
    (hci : parent c = i) (hlt : h c < h i)
    (hleast : ∀ j, 0 < j → j < n → parent j = i → h c ≤ h j) :
    DownOrdered (swap h i c) n c where
  others j hj hjn hne := by
    have hic : i < c := by
      rw [← hci]
      exact parent_lt hc
    by_cases hpi : parent j = i
    · rw [hpi, swap_left]
      by_cases hjc : j = c
      · subst hjc
        rw [swap_right]
        exact le_of_lt hlt
      · have hji : j ≠ i := by
          have := parent_lt hj
          omega
        rw [swap_other h hji hjc]
        exact hleast j hj hjn hpi
    · rw [swap_other h hpi hne]
      by_cases hji : j = i
      · subst hji
        rw [swap_left]
        exact ho.grand hj c hc hcn hci
      · have hjc : j ≠ c := by
          rintro rfl
          exact hpi hci
        rw [swap_other h hji hjc]
        exact ho.others j hj hjn hpi
  grand hcpos j hj hjn hjc := by
    have hlt1 := parent_lt hj
    have hlt2 : i < c := by
      rw [← hci]
      exact parent_lt hc
    rw [hci, swap_left, swap_other h (by omega) (by omega)]
    have hle := ho.others j hj hjn (by omega)
    rw [hjc] at hle
    exact hle

/-! ## Removal -/

/-- The last entry in place of `i`, when it sorts before the parent there. -/
theorem Ordered.removeUp (ho : Ordered h (n + 1)) (hi : i < n)
    (hlt : h n < h (parent i)) : UpOrdered (swap h i n) n i where
  others j hj hjn hne := by
    rw [swap_other h hne (by omega)]
    by_cases hp : parent j = i
    · have hle := ho j hj (by omega)
      rw [hp] at hle ⊢
      rw [swap_left]
      rcases Nat.eq_zero_or_pos i with rfl | hpos
      · exact absurd hlt (not_lt.mpr (ho.root_le n (Nat.lt_succ_self n)))
      · exact (le_of_lt hlt).trans ((ho i hpos (by omega)).trans hle)
    · rw [swap_other h hp (by have := parent_lt hj; omega)]
      exact ho j hj (by omega)
  grand hpos j hj hjn hp := by
    have h1 := parent_lt hpos
    have h2 := parent_lt hj
    have hle := ho j hj (by omega)
    rw [hp] at hle
    rw [swap_other h (by omega) (by omega), swap_other h (by omega) (by omega)]
    exact (ho i hpos (by omega)).trans hle

/-- The last entry in place of `i`, when it sorts no earlier than the parent there. -/
theorem Ordered.removeDown (ho : Ordered h (n + 1)) (hi : i < n)
    (hle : 0 < i → h (parent i) ≤ h n) : DownOrdered (swap h i n) n i where
  others j hj hjn hp := by
    have h1 := parent_lt hj
    rw [swap_other h hp (by omega)]
    by_cases hji : j = i
    · subst hji
      rw [swap_left]
      exact hle hj
    · rw [swap_other h hji (by omega)]
      exact ho j hj (by omega)
  grand hpos j hj hjn hp := by
    have h1 := parent_lt hpos
    have h2 := parent_lt hj
    have hchild := ho j hj (by omega)
    rw [hp] at hchild
    rw [swap_other h (by omega) (by omega), swap_other h (by omega) (by omega)]
    exact (ho i hpos (by omega)).trans hchild

end BinaryHeap
