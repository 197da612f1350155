import Mog.Lib.LinearProbe
import Mog.Ouch.Gateway

/-!
# The order table

What has been stored under a reference is found there. The table doubles before it is
more than half full, so that a probe always meets an empty slot.

The loops of the table are bounded by its capacity here, and the first result is about those
bounds: a probe stops before it has gone round, as long as one slot is empty. Half of the slots
always are, since an insertion that would leave fewer doubles the table first. What the table is
as a map, with deletion, is the next step and has a file of its own.
-/

namespace Mog

namespace Ouch

namespace FlatOrderTable

variable {t u : FlatOrderTable} {ref : Nat} {m : OrderMeta}

/-- The slots that hold an order. -/
def used (t : FlatOrderTable) : Finset Nat :=
  (Finset.range (t.mask + 1)).filter fun x => (t.slots x).1 ≠ 0

theorem mem_used {x : Nat} : x ∈ t.used ↔ x < t.mask + 1 ∧ (t.slots x).1 ≠ 0 := by
  unfold used
  rw [Finset.mem_filter, Finset.mem_range]

/-- The table has counted its orders and is about half full at most. -/
structure Roomy (t : FlatOrderTable) : Prop where
  counted : t.used.card ≤ t.size
  half : 2 * t.size ≤ t.mask + 2
  wide : 1 ≤ t.mask

/-- A slot where the probes for `ref` stop. -/
def Stops (t : FlatOrderTable) (ref x : Nat) : Prop := (t.slots x).1 = ref ∨ (t.slots x).1 = 0

instance (t : FlatOrderTable) (ref x : Nat) : Decidable (t.Stops ref x) :=
  inferInstanceAs (Decidable (_ ∨ _))

/-- The probes reach every slot. -/
theorem probe_surjective (t : FlatOrderTable) (ref : Nat) {x : Nat} (hx : x < t.mask + 1) :
    ∃ i < t.mask + 1, t.probe ref i = x := by
  have hhome : hash ref % (t.mask + 1) < t.mask + 1 := Nat.mod_lt _ (Nat.succ_pos _)
  exact ⟨LinearProbe.gap (t.mask + 1) (hash ref % (t.mask + 1)) x, LinearProbe.gap_lt hhome hx,
    LinearProbe.steps_gap hhome hx⟩

/-- A table with fewer orders than slots has a place for every order. -/
theorem exists_stop (h : t.used.card < t.mask + 1) (ref : Nat) :
    ∃ i < t.mask + 1, t.Stops ref (t.probe ref i) := by
  have hfree : ∃ x < t.mask + 1, (t.slots x).1 = 0 := by
    by_contra hnone
    have hfull : t.used = Finset.range (t.mask + 1) := by
      refine Finset.filter_true_of_mem fun x hx hzero => ?_
      exact hnone ⟨x, Finset.mem_range.mp hx, hzero⟩
    rw [hfull, Finset.card_range] at h
    exact Nat.lt_irrefl _ h
  obtain ⟨x, hx, hzero⟩ := hfree
  obtain ⟨i, hi, hprobe⟩ := t.probe_surjective ref hx
  exact ⟨i, hi, Or.inr (by rw [hprobe]; exact hzero)⟩

/-! ## One insertion -/

/-- Where the probes stop, the order is written. -/
theorem insertFrom_stop {fuel i : Nat} (h : t.Stops ref (t.probe ref i)) :
    (t.insertFrom ref m (fuel + 1) i).slots
        = (fun y => if y = t.probe ref i then (ref, m) else t.slots y)
      ∧ (t.insertFrom ref m (fuel + 1) i).mask = t.mask
      ∧ (t.insertFrom ref m (fuel + 1) i).size
        = if (t.slots (t.probe ref i)).1 = ref then t.size else t.size + 1 := by
  rw [insertFrom]
  by_cases href : (t.slots (t.probe ref i)).1 = ref
  · rw [if_pos href, if_pos href]
    exact ⟨rfl, rfl, rfl⟩
  · have hzero := h.resolve_left href
    rw [if_neg href, if_pos hzero, if_neg href]
    exact ⟨rfl, rfl, rfl⟩

/-- Where they do not, the next probe is made. -/
theorem insertFrom_pass {fuel i : Nat} (h : ¬ t.Stops ref (t.probe ref i)) :
    t.insertFrom ref m (fuel + 1) i = t.insertFrom ref m fuel (i + 1) := by
  obtain ⟨href, hzero⟩ := not_or.mp h
  rw [insertFrom, if_neg href, if_neg hzero]

/-- **An insertion** writes at most one slot, one where the probes stop. -/
theorem insertFrom_spec (t : FlatOrderTable) {ref : Nat} (hne : ref ≠ 0) (m : OrderMeta) (fuel i : Nat) :
    (t.insertFrom ref m fuel i).mask = t.mask
      ∧ (t.insertFrom ref m fuel i).size ≤ t.size + 1
      ∧ (t.used.card ≤ t.size →
        (t.insertFrom ref m fuel i).used.card ≤ (t.insertFrom ref m fuel i).size)
      ∧ ∀ x, ¬ t.Stops ref x → (t.insertFrom ref m fuel i).slots x = t.slots x := by
  induction fuel generalizing i with
  | zero => exact ⟨rfl, Nat.le_succ _, id, fun _ _ => rfl⟩
  | succ fuel ih =>
      by_cases hstop : t.Stops ref (t.probe ref i)
      · obtain ⟨hslots, hmask, hsize⟩ := @insertFrom_stop t ref m fuel i hstop
        generalize t.insertFrom ref m (fuel + 1) i = u at hslots hmask hsize
        have hsub : u.used ⊆ insert (t.probe ref i) t.used := by
          intro x hx
          obtain ⟨hlt, hne⟩ := mem_used.mp hx
          rw [hslots] at hne
          rw [hmask] at hlt
          dsimp only at hne
          by_cases hxp : x = t.probe ref i
          · rw [hxp]
            exact Finset.mem_insert_self _ _
          · rw [if_neg hxp] at hne
            exact Finset.mem_insert_of_mem (mem_used.mpr ⟨hlt, hne⟩)
        have hcard := Finset.card_le_card hsub
        refine ⟨hmask, ?_, fun hcount => ?_, fun x hx => ?_⟩
        · rw [hsize]
          split <;> omega
        · rw [hsize]
          have hone := Finset.card_insert_le (t.probe ref i) t.used
          by_cases href : (t.slots (t.probe ref i)).1 = ref
          · rw [if_pos href]
            have hin : t.probe ref i ∈ t.used := by
              refine mem_used.mpr ⟨Nat.mod_lt _ (Nat.succ_pos _), ?_⟩
              rw [href]
              exact hne
            rw [Finset.insert_eq_of_mem hin] at hcard
            omega
          · rw [if_neg href]
            omega
        · rw [hslots]
          refine if_neg fun hxp => hx ?_
          rw [hxp]
          exact hstop
      · rw [insertFrom_pass hstop]
        exact ih (i + 1)

/-- **What is inserted is found**, if the probes stop somewhere. -/
theorem findFrom_insertFrom (hne : ref ≠ 0) {fuel i : Nat}
    (hstop : ∃ j, j < fuel ∧ t.Stops ref (t.probe ref (i + j))) :
    (t.insertFrom ref m fuel i).findFrom ref fuel i = some m := by
  induction fuel generalizing i with
  | zero =>
      obtain ⟨j, hj, -⟩ := hstop
      exact absurd hj (Nat.not_lt_zero j)
  | succ fuel ih =>
      have hprobe : ∀ u : FlatOrderTable, u.mask = t.mask → u.probe ref i = t.probe ref i := by
        intro u hu
        unfold probe
        rw [hu]
      by_cases hhere : t.Stops ref (t.probe ref i)
      · obtain ⟨hslots, hmask, -⟩ := @insertFrom_stop t ref m fuel i hhere
        generalize t.insertFrom ref m (fuel + 1) i = u at hslots hmask ⊢
        have hslot : u.slots (u.probe ref i) = (ref, m) := by
          rw [hslots, hprobe u hmask]
          exact if_pos rfl
        rw [findFrom, hslot]
        exact if_pos rfl
      · obtain ⟨j, hj, hlater⟩ := hstop
        have hnext : ∃ j, j < fuel ∧ t.Stops ref (t.probe ref (i + 1 + j)) := by
          cases j with
          | zero => exact absurd hlater hhere
          | succ j =>
              refine ⟨j, by omega, ?_⟩
              rw [show i + 1 + j = i + (j + 1) by omega]
              exact hlater
        have hfound := ih hnext
        obtain ⟨hmask, -, -, hother⟩ := insertFrom_spec t hne m fuel (i + 1)
        rw [insertFrom_pass hhere]
        generalize t.insertFrom ref m fuel (i + 1) = u at hfound hmask hother
        have hslot : u.slots (u.probe ref i) = t.slots (t.probe ref i) := by
          rw [hprobe u hmask]
          exact hother _ hhere
        obtain ⟨href, hzero⟩ := not_or.mp hhere
        rw [findFrom, hslot, if_neg href, if_neg hzero]
        exact hfound

/-! ## Growing -/

/-- The slots up to `n` are inserted into the new table. -/
def refill (t : FlatOrderTable) (n : Nat) : FlatOrderTable :=
  (List.range n).foldl
    (fun u x =>
      if (t.slots x).1 ≠ 0 then u.insertFrom (t.slots x).1 (t.slots x).2 (u.mask + 1) 0 else u)
    { mask := 2 * (t.mask + 1) - 1 }

theorem refill_succ (t : FlatOrderTable) (n : Nat) : t.refill (n + 1)
    = if (t.slots n).1 ≠ 0 then
        (t.refill n).insertFrom (t.slots n).1 (t.slots n).2 ((t.refill n).mask + 1) 0
      else t.refill n := by
  unfold refill
  rw [List.range_succ, List.foldl_append]
  rfl

/-- **Refilling** counts at most the orders of the old table. -/
theorem refill_spec (t : FlatOrderTable) (n : Nat) : (t.refill n).mask = 2 * (t.mask + 1) - 1
      ∧ (t.refill n).used.card ≤ (t.refill n).size
      ∧ (t.refill n).size ≤ ((Finset.range n).filter fun x => (t.slots x).1 ≠ 0).card := by
  induction n with
  | zero =>
      refine ⟨rfl, ?_, Nat.le_refl 0⟩
      have hempty : (t.refill 0).used = ∅ := by
        refine Finset.filter_false_of_mem fun x _ hx => hx rfl
      rw [hempty]
      exact Nat.le_refl 0
  | succ n ih =>
      obtain ⟨hmask, hcount, hsize⟩ := ih
      rw [refill_succ, Finset.range_add_one, Finset.filter_insert]
      by_cases hne : (t.slots n).1 ≠ 0
      · obtain ⟨hm, hs, hc, -⟩ := insertFrom_spec (t.refill n) hne (t.slots n).2
          ((t.refill n).mask + 1) 0
        rw [if_pos hne, if_pos hne]
        refine ⟨hm.trans hmask, hc hcount, ?_⟩
        rw [Finset.card_insert_of_notMem fun hmem => Finset.notMem_range_self
          (Finset.mem_of_mem_filter _ hmem)]
        omega
      · rw [if_neg hne, if_neg hne]
        exact ⟨hmask, hcount, hsize⟩

/-! ## The table's invariant -/

theorem roomy_init : Roomy {} where
  counted := by
    have hempty : ({} : FlatOrderTable).used = ∅ :=
      Finset.filter_false_of_mem fun x _ hx => hx rfl
    rw [hempty]
    exact Nat.le_refl 0
  half := by decide
  wide := by decide

/-- **What has been stored is found**, and there is room for more. -/
theorem insertOrAssign_spec (h : t.Roomy) (ref : Nat) (m : OrderMeta) :
    (t.insertOrAssign ref m).Roomy ∧ (ref ≠ 0 → (t.insertOrAssign ref m).find ref = some m) := by
  unfold insertOrAssign
  by_cases hzero : ref = 0
  · rw [if_pos hzero]
    exact ⟨h, fun hne => absurd hzero hne⟩
  rw [if_neg hzero]
  have hroom : ∀ u : FlatOrderTable, u.used.card ≤ u.size → 2 * (u.size + 1) ≤ u.mask + 2 →
      1 ≤ u.mask → (u.insertFrom ref m (u.mask + 1) 0).Roomy
        ∧ (ref ≠ 0 → (u.insertFrom ref m (u.mask + 1) 0).find ref = some m) := by
    intro u hcount hhalf hwide
    obtain ⟨hmask, hsize, hcard, -⟩ := insertFrom_spec u hzero m (u.mask + 1) 0
    refine ⟨⟨hcard hcount, by omega, by omega⟩, fun _ => ?_⟩
    obtain ⟨i, hi, hstop⟩ := exists_stop (t := u) (by omega) ref
    unfold find
    rw [if_neg hzero, hmask]
    exact findFrom_insertFrom hzero ⟨i, hi, by rw [Nat.zero_add]; exact hstop⟩
  have hcounted := h.counted
  have hhalf := h.half
  have hwide := h.wide
  by_cases hgrow : t.mask + 1 ≤ t.size * 2
  · obtain ⟨hm, hc, hs⟩ := t.refill_spec (t.mask + 1)
    have hs : (t.refill (t.mask + 1)).size ≤ t.used.card := hs
    rw [if_pos hgrow]
    exact hroom (t.refill (t.mask + 1)) hc (by omega) (by omega)
  · rw [if_neg hgrow]
    exact hroom t hcounted (by omega) hwide

end FlatOrderTable

end Ouch

end Mog
