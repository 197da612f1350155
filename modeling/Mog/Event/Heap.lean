import Mathlib.Data.Prod.Lex
import Mog.Event.Engine
import Mog.Lib.BinaryHeap
import Mog.Sim.Scheduler

/-!
# The heap scheduler is a stable priority queue

The rest of the scheduler's calls, and its refinement. Each slot in use knows the
position of its entry in the heap and each entry its slot; a sift is a sequence of
swaps, and a swap keeps both while it moves one entry of the heap order.

Positions are 32-bit numbers. The children of a position are computed in that width, so sifting
down is proved for heaps in which no child's number comes round: 2^31 entries are the most. The
rest holds for heaps of any size. What is proved of a call is always the same: its effect on the
slot table, and that slots and entries still point at one another in heap order.
-/

namespace Mog

open TicketQueue BinaryHeap

namespace Scheduler

variable {α : Type} (w : Scheduler α)

def size : Nat := w.heapSize

/-- False for a stale handle or one out of range. -/
def cancel (h : GenHandle) : Bool × Scheduler α :=
  if w.capacity ≤ h.index then (false, w)
  else if (w.slots h.index).live = false ∨ (w.slots h.index).generation ≠ h.generation then (false, w)
  else (true, (w.removeAt (w.slots h.index).heapPos).freeSlot h.index)

def peekMin : α := (w.slots (w.heap 0).slot).value

def clear [Inhabited α] : Scheduler α :=
  { w with
    watermark := w.capacity
    freeHead := 0
    nextSeq := 0
    heapSize := 0
    slots := fun i =>
      if i < w.capacity then
        let s : EventSlot α := if w.watermark ≤ i then { value := default } else w.slots i
        { s with
          generation := if s.live then (s.generation + 1) % 2 ^ 32 else s.generation
          live := false
          freeNext := if i + 1 < w.capacity then i + 1 else kNullIndex }
      else w.slots i }

/-- The loop of `audit` over the heap. -/
def auditEntry (i : Nat) : Prop :=
  (w.heap i).slot < w.capacity ∧ (w.slots (w.heap i).slot).live = true
    ∧ (w.slots (w.heap i).slot).heapPos = i ∧ (w.slots (w.heap i).slot).seq = (w.heap i).seq
    ∧ (0 < i → ¬ entryLess (w.heap i) (w.heap ((i - 1) / 2)))

instance (i : Nat) : Decidable (w.auditEntry i) := inferInstanceAs (Decidable (_ ∧ _))

/-- Heap order, back-pointers, sequence numbers, and the length of the free list. -/
def audit : Bool :=
  decide (w.heapSize ≤ w.capacity) && decide (∀ i, i < w.heapSize → w.auditEntry i)
    && decide ((SlotTable.freeLength w.capacity (fun i => (w.slots i).live)
        (fun i => (w.slots i).freeNext) (w.capacity + 1) w.freeHead).map
          (fun n => n + (w.capacity - w.watermark)) = some (w.capacity - w.heapSize))

/-! ## The slot table of a scheduler -/

/-- What a slot in use records. -/
def recordOf (i : Nat) : SlotRecord α :=
  { ts := (w.heap (w.slots i).heapPos).ts, seq := (w.slots i).seq, value := (w.slots i).value }

def table : SlotTable α where
  capacity := w.capacity
  watermark := w.watermark
  freeHead := w.freeHead
  freeNext := fun i => (w.slots i).freeNext
  generation := fun i => (w.slots i).generation
  record := fun i => if (w.slots i).live then some (w.recordOf i) else none
  size := w.heapSize
  nextSeq := w.nextSeq

/-- The slots of `P` and the entries of the heap point at each other. -/
structure Linked (P : Nat → Prop) (w : Scheduler α) : Prop where
  entry : ∀ j, j < w.heapSize → P (w.heap j).slot ∧ (w.slots (w.heap j).slot).heapPos = j
    ∧ (w.slots (w.heap j).slot).seq = (w.heap j).seq
  slot : ∀ i, P i → (w.slots i).heapPos < w.heapSize ∧ (w.heap (w.slots i).heapPos).slot = i

/-- The order of the heap: timestamp first, then sequence. -/
def key (w : Scheduler α) (j : Nat) : Lex (Nat × Nat) := toLex ((w.heap j).ts, (w.heap j).seq)

theorem entryLess_iff {i j : Nat} : entryLess (w.heap i) (w.heap j) ↔ w.key i < w.key j := by
  unfold key entryLess
  rw [Prod.Lex.toLex_lt_toLex]

structure HeapInv (w : Scheduler α) : Prop where
  linked : Linked (fun i => (w.slots i).live = true) w
  ordered : Ordered w.key w.heapSize

/-- `w'` is `w` with its heap entries permuted: nothing of the table changes for the slots
of `P`, nor anything of the others but where they believe to be. -/
structure Permuted (P : Nat → Prop) (w w' : Scheduler α) : Prop where
  capacity : w'.capacity = w.capacity
  watermark : w'.watermark = w.watermark
  freeHead : w'.freeHead = w.freeHead
  nextSeq : w'.nextSeq = w.nextSeq
  size : w'.heapSize = w.heapSize
  slots : ∀ i, ∃ p, w'.slots i = { w.slots i with heapPos := p }
  ts : ∀ i, P i → (w'.heap (w'.slots i).heapPos).ts = (w.heap (w.slots i).heapPos).ts

variable {w}

theorem Permuted.refl (P : Nat → Prop) (w : Scheduler α) : Permuted P w w :=
  ⟨rfl, rfl, rfl, rfl, rfl, fun i => ⟨(w.slots i).heapPos, rfl⟩, fun _ _ => rfl⟩

theorem Permuted.trans {P : Nat → Prop} {w w' w'' : Scheduler α} (h : Permuted P w w')
    (h' : Permuted P w' w'') : Permuted P w w'' where
  capacity := h'.capacity.trans h.capacity
  watermark := h'.watermark.trans h.watermark
  freeHead := h'.freeHead.trans h.freeHead
  nextSeq := h'.nextSeq.trans h.nextSeq
  size := h'.size.trans h.size
  slots i := by
    obtain ⟨p, hp⟩ := h.slots i
    obtain ⟨p', hp'⟩ := h'.slots i
    exact ⟨p', by rw [hp', hp]⟩
  ts i hi := (h'.ts i hi).trans (h.ts i hi)

section

variable {P : Nat → Prop} {w' : Scheduler α} (h : Permuted P w w') (i : Nat)
include h

theorem Permuted.live : (w'.slots i).live = (w.slots i).live := by
  obtain ⟨p, hp⟩ := h.slots i
  rw [hp]

theorem Permuted.generation : (w'.slots i).generation = (w.slots i).generation := by
  obtain ⟨p, hp⟩ := h.slots i
  rw [hp]

theorem Permuted.freeNext : (w'.slots i).freeNext = (w.slots i).freeNext := by
  obtain ⟨p, hp⟩ := h.slots i
  rw [hp]

theorem Permuted.recordOf (hi : P i) : w'.recordOf i = w.recordOf i := by
  obtain ⟨p, hp⟩ := h.slots i
  have hts := h.ts i hi
  unfold Scheduler.recordOf
  rw [hts, hp]

end

/-- A permutation that covers every slot in use keeps the table. -/
theorem Permuted.table {w' : Scheduler α}
    (h : Permuted (fun i => (w.slots i).live = true) w w') : w'.table = w.table := by
  have hrec : ∀ i, (if (w'.slots i).live then some (w'.recordOf i) else none)
      = if (w.slots i).live then some (w.recordOf i) else none := by
    intro i
    rw [h.live]
    by_cases hi : (w.slots i).live = true
    · rw [if_pos hi, if_pos hi, h.recordOf i hi]
    · rw [if_neg hi, if_neg hi]
  unfold Scheduler.table
  simp only [h.capacity, h.watermark, h.freeHead, h.nextSeq, h.size, h.generation, h.freeNext, hrec]

/-! ## Swaps and sifts -/

theorem swapEntries_heap (w : Scheduler α) (a b : Nat) :
    (w.swapEntries a b).heap = swap w.heap a b := rfl

theorem swapEntries_key (w : Scheduler α) (a b : Nat) :
    (w.swapEntries a b).key = swap w.key a b := by
  funext j
  show toLex ((swap w.heap a b j).ts, (swap w.heap a b j).seq) = swap w.key a b j
  unfold swap
  simp only [Function.update_apply]
  split
  · rfl
  split
  · rfl
  · rfl

theorem swapEntries_slots (w : Scheduler α) (a b i : Nat) :
    (w.swapEntries a b).slots i
      = if i = (w.heap a).slot then { w.slots i with heapPos := b }
        else if i = (w.heap b).slot then { w.slots i with heapPos := a } else w.slots i := by
  have hb : (w.swapEntries a b).heap b = w.heap a := swap_right w.heap
  have ha : (w.swapEntries a b).heap a = w.heap b := swap_left w.heap
  have hslots : (w.swapEntries a b).slots
      = Function.update
          (Function.update w.slots ((w.swapEntries a b).heap a).slot
            { w.slots ((w.swapEntries a b).heap a).slot with heapPos := a })
          ((w.swapEntries a b).heap b).slot
          { Function.update w.slots ((w.swapEntries a b).heap a).slot
              { w.slots ((w.swapEntries a b).heap a).slot with heapPos := a }
              ((w.swapEntries a b).heap b).slot with heapPos := b } := rfl
  rw [hslots, ha, hb]
  by_cases h1 : i = (w.heap a).slot
  · rw [if_pos h1, ← h1, Function.update_self]
    by_cases h2 : i = (w.heap b).slot
    · rw [← h2, Function.update_self]
    · rw [Function.update_of_ne h2]
  · rw [if_neg h1, Function.update_of_ne h1]
    by_cases h2 : i = (w.heap b).slot
    · rw [if_pos h2, h2, Function.update_self]
    · rw [if_neg h2, Function.update_of_ne h2]

/-- **A swap** keeps the pointers and permutes the entries. -/
theorem Linked.swap {P : Nat → Prop} (h : Linked P w) {a b : Nat} (ha : a < w.heapSize)
    (hb : b < w.heapSize) : Linked P (w.swapEntries a b) ∧ Permuted P w (w.swapEntries a b) := by
  obtain ⟨hPa, hposa, hseqa⟩ := h.entry a ha
  obtain ⟨hPb, hposb, hseqb⟩ := h.entry b hb
  have hslots := swapEntries_slots w a b
  -- A swap writes positions in the heap, and nothing else of a slot.
  have hfields : ∀ i, ∃ p, (w.swapEntries a b).slots i = { w.slots i with heapPos := p } := by
    intro i
    rw [hslots]
    split
    · exact ⟨b, rfl⟩
    split
    · exact ⟨a, rfl⟩
    · exact ⟨(w.slots i).heapPos, rfl⟩
  -- Forwards: the position that a slot names holds the entry that it named before.
  have hpos : ∀ i, P i → ((w.swapEntries a b).slots i).heapPos < w.heapSize
      ∧ BinaryHeap.swap w.heap a b ((w.swapEntries a b).slots i).heapPos
        = w.heap (w.slots i).heapPos := by
    intro i hi
    rw [hslots]
    obtain ⟨hlt, hback⟩ := h.slot i hi
    by_cases h1 : i = (w.heap a).slot
    · rw [if_pos h1]
      subst h1
      exact ⟨hb, by rw [hposa]; exact swap_right w.heap⟩
    · rw [if_neg h1]
      by_cases h2 : i = (w.heap b).slot
      · rw [if_pos h2]
        subst h2
        exact ⟨ha, by rw [hposb]; exact swap_left w.heap⟩
      · rw [if_neg h2]
        refine ⟨hlt, swap_other _ ?_ ?_⟩
        · intro hc
          exact h1 (by rw [← hc, hback])
        · intro hc
          exact h2 (by rw [← hc, hback])
  -- Back: an entry's slot names the position to which the entry has moved.
  have hentry : ∀ j, j < w.heapSize → ∃ j', j' < w.heapSize
      ∧ BinaryHeap.swap w.heap a b j = w.heap j'
      ∧ ((w.swapEntries a b).slots (w.heap j').slot).heapPos = j := by
    intro j hj
    by_cases h2 : j = b
    · refine ⟨a, ha, by rw [h2]; exact swap_right w.heap, ?_⟩
      rw [hslots, if_pos rfl, h2]
    · by_cases h1 : j = a
      · refine ⟨b, hb, by rw [h1]; exact swap_left w.heap, ?_⟩
        have hne : (w.heap b).slot ≠ (w.heap a).slot := by
          intro hc
          rw [hc, hposa] at hposb
          exact h2 (h1.trans hposb)
        rw [hslots, if_neg hne, if_pos rfl, h1]
      · obtain ⟨_, hposj, _⟩ := h.entry j hj
        refine ⟨j, hj, swap_other _ h1 h2, ?_⟩
        have hna : (w.heap j).slot ≠ (w.heap a).slot := by
          intro hc
          rw [hc, hposa] at hposj
          exact h1 hposj.symm
        have hnb : (w.heap j).slot ≠ (w.heap b).slot := by
          intro hc
          rw [hc, hposb] at hposj
          exact h2 hposj.symm
        rw [hslots, if_neg hna, if_neg hnb]
        exact hposj
  refine ⟨⟨fun j hj => ?_, fun i hi => ?_⟩, rfl, rfl, rfl, rfl, rfl, hfields, fun i hi => ?_⟩
  · obtain ⟨j', hj', hheap, hback⟩ := hentry j hj
    obtain ⟨hP, _, hseq⟩ := h.entry j' hj'
    rw [swapEntries_heap, hheap]
    refine ⟨hP, hback, ?_⟩
    obtain ⟨p, hp⟩ := hfields (w.heap j').slot
    rw [hp]
    exact hseq
  · obtain ⟨hlt, hheap⟩ := hpos i hi
    refine ⟨hlt, ?_⟩
    rw [swapEntries_heap, hheap]
    exact (h.slot i hi).2
  · rw [swapEntries_heap, (hpos i hi).2]

/-- **Sifting up** restores the order above. -/
theorem siftUp_spec {P : Nat → Prop} {fuel i : Nat} (h : Linked P w) (hi : i < w.heapSize)
    (ho : UpOrdered w.key w.heapSize i) (hfuel : i ≤ fuel) :
    Linked P (w.siftUp fuel i) ∧ Permuted P w (w.siftUp fuel i)
      ∧ Ordered (w.siftUp fuel i).key w.heapSize := by
  induction fuel generalizing w i with
  | zero => exact ⟨h, Permuted.refl P w, ho.done fun hpos => absurd hpos (by omega)⟩
  | succ fuel ih =>
      rw [siftUp]
      by_cases hup : 0 < i ∧ entryLess (w.heap i) (w.heap ((i - 1) / 2))
      · rw [if_pos hup]
        obtain ⟨hpos, hless⟩ := hup
        have hp : (i - 1) / 2 = parent i := rfl
        rw [hp] at hless ⊢
        have hlt := parent_lt hpos
        have hpn : parent i < w.heapSize := Nat.lt_trans hlt hi
        obtain ⟨hlink, hperm⟩ := h.swap hi hpn
        have hstep := ho.step hpos hi ((entryLess_iff w).mp hless)
        rw [← swapEntries_key] at hstep
        obtain ⟨hlink', hperm', hord⟩ := ih hlink hpn hstep (by omega)
        exact ⟨hlink', hperm.trans hperm', hord⟩
      · rw [if_neg hup]
        refine ⟨h, Permuted.refl P w, ho.done fun hpos => ?_⟩
        exact not_lt.mp fun hc => hup ⟨hpos, (entryLess_iff w).mpr hc⟩

/-- The least of a position and its children, where the children have their own positions. -/
theorem leastOf_spec (w : Scheduler α) {i : Nat} (hi : 2 * i + 2 < 2 ^ 32) :
    (w.leastOf i = i ∨ (parent (w.leastOf i) = i ∧ 0 < w.leastOf i ∧ w.leastOf i < w.heapSize
        ∧ w.key (w.leastOf i) < w.key i))
      ∧ ∀ j, 0 < j → j < w.heapSize → parent j = i → w.key (w.leastOf i) ≤ w.key j := by
  have hl : parent (2 * i + 1) = i := (parent_eq_iff (Nat.succ_pos _)).mpr (Or.inl rfl)
  have hr : parent (2 * i + 2) = i := (parent_eq_iff (Nat.succ_pos _)).mpr (Or.inr rfl)
  have hchild : ∀ {k : Nat}, w.key k ≤ w.key i →
      (2 * i + 1 < w.heapSize → w.key k ≤ w.key (2 * i + 1)) →
      (2 * i + 2 < w.heapSize → w.key k ≤ w.key (2 * i + 2)) →
      ∀ j, 0 < j → j < w.heapSize → parent j = i → w.key k ≤ w.key j := by
    intro k _ h1 h2 j hj hlt hp
    rcases (parent_eq_iff hj).mp hp with rfl | rfl
    · exact h1 hlt
    · exact h2 hlt
  unfold leastOf
  simp only [entryLess_iff, Nat.mod_eq_of_lt hi, Nat.mod_eq_of_lt (Nat.lt_of_succ_lt hi)]
  by_cases hleft : 2 * i + 1 < w.heapSize ∧ w.key (2 * i + 1) < w.key i
  · simp only [if_pos hleft]
    by_cases hright : 2 * i + 2 < w.heapSize ∧ w.key (2 * i + 2) < w.key (2 * i + 1)
    · rw [if_pos hright]
      have hlt := hright.2.trans hleft.2
      exact ⟨Or.inr ⟨hr, Nat.succ_pos _, hright.1, hlt⟩,
        hchild (le_of_lt hlt) (fun _ => le_of_lt hright.2) (fun _ => le_refl _)⟩
    · rw [if_neg hright]
      exact ⟨Or.inr ⟨hl, Nat.succ_pos _, hleft⟩,
        hchild (le_of_lt hleft.2) (fun _ => le_refl _)
          (fun hlt => not_lt.mp fun hc => hright ⟨hlt, hc⟩)⟩
  · simp only [if_neg hleft]
    have hle : 2 * i + 1 < w.heapSize → w.key i ≤ w.key (2 * i + 1) := fun hlt =>
      not_lt.mp fun hc => hleft ⟨hlt, hc⟩
    by_cases hright : 2 * i + 2 < w.heapSize ∧ w.key (2 * i + 2) < w.key i
    · rw [if_pos hright]
      exact ⟨Or.inr ⟨hr, Nat.succ_pos _, hright⟩,
        hchild (le_of_lt hright.2) (fun hlt => (le_of_lt hright.2).trans (hle hlt))
          (fun _ => le_refl _)⟩
    · rw [if_neg hright]
      exact ⟨Or.inl rfl, hchild (le_refl _) hle
        (fun hlt => not_lt.mp fun hc => hright ⟨hlt, hc⟩)⟩

/-- **Sifting down** restores the order below, in a heap whose positions have 32-bit children. -/
theorem siftDown_spec {P : Nat → Prop} {fuel i : Nat} (h : Linked P w) (hi : i < w.heapSize)
    (hn : w.heapSize < 2 ^ 31) (ho : DownOrdered w.key w.heapSize i)
    (hfuel : w.heapSize ≤ fuel + i) :
    Linked P (w.siftDown fuel i) ∧ Permuted P w (w.siftDown fuel i)
      ∧ Ordered (w.siftDown fuel i).key w.heapSize := by
  induction fuel generalizing w i with
  | zero => exact absurd hi (by omega)
  | succ fuel ih =>
      obtain ⟨hcase, hmin⟩ := leastOf_spec w (show 2 * i + 2 < 2 ^ 32 by omega)
      rw [siftDown]
      by_cases hstop : w.leastOf i = i
      · rw [if_pos hstop]
        rw [hstop] at hmin
        exact ⟨h, Permuted.refl P w, ho.done hmin⟩
      · rw [if_neg hstop]
        obtain ⟨hp, hpos, hlt, hless⟩ := hcase.resolve_left hstop
        have hgt : i < w.leastOf i := by
          have := parent_lt hpos
          omega
        obtain ⟨hlink, hperm⟩ := h.swap hi hlt
        have hstep := ho.step hpos hlt hp hless hmin
        rw [← swapEntries_key] at hstep
        obtain ⟨hlink', hperm', hord⟩ := ih hlink hlt hn hstep
          (by show w.heapSize ≤ fuel + w.leastOf i; omega)
        exact ⟨hlink', hperm.trans hperm', hord⟩

/-- A scheduler whose sift has ended. -/
theorem HeapInv.of_permuted {w' : Scheduler α}
    (h : Linked (fun i => (w.slots i).live = true) w')
    (hp : Permuted (fun i => (w.slots i).live = true) w w') (ho : Ordered w'.key w.heapSize) :
    HeapInv w' := by
  refine ⟨?_, by rw [hp.size]; exact ho⟩
  have hlive : (fun i => (w'.slots i).live = true) = fun i => (w.slots i).live = true := by
    funext i
    rw [hp.live]
  rw [hlive]
  exact h

/-! ## Pushing -/

/-- **Placing an event** in a free slot. -/
theorem place_spec (h : HeapInv w) {idx : Nat} (hfree : (w.slots idx).live = false) (ts : Nat)
    (v : α) : HeapInv (w.place idx ts v)
      ∧ (w.place idx ts v).table = w.table.put idx { ts, seq := w.nextSeq, value := v } := by
  let slot : EventSlot α :=
    { w.slots idx with value := v, seq := w.nextSeq, live := true, heapPos := w.heapSize }
  let w₁ : Scheduler α :=
    { w with
      slots := Function.update w.slots idx slot
      nextSeq := w.nextSeq + 1
      heap := Function.update w.heap w.heapSize { ts, seq := w.nextSeq, slot := idx }
      heapSize := w.heapSize + 1 }
  have hplace : w.place idx ts v = w₁.siftUp w.heapSize w.heapSize := rfl
  have hself : w₁.slots idx = slot := Function.update_self ..
  have hother : ∀ i, i ≠ idx → w₁.slots i = w.slots i := fun i hi => Function.update_of_ne hi _ _
  have hlast : w₁.heap w.heapSize = { ts, seq := w.nextSeq, slot := idx } :=
    Function.update_self ..
  have hheap : ∀ j, j ≠ w.heapSize → w₁.heap j = w.heap j := fun j hj =>
    Function.update_of_ne hj _ _
  -- With the new entry in the last place slots and entries still name each other.
  have hlink : Linked (fun i => (w₁.slots i).live = true) w₁ := by
    refine ⟨fun j hj => ?_, fun i hi => ?_⟩
    · by_cases hjl : j = w.heapSize
      · rw [hjl, hlast, hself]
        exact ⟨rfl, rfl, rfl⟩
      · have hj' : j < w.heapSize := by
          have : j < w.heapSize + 1 := hj
          omega
        obtain ⟨hlive, hpos, hseq⟩ := h.linked.entry j hj'
        have hne : (w.heap j).slot ≠ idx := by
          intro hc
          rw [hc, hfree] at hlive
          exact Bool.noConfusion hlive
        rw [hheap j hjl, hother _ hne]
        exact ⟨hlive, hpos, hseq⟩
    · by_cases hii : i = idx
      · rw [hii, hself]
        exact ⟨Nat.lt_succ_self _, by rw [hlast]⟩
      · rw [hother i hii] at hi ⊢
        obtain ⟨hlt, hback⟩ := h.linked.slot i hi
        exact ⟨Nat.lt_succ_of_lt hlt, by rw [hheap _ (Nat.ne_of_lt hlt)]; exact hback⟩
  have hkey : w₁.key = Function.update w.key w.heapSize (toLex (ts, w.nextSeq)) := by
    funext j
    by_cases hj : j = w.heapSize
    · rw [hj, Function.update_self]
      unfold key
      rw [hlast]
    · rw [Function.update_of_ne hj]
      unfold key
      rw [hheap j hj]
  -- Only the last entry may be smaller than its parent, which is what a sift up mends.
  have hup : UpOrdered w₁.key w₁.heapSize w.heapSize := by
    rw [hkey]
    exact h.ordered.up
  obtain ⟨hlink', hperm, hord⟩ :=
    siftUp_spec hlink (Nat.lt_succ_self _) hup (Nat.le_refl w.heapSize)
  rw [hplace]
  refine ⟨HeapInv.of_permuted hlink' hperm hord, ?_⟩
  rw [hperm.table]
  -- A sift permutes the entries, so the records are those before it and the new one.
  have hrec : w₁.table.record
      = Function.update w.table.record idx (some { ts, seq := w.nextSeq, value := v }) := by
    funext i
    show (if (w₁.slots i).live then some (w₁.recordOf i) else none) = _
    by_cases hii : i = idx
    · rw [hii, Function.update_self, hself, if_pos rfl]
      unfold recordOf
      rw [hself, hlast]
    · rw [Function.update_of_ne hii, hother i hii]
      show _ = if (w.slots i).live then some (w.recordOf i) else none
      by_cases hlive : (w.slots i).live = true
      · have hlt := (h.linked.slot i hlive).1
        rw [if_pos hlive, if_pos hlive]
        unfold recordOf
        rw [hother i hii, hheap _ (Nat.ne_of_lt hlt)]
      · rw [if_neg hlive, if_neg hlive]
  have hfields : ∀ {β : Type} (f : EventSlot α → β), f slot = f (w.slots idx) →
      (fun i => f (w₁.slots i)) = fun i => f (w.slots i) := by
    intro β f hf
    funext i
    by_cases hii : i = idx
    · rw [hii, hself, hf]
    · rw [hother i hii]
  have hnext := hfields EventSlot.freeNext rfl
  have hgen := hfields EventSlot.generation rfl
  calc w₁.table = { w₁.table with
        freeNext := w.table.freeNext, generation := w.table.generation
        record := Function.update w.table.record idx
          (some { ts, seq := w.nextSeq, value := v }) } := by
        rw [← hrec]
        unfold table
        simp only [hnext, hgen]
    _ = _ := rfl

/-- A slot that records nothing is not in use. -/
theorem live_of_record_none {i : Nat} (h : w.table.record i = none) : (w.slots i).live = false := by
  have hi : (if (w.slots i).live then some (w.recordOf i) else none) = none := h
  by_cases hlive : (w.slots i).live = true
  · rw [if_pos hlive] at hi
    cases hi
  · exact Bool.not_eq_true _ |>.mp hlive

/-- **A push** is a push on the slot table. -/
theorem push_spec [Inhabited α] (h : HeapInv w) {l : List Nat} (hl : SlotTable.Free w.table l)
    (ts : Nat) (v : α) : (w.push ts v).1 = (w.table.push ts v).1
      ∧ (w.push ts v).2.table = (w.table.push ts v).2 ∧ HeapInv (w.push ts v).2 := by
  unfold push SlotTable.push
  by_cases hhead : w.freeHead = kNullIndex
  · rw [if_pos hhead]
    by_cases hfull : w.capacity ≤ w.watermark
    · rw [if_pos hfull, if_pos (show w.table.full from ⟨hhead, hfull⟩)]
      exact ⟨rfl, rfl, h⟩
    · rw [if_neg hfull, if_neg (show ¬ w.table.full from fun hc => hfull hc.2)]
      have hslot : w.table.nextSlot = w.watermark := if_pos hhead
      have hacq : w.table.acquire
          = { w.table with
              watermark := w.watermark + 1
              freeNext := Function.update w.table.freeNext w.watermark kNullIndex
              generation := Function.update w.table.generation w.watermark 0 } := if_pos hhead
      -- A slot never used is built first: its generation and its link start anew.
      let w₁ : Scheduler α :=
        { w with
          watermark := w.watermark + 1
          slots := Function.update w.slots w.watermark { value := default } }
      -- No entry of the heap names the slot, so building it is not seen by any of them.
      have hfresh := live_of_record_none (hl.fresh w.watermark (Nat.le_refl _)).1
      have hself : w₁.slots w.watermark = { value := default } := Function.update_self ..
      have hother : ∀ i, i ≠ w.watermark → w₁.slots i = w.slots i := fun i hi =>
        Function.update_of_ne hi _ _
      have hslots : ∀ i, (w.slots i).live = true → w₁.slots i = w.slots i := by
        intro i hi
        refine hother i ?_
        rintro rfl
        rw [hfresh] at hi
        exact Bool.noConfusion hi
      have hlive : ∀ i, (w₁.slots i).live = (w.slots i).live := by
        intro i
        by_cases hi : i = w.watermark
        · rw [hi, hself, hfresh]
        · rw [hother i hi]
      have hinv : HeapInv w₁ := by
        refine ⟨⟨fun j hj => ?_, fun i hi => ?_⟩, h.ordered⟩
        · have hentry := h.linked.entry j hj
          show (w₁.slots (w.heap j).slot).live = true ∧ (w₁.slots (w.heap j).slot).heapPos = j
            ∧ (w₁.slots (w.heap j).slot).seq = (w.heap j).seq
          rw [hslots _ hentry.1]
          exact hentry
        · rw [hlive] at hi
          rw [hslots i hi]
          exact h.linked.slot i hi
      obtain ⟨hplaced, htable⟩ := place_spec hinv
        (show (w₁.slots w.watermark).live = false by rw [hself]) ts v
      have hrec : w₁.table.record = w.table.record := by
        funext i
        show (if (w₁.slots i).live then some (w₁.recordOf i) else none)
          = if (w.slots i).live then some (w.recordOf i) else none
        rw [hlive]
        by_cases hi : (w.slots i).live = true
        · rw [if_pos hi, if_pos hi]
          unfold recordOf
          rw [hslots i hi]
        · rw [if_neg hi, if_neg hi]
      have hfield : ∀ {β : Type} (f : EventSlot α → β),
          (fun i => f (w₁.slots i))
            = Function.update (fun i => f (w.slots i)) w.watermark (f { value := default }) := by
        intro β f
        funext i
        by_cases hi : i = w.watermark
        · rw [hi, hself, Function.update_self]
        · rw [hother i hi, Function.update_of_ne hi]
      have hw₁ : w₁.table = w.table.acquire := by
        calc w₁.table = { w₁.table with
              freeNext := Function.update w.table.freeNext w.watermark kNullIndex
              generation := Function.update w.table.generation w.watermark 0
              record := w.table.record } := by
              rw [← hrec]
              unfold table
              simp only [hfield]
          _ = _ := hacq.symm
      rw [hslot]
      refine ⟨?_, ?_, hplaced⟩
      · rw [hacq]
        show ({ index := w.watermark, generation := 0 } : GenHandle)
          = { index := w.watermark
              generation := Function.update w.table.generation w.watermark 0 w.watermark }
        rw [Function.update_self]
      · rw [htable, hw₁]
        rfl
  · rw [if_neg hhead, if_neg (show ¬ w.table.full from fun hc => hhead hc.1)]
    have hslot : w.table.nextSlot = w.freeHead := if_neg hhead
    have hacq : w.table.acquire = { w.table with freeHead := (w.slots w.freeHead).freeNext } :=
      if_neg hhead
    -- The head of the free list is not in use.
    have hfree : (w.slots w.freeHead).live = false := by
      cases l with
      | nil => exact absurd hl.chain hhead
      | cons i l =>
          have hi := hl.chain.1
          have hmem := (hl.mem i).mp List.mem_cons_self
          have hh : w.freeHead = i := hi
          rw [hh]
          exact live_of_record_none hmem.2
    obtain ⟨hplaced, htable⟩ :=
      @place_spec α { w with freeHead := (w.slots w.freeHead).freeNext }
        ⟨⟨h.linked.entry, h.linked.slot⟩, h.ordered⟩ w.freeHead hfree ts v
    rw [hslot, hacq]
    exact ⟨rfl, htable, hplaced⟩

/-! ## Removing -/

/-- The heap without the entry of slot `x`: the last entry stands in its place. -/
theorem removeAt_spec (h : HeapInv w) (hn : w.heapSize ≤ 2 ^ 31) {x : Nat}
    (hx : (w.slots x).live = true) :
    Linked (fun i => (w.slots i).live = true ∧ i ≠ x) (w.removeAt (w.slots x).heapPos)
      ∧ Permuted (fun i => (w.slots i).live = true ∧ i ≠ x) w.popBack
          (w.removeAt (w.slots x).heapPos)
      ∧ Ordered (w.removeAt (w.slots x).heapPos).key (w.heapSize - 1) := by
  obtain ⟨hpos, hback⟩ := h.linked.slot x hx
  generalize hp : (w.slots x).heapPos = pos at *
  have hlast : w.heapSize - 1 < w.heapSize := by omega
  obtain ⟨hlink, hperm⟩ := h.linked.swap hpos hlast
  have hkey := swapEntries_key w pos (w.heapSize - 1)
  have hxheap : (w.swapEntries pos (w.heapSize - 1)).heap (w.heapSize - 1) = w.heap pos :=
    swap_right w.heap
  unfold removeAt
  dsimp only
  generalize hv : w.swapEntries pos (w.heapSize - 1) = v at *
  have hsize : v.heapSize = w.heapSize := hperm.size
  -- slot `x` points past the end of the heap that is left
  have hlink' : Linked (fun i => (w.slots i).live = true ∧ i ≠ x) v.popBack := by
    refine ⟨fun j hj => ?_, fun i hi => ?_⟩
    · have hj' : j < v.heapSize - 1 := hj
      obtain ⟨hlive, hposj, hseq⟩ := hlink.entry j (by omega)
      refine ⟨⟨hlive, fun hc => ?_⟩, hposj, hseq⟩
      have hxv := (hlink.entry (w.heapSize - 1) (by omega)).2.1
      have hcx : (v.heap j).slot = x := hc
      rw [hxheap, hback] at hxv
      rw [hcx, hxv] at hposj
      omega
    · obtain ⟨hlt, hbacki⟩ := hlink.slot i hi.1
      refine ⟨?_, hbacki⟩
      show (v.slots i).heapPos < v.heapSize - 1
      have hne : (v.slots i).heapPos ≠ w.heapSize - 1 := by
        intro hc
        rw [hc, hxheap, hback] at hbacki
        exact hi.2 hbacki.symm
      omega
  have hperm' : Permuted (fun i => (w.slots i).live = true ∧ i ≠ x) w.popBack v.popBack :=
    ⟨hperm.capacity, hperm.watermark, hperm.freeHead, hperm.nextSeq,
      congrArg (· - 1) hperm.size, hperm.slots, fun i hi => hperm.ts i hi.1⟩
  have hord : Ordered w.key (w.heapSize - 1 + 1) := by
    rw [Nat.sub_add_cancel (by omega)]
    exact h.ordered
  have hkey' : v.popBack.key = swap w.key pos (w.heapSize - 1) := hkey
  have hpsize : v.popBack.heapSize = w.heapSize - 1 := congrArg (· - 1) hperm.size
  by_cases hend : v.popBack.heapSize ≤ pos
  · rw [if_pos hend]
    refine ⟨hlink', hperm', ?_⟩
    have hpl : pos = w.heapSize - 1 := by omega
    rw [hkey', hpl]
    intro j hj hlt
    have hpj := parent_lt hj
    rw [swap_other _ (by omega) (by omega), swap_other _ (by omega) (by omega)]
    exact h.ordered j hj (by omega)
  · rw [if_neg hend]
    have hlt : pos < w.heapSize - 1 := by omega
    have hmoved : v.popBack.key pos = w.key (w.heapSize - 1) := by
      rw [hkey']
      exact swap_left w.key
    have habove : 0 < pos → v.popBack.key (parent pos) = w.key (parent pos) := by
      intro hpos0
      have hpp := parent_lt hpos0
      rw [hkey']
      exact swap_other _ (by omega) (by omega)
    by_cases hup : 0 < pos ∧ entryLess (v.popBack.heap pos) (v.popBack.heap ((pos - 1) / 2))
    · rw [if_pos hup]
      have hless : v.popBack.key pos < v.popBack.key (parent pos) :=
        (entryLess_iff v.popBack).mp hup.2
      rw [hmoved, habove hup.1] at hless
      have hstart : UpOrdered v.popBack.key v.popBack.heapSize pos := by
        rw [hkey', hpsize]
        exact hord.removeUp hlt hless
      obtain ⟨h1, h2, h3⟩ := siftUp_spec hlink' (by omega) hstart (Nat.le_refl pos)
      exact ⟨h1, hperm'.trans h2, h3.mono (Nat.le_of_eq hpsize.symm)⟩
    · rw [if_neg hup]
      have hle : 0 < pos → w.key (parent pos) ≤ w.key (w.heapSize - 1) := by
        intro hpos0
        rw [← hmoved, ← habove hpos0]
        exact not_lt.mp fun hc => hup ⟨hpos0, (entryLess_iff v.popBack).mpr hc⟩
      have hstart : DownOrdered v.popBack.key v.popBack.heapSize pos := by
        rw [hkey', hpsize]
        exact hord.removeDown hlt hle
      obtain ⟨h1, h2, h3⟩ := siftDown_spec hlink' (by omega) (by omega) hstart (Nat.le_add_right _ _)
      exact ⟨h1, hperm'.trans h2, h3.mono (Nat.le_of_eq hpsize.symm)⟩

/-- **Removing an event** releases its slot in the table. -/
theorem remove_spec (h : HeapInv w) (hn : w.heapSize ≤ 2 ^ 31) {x : Nat}
    (hx : (w.slots x).live = true) :
    ((w.removeAt (w.slots x).heapPos).freeSlot x).table = w.table.release x
      ∧ HeapInv ((w.removeAt (w.slots x).heapPos).freeSlot x) := by
  obtain ⟨hlink, hperm, hord⟩ := removeAt_spec h hn hx
  generalize w.removeAt (w.slots x).heapPos = v at *
  have hself : (v.freeSlot x).slots x = { v.slots x with
      live := false, generation := ((v.slots x).generation + 1) % 2 ^ 32, freeNext := v.freeHead } :=
    Function.update_self ..
  have hother : ∀ i, i ≠ x → (v.freeSlot x).slots i = v.slots i := fun i hi =>
    Function.update_of_ne hi _ _
  -- The heap without the entry still records the other events; freeing the slot touches no other.
  have hrec : ∀ i, (w.slots i).live = true ∧ i ≠ x → (v.freeSlot x).recordOf i = w.recordOf i := by
    intro i hi
    have hv : v.recordOf i = w.popBack.recordOf i := hperm.recordOf i hi
    have hw : w.popBack.recordOf i = w.recordOf i := rfl
    rw [← hw, ← hv]
    unfold recordOf
    rw [hother i hi.2]
    rfl
  -- Field by field, the table is the old one with slot `x` released.
  have hrecord : (v.freeSlot x).table.record = Function.update w.table.record x none := by
    funext i
    show (if ((v.freeSlot x).slots i).live then some ((v.freeSlot x).recordOf i) else none) = _
    by_cases hi : i = x
    · subst hi
      rw [hself, Function.update_self]
      exact if_neg Bool.false_ne_true
    · rw [Function.update_of_ne hi, hother i hi, hperm.live]
      show (if (w.slots i).live then some ((v.freeSlot x).recordOf i) else none)
        = if (w.slots i).live then some (w.recordOf i) else none
      by_cases hlive : (w.slots i).live = true
      · rw [if_pos hlive, if_pos hlive, hrec i ⟨hlive, hi⟩]
      · rw [if_neg hlive, if_neg hlive]
  have hgen : (v.freeSlot x).table.generation = Function.update w.table.generation x
      ((w.table.generation x + 1) % 2 ^ 32) := by
    funext i
    show ((v.freeSlot x).slots i).generation = _
    by_cases hi : i = x
    · subst hi
      rw [hself, Function.update_self, hperm.generation]
      rfl
    · rw [Function.update_of_ne hi, hother i hi, hperm.generation]
      rfl
  have hnext : (v.freeSlot x).table.freeNext
      = Function.update w.table.freeNext x w.table.freeHead := by
    funext i
    show ((v.freeSlot x).slots i).freeNext = _
    by_cases hi : i = x
    · subst hi
      rw [hself, Function.update_self]
      exact hperm.freeHead
    · rw [Function.update_of_ne hi, hother i hi, hperm.freeNext]
      rfl
  constructor
  · calc (v.freeSlot x).table = { w.table.release x with
          freeNext := (v.freeSlot x).table.freeNext
          generation := (v.freeSlot x).table.generation
          record := (v.freeSlot x).table.record } := by
          have hcap : (v.freeSlot x).capacity = w.capacity := hperm.capacity
          have hmark : (v.freeSlot x).watermark = w.watermark := hperm.watermark
          have hsize : (v.freeSlot x).heapSize = w.heapSize - 1 := hperm.size
          have hseq : (v.freeSlot x).nextSeq = w.nextSeq := hperm.nextSeq
          unfold table SlotTable.release
          dsimp only
          rw [hcap, hmark, hsize, hseq]
          rfl
      _ = w.table.release x := by
          rw [hnext, hgen, hrecord]
          rfl
  · have hsize : (v.freeSlot x).heapSize = w.heapSize - 1 := hperm.size
    refine ⟨⟨fun j hj => ?_, fun i hi => ?_⟩, by rw [hsize]; exact hord⟩
    · obtain ⟨⟨hlive, hne⟩, hpos, hseq⟩ := hlink.entry j hj
      show ((v.freeSlot x).slots (v.heap j).slot).live = true
        ∧ ((v.freeSlot x).slots (v.heap j).slot).heapPos = j
        ∧ ((v.freeSlot x).slots (v.heap j).slot).seq = (v.heap j).seq
      rw [hother _ hne]
      exact ⟨by rw [hperm.live]; exact hlive, hpos, hseq⟩
    · have hne : i ≠ x := by
        rintro rfl
        rw [hself] at hi
        exact Bool.noConfusion hi
      rw [hother i hne] at hi ⊢
      rw [hperm.live] at hi
      exact hlink.slot i ⟨hi, hne⟩

theorem record_of_live {i : Nat} (hi : (w.slots i).live = true) :
    w.table.record i = some (w.recordOf i) := if_pos hi

theorem live_of_record {i : Nat} {r : SlotRecord α} (h : w.table.record i = some r) :
    (w.slots i).live = true ∧ r = w.recordOf i := by
  have hi : (if (w.slots i).live then some (w.recordOf i) else none) = some r := h
  by_cases hlive : (w.slots i).live = true
  · rw [if_pos hlive, Option.some_inj] at hi
    exact ⟨hlive, hi.symm⟩
  · rw [if_neg hlive] at hi
    cases hi

theorem record_isSome (i : Nat) : (w.table.record i).isSome = (w.slots i).live := by
  show (if (w.slots i).live then some (w.recordOf i) else none).isSome = _
  cases (w.slots i).live <;> rfl

/-- A cancel checks its handle as the slot table does. -/
theorem cancel_eq (w : Scheduler α) (g : GenHandle) : w.cancel g
    = if w.table.Names g then
        (true, (w.removeAt (w.slots g.index).heapPos).freeSlot g.index) else (false, w) :=
  w.table.cancel_branches (record_isSome g.index) w _

theorem cancel_flag (w : Scheduler α) (g : GenHandle) :
    (w.cancel g).1 = (w.table.cancel g).1 := by
  rw [cancel_eq, SlotTable.cancel]
  split <;> rfl

/-- **A cancel** is a cancel on the slot table. -/
theorem cancel_spec (h : HeapInv w) (hn : w.heapSize ≤ 2 ^ 31) (g : GenHandle) :
    (w.cancel g).2.table = (w.table.cancel g).2 ∧ HeapInv (w.cancel g).2 := by
  rw [cancel_eq, SlotTable.cancel]
  by_cases hnames : w.table.Names g
  · rw [if_pos hnames, if_pos hnames]
    exact remove_spec h hn ((record_isSome g.index).symm.trans hnames.2.1)
  · rw [if_neg hnames, if_neg hnames]
    exact ⟨rfl, h⟩

/-- **The root of the heap is the least recorded event.** -/
theorem root_least (h : HeapInv w) (hpos : 0 < w.heapSize) :
    (w.slots (w.heap 0).slot).live = true ∧ (w.slots (w.heap 0).slot).heapPos = 0
      ∧ w.table.Least (w.heap 0).slot (w.recordOf (w.heap 0).slot) := by
  obtain ⟨hlive, hback, hseq⟩ := h.linked.entry 0 hpos
  refine ⟨hlive, hback, record_of_live hlive, fun j r' hj => ?_⟩
  obtain ⟨hlivej, rfl⟩ := live_of_record hj
  obtain ⟨hlt, hslot⟩ := h.linked.slot j hlivej
  have hle := h.ordered.root_le _ hlt
  unfold key at hle
  rw [Prod.Lex.toLex_le_toLex] at hle
  have hseqj := (h.linked.entry _ hlt).2.2
  rw [hslot] at hseqj
  unfold recordOf
  dsimp only
  rw [hback, hseq, hseqj]
  exact hle

/-- **A pop** releases the slot of the least recorded event. -/
theorem popMin_spec (h : HeapInv w) (hpos : 0 < w.heapSize) (hn : w.heapSize ≤ 2 ^ 31) :
    w.popMin.1 = (w.recordOf (w.heap 0).slot).value
      ∧ w.popMin.2.table = w.table.release (w.heap 0).slot ∧ HeapInv w.popMin.2 := by
  obtain ⟨hlive, hback, _⟩ := root_least h hpos
  have hremove := remove_spec h hn hlive
  rw [hback] at hremove
  exact ⟨rfl, hremove⟩

/-- **A clear** is a clear of the slot table. -/
theorem clear_spec [Inhabited α] {l : List Nat} (hl : SlotTable.Free w.table l) :
    w.clear.table = w.table.clear ∧ HeapInv w.clear := by
  have hmark : w.watermark ≤ w.capacity := hl.mark
  have hin : ∀ i, i < w.capacity → (w.clear.slots i).live = false
      ∧ (w.clear.slots i).generation = (if w.watermark ≤ i then 0
        else if (w.slots i).live then ((w.slots i).generation + 1) % 2 ^ 32
        else (w.slots i).generation)
      ∧ (w.clear.slots i).freeNext = if i + 1 < w.capacity then i + 1 else kNullIndex := by
    intro i hi
    unfold clear
    dsimp only
    rw [if_pos hi]
    by_cases hw : w.watermark ≤ i
    · rw [if_pos hw, if_pos hw]
      exact ⟨rfl, rfl, rfl⟩
    · rw [if_neg hw, if_neg hw]
      exact ⟨rfl, rfl, rfl⟩
  have hout : ∀ i, w.capacity ≤ i → w.clear.slots i = w.slots i := fun i hi =>
    if_neg (Nat.not_lt.mpr hi)
  have hdead : ∀ i, (w.clear.slots i).live = false := by
    intro i
    by_cases hi : i < w.capacity
    · exact (hin i hi).1
    · rw [hout i (Nat.not_lt.mp hi)]
      exact live_of_record_none (hl.fresh i (by show w.watermark ≤ i; omega)).1
  constructor
  · refine hl.clear_eq rfl rfl rfl rfl rfl (fun i => ?_) (fun i hi => ?_) (fun i hi => ?_)
    · show (if (w.clear.slots i).live then some (w.clear.recordOf i) else none) = none
      rw [hdead]
      exact if_neg Bool.false_ne_true
    · rw [record_isSome]
      exact (hin i hi).2
    · show (w.clear.slots i).generation = (w.slots i).generation
        ∧ (w.clear.slots i).freeNext = (w.slots i).freeNext
      rw [hout i hi]
      exact ⟨rfl, rfl⟩
  · refine ⟨⟨fun j hj => absurd hj (Nat.not_lt_zero j), fun i hi => ?_⟩,
      fun j _ hj => absurd hj (Nat.not_lt_zero j)⟩
    rw [hdead] at hi
    exact Bool.noConfusion hi

/-! ## Runs -/

def engine (α : Type) [Inhabited α] : Engine (Scheduler α) GenHandle α where
  push := push
  cancel := cancel
  peekMin w := (w.peekMin, w)
  peekMinTs w := (w.peekMinTs, w)
  popMin := popMin
  clear w := w.clear

/-- The contract of the calls: nothing is looked for in an empty scheduler. -/
def Contract (w : Scheduler α) : Op α → Prop
  | .peekMin | .peekMinTs | .popMin => 0 < w.size
  | .push _ _ | .cancel _ | .clear => True

/-- An event leaves a heap of at most 2^31 events: what is left is sifted over 32-bit positions. -/
def Narrow (size : Nat) : Op α → Prop
  | .cancel _ | .popMin => size ≤ 2 ^ 31
  | .push _ _ | .peekMin | .peekMinTs | .clear => True

theorem narrow_of_le {n : Nat} (hn : n ≤ 2 ^ 31) (op : Op α) : Narrow n op := by
  cases op <;> trivial

/-- **The scheduler is an engine over its slot table**, as long as it sifts narrow heaps. -/
theorem slotEngine [Inhabited α] :
    SlotEngine (engine α) HeapInv table fun w op => Contract w op ∧ Narrow w.size op where
  push _ _ ts v h hl _ := push_spec h hl ts v
  flag w _ g _ _ := cancel_flag w g
  cancel _ _ _ g h _ hok := cancel_spec h hok.2 g
  peekMin w _ h _ hok := ⟨_, _, (root_least h hok.1).2.2, rfl, rfl, h⟩
  peekMinTs w _ h _ hok := by
    obtain ⟨_, hback, hleast⟩ := root_least h hok.1
    refine ⟨_, _, hleast, ?_, rfl, h⟩
    show (w.heap 0).ts = (w.heap (w.slots (w.heap 0).slot).heapPos).ts
    rw [hback]
  popMin w _ h _ hok := ⟨_, _, (root_least h hok.1).2.2, popMin_spec h hok.1 hok.2⟩
  clear _ _ _ hl _ := clear_spec hl

/-- **The audit passes** while the invariant holds. -/
theorem audit_true (h : HeapInv w) {l : List Nat} (hl : SlotTable.Free w.table l) :
    w.audit = true := by
  have hcount : w.heapSize + l.length = w.watermark := hl.count
  have hmark : w.watermark ≤ w.capacity := hl.mark
  have hentries : ∀ i, i < w.heapSize → w.auditEntry i := by
    intro i hi
    obtain ⟨hlive, hback, hseq⟩ := h.linked.entry i hi
    refine ⟨hl.lt_capacity (record_of_live hlive), hlive, hback, hseq, fun hpos hc => ?_⟩
    exact not_lt.mpr (h.ordered i hpos hi) ((entryLess_iff w).mp hc)
  have hwalk : SlotTable.freeLength w.capacity (fun i => (w.slots i).live)
      (fun i => (w.slots i).freeNext) (w.capacity + 1) w.freeHead = some l.length := by
    refine SlotTable.freeLength_chain hl.cap hl.chain (fun i hi => ?_)
      (Nat.lt_succ_of_le hl.length_le)
    obtain ⟨hlt, hnone⟩ := (hl.mem i).mp hi
    exact ⟨Nat.lt_of_lt_of_le hlt hmark, live_of_record_none hnone⟩
  unfold audit
  rw [hwalk, Bool.and_eq_true, Bool.and_eq_true, decide_eq_true_iff, decide_eq_true_iff,
    decide_eq_true_iff]
  refine ⟨⟨by omega, hentries⟩, ?_⟩
  show some (l.length + (w.capacity - w.watermark)) = some (w.capacity - w.heapSize)
  congr 1
  omega

theorem init_represents [Inhabited α] {cap : Nat} (hpos : 0 < cap) (hcap : cap < kNullIndex) :
    Represents HeapInv table cap (init cap : Scheduler α) [] { capacity := cap } where
  inv := ⟨⟨fun j hj => absurd hj (Nat.not_lt_zero j), fun _ hi => Bool.noConfusion hi⟩,
    fun j _ hj => absurd hj (Nat.not_lt_zero j)⟩
  cap := rfl
  tickets := SlotTable.Tickets.unused hpos hcap rfl rfl (fun _ => ⟨rfl, rfl⟩) rfl rfl

/-- The states of a scheduler and of the queue it implements, after the same calls. -/
structure Refines [Inhabited α] (cap : Nat) (ops : List (Op α)) : Prop where
  faithful : Faithful (engine α) ops (init cap) { capacity := cap }
  size : ((engine α).run ops (init cap) []).2.1.size
    = (Queue.run ops { capacity := cap }).2.pending.length
  audit : ((engine α).run ops (init cap) []).2.1.audit = true

/-- **The scheduler refines the queue** in every run that sifts narrow heaps. -/
theorem refines_of_narrow [Inhabited α] {cap : Nat} (hpos : 0 < cap) (hcap : cap < kNullIndex)
    {ops : List (Op α)}
    (hok : (engine α).Obeys (fun w op => Contract w op ∧ Narrow w.size op) ops (init cap) [])
    (hreuse : Unwrapped cap ((engine α).run ops (init cap) []).2.2) : Refines cap ops := by
  obtain ⟨hfaith, hend⟩ := slotEngine.faithful (init_represents hpos hcap) hok hreuse
  obtain ⟨l, hl⟩ := hend.tickets.free
  exact ⟨hfaith, hend.tickets.size.symm, audit_true hend.inv hl⟩

/-- **A capacity of 2^31 is narrow** in every run. -/
theorem slotEngine_of_capacity [Inhabited α] :
    SlotEngine (engine α) (fun w => HeapInv w ∧ w.capacity ≤ 2 ^ 31) table Contract :=
  slotEngine.within (· ≤ 2 ^ 31) fun _ _ op hl hcap hok =>
    ⟨hok, narrow_of_le (hl.size_le.trans hcap) op⟩

theorem refines_of_capacity [Inhabited α] {cap : Nat} (hpos : 0 < cap) (hcap : cap ≤ 2 ^ 31)
    {ops : List (Op α)} (hok : (engine α).Obeys Contract ops (init cap) [])
    (hreuse : Unwrapped cap ((engine α).run ops (init cap) []).2.2) : Refines cap ops := by
  have hinit := init_represents (α := α) hpos (by unfold kNullIndex; omega)
  obtain ⟨hfaith, hend⟩ := slotEngine_of_capacity.faithful
    ⟨⟨hinit.inv, hcap⟩, hinit.cap, hinit.tickets⟩ hok hreuse
  obtain ⟨l, hl⟩ := hend.tickets.free
  exact ⟨hfaith, hend.tickets.size.symm, audit_true hend.inv.1 hl⟩

end Scheduler

end Mog
