import Mathlib.Tactic.SplitIfs
import Mog.Book.Arena

/-!
# The event scheduler

A binary heap of entries over an arena of slots. The total order is timestamp
first, insertion sequence second, so events with one timestamp leave in the order
they came. The source's contract checks have no effect of their own and are left
out; a push on a full scheduler returns the null handle.

The second half says what the simulator relies on: whatever is popped was pushed.

The heap's positions are computed as the source computes them, in 32 bits: the children of a
position far enough down the heap have numbers that come round. Slots and their generations are
kept in an arena with a free list, and an entry and its slot know each other's places.
-/

namespace Mog

structure HeapEntry where
  ts : Nat := 0
  seq : Nat := 0
  slot : Nat := 0
deriving DecidableEq, Repr

structure EventSlot (α : Type) where
  value : α
  seq : Nat := 0
  generation : Nat := 0
  heapPos : Nat := 0
  freeNext : Nat := kNullIndex
  live : Bool := false

structure Scheduler (α : Type) where
  capacity : Nat
  slots : Nat → EventSlot α
  watermark : Nat := 0
  freeHead : Nat := kNullIndex
  nextSeq : Nat := 0
  heap : Nat → HeapEntry := fun _ => {}
  heapSize : Nat := 0

/-- Strict total order: timestamp first, unique insertion sequence second. -/
def entryLess (a b : HeapEntry) : Prop := a.ts < b.ts ∨ (a.ts = b.ts ∧ a.seq < b.seq)

instance (a b : HeapEntry) : Decidable (entryLess a b) := inferInstanceAs (Decidable (_ ∨ _))

namespace Scheduler

variable {α : Type}

def init [Inhabited α] (capacity : Nat) : Scheduler α :=
  { capacity, slots := fun _ => { value := default } }

def modifySlot (w : Scheduler α) (i : Nat) (f : EventSlot α → EventSlot α) : Scheduler α :=
  { w with slots := Function.update w.slots i (f (w.slots i)) }

def empty (w : Scheduler α) : Prop := w.heapSize = 0

instance (w : Scheduler α) : Decidable w.empty := inferInstanceAs (Decidable (_ = _))

def peekMinTs (w : Scheduler α) : Nat := (w.heap 0).ts

def swapEntries (w : Scheduler α) (a b : Nat) : Scheduler α :=
  let heap := Function.update (Function.update w.heap a (w.heap b)) b (w.heap a)
  let w := { w with heap }
  let w := w.modifySlot (w.heap a).slot (fun s => { s with heapPos := a })
  w.modifySlot (w.heap b).slot (fun s => { s with heapPos := b })

/-- The loop of `sift_up`; the position at least halves, so `fuel = i` is enough. -/
def siftUp (w : Scheduler α) : Nat → Nat → Scheduler α
  | 0, _ => w
  | fuel + 1, i =>
      if 0 < i ∧ entryLess (w.heap i) (w.heap ((i - 1) / 2)) then
        (w.swapEntries i ((i - 1) / 2)).siftUp fuel ((i - 1) / 2)
      else w

/-- The position among `i` and its children whose entry sorts first. Positions are 32-bit: the
second child of position 2^31 - 1 is the root. -/
def leastOf (w : Scheduler α) (i : Nat) : Nat :=
  let l := (2 * i + 1) % 2 ^ 32
  let r := (2 * i + 2) % 2 ^ 32
  let best := if l < w.heapSize ∧ entryLess (w.heap l) (w.heap i) then l else i
  if r < w.heapSize ∧ entryLess (w.heap r) (w.heap best) then r else best

/-- The loop of `sift_down`. In a heap of fewer than 2^31 entries the position at least doubles, so
`fuel = heapSize` is enough; in a larger one a child may be the root again, and nothing bounds the
loop of the source. -/
def siftDown (w : Scheduler α) : Nat → Nat → Scheduler α
  | 0, _ => w
  | fuel + 1, i =>
      if w.leastOf i = i then w
      else (w.swapEntries i (w.leastOf i)).siftDown fuel (w.leastOf i)

/-- `heap_.pop_back()`. -/
def popBack (w : Scheduler α) : Scheduler α := { w with heapSize := w.heapSize - 1 }

/-- Detach the entry at heap position `pos`: the last entry moves there and is sifted. -/
def removeAt (w : Scheduler α) (pos : Nat) : Scheduler α :=
  let w := (w.swapEntries pos (w.heapSize - 1)).popBack
  if w.heapSize ≤ pos then w
  else if 0 < pos ∧ entryLess (w.heap pos) (w.heap ((pos - 1) / 2)) then w.siftUp pos pos
  else w.siftDown w.heapSize pos

def freeSlot (w : Scheduler α) (idx : Nat) : Scheduler α :=
  { w.modifySlot idx (fun s =>
      { s with live := false, generation := (s.generation + 1) % 2 ^ 32, freeNext := w.freeHead }) with
    freeHead := idx }

/-- Put the event in slot `idx` and its entry at the end of the heap, then sift it up. -/
def place (w : Scheduler α) (idx ts : Nat) (value : α) : Scheduler α :=
  let w := w.modifySlot idx (fun s =>
    { s with value, seq := w.nextSeq, live := true, heapPos := w.heapSize })
  let w : Scheduler α :=
    { w with
      nextSeq := w.nextSeq + 1
      heap := Function.update w.heap w.heapSize { ts, seq := w.nextSeq, slot := idx }
      heapSize := w.heapSize + 1 }
  w.siftUp (w.heapSize - 1) (w.heapSize - 1)

def push [Inhabited α] (w : Scheduler α) (ts : Nat) (value : α) : GenHandle × Scheduler α :=
  if w.freeHead = kNullIndex then
    if w.capacity ≤ w.watermark then ({}, w)
    else
      let idx := w.watermark
      ({ index := idx, generation := 0 },
        ({ w with
          watermark := w.watermark + 1
          slots := Function.update w.slots idx { value := default } } : Scheduler α).place idx ts
            value)
  else
    let idx := w.freeHead
    ({ index := idx, generation := (w.slots idx).generation },
      ({ w with freeHead := (w.slots idx).freeNext } : Scheduler α).place idx ts value)

def popMin (w : Scheduler α) : α × Scheduler α :=
  let root := w.heap 0
  ((w.slots root.slot).value, (w.removeAt 0).freeSlot root.slot)

/-! ## What is popped was pushed -/

/-- `P` holds of every pending event. -/
def Holds (w : Scheduler α) (P : α → Prop) : Prop :=
  ∀ j, j < w.heapSize → P (w.slots (w.heap j).slot).value

/-- The heap of `w'` is that of `w` reordered, over the same values. -/
structure Reordered (w w' : Scheduler α) : Prop where
  size : w'.heapSize = w.heapSize
  value : ∀ i, (w'.slots i).value = (w.slots i).value
  entry : ∀ j, j < w.heapSize → ∃ j', j' < w.heapSize ∧ w'.heap j = w.heap j'

theorem Reordered.refl (w : Scheduler α) : Reordered w w :=
  ⟨rfl, fun _ => rfl, fun j hj => ⟨j, hj, rfl⟩⟩

theorem Reordered.trans {w w' w'' : Scheduler α} (h : Reordered w w') (h' : Reordered w' w'') :
    Reordered w w'' := by
  refine ⟨h'.size.trans h.size, fun i => (h'.value i).trans (h.value i), fun j hj => ?_⟩
  obtain ⟨j1, hj1, he1⟩ := h'.entry j (by rw [h.size]; exact hj)
  obtain ⟨j2, hj2, he2⟩ := h.entry j1 (by rw [h.size] at hj1; exact hj1)
  exact ⟨j2, hj2, he1.trans he2⟩

theorem Reordered.holds {w w' : Scheduler α} (h : Reordered w w') {P : α → Prop} (hw : w.Holds P) :
    w'.Holds P := by
  intro j hj
  obtain ⟨j', hj', he⟩ := h.entry j (by rw [← h.size]; exact hj)
  rw [h.value, he]
  exact hw j' hj'

theorem modifySlot_value (w : Scheduler α) (i : Nat) (f : EventSlot α → EventSlot α)
    (hf : ∀ s, (f s).value = s.value) (j : Nat) :
    ((w.modifySlot i f).slots j).value = (w.slots j).value := by
  unfold modifySlot
  dsimp only
  by_cases hj : j = i
  · rw [hj, Function.update_self, hf]
  · rw [Function.update_of_ne hj]

theorem swapEntries_reordered (w : Scheduler α) {a b : Nat} (ha : a < w.heapSize)
    (hb : b < w.heapSize) : Reordered w (w.swapEntries a b) := by
  refine ⟨rfl, fun i => ?_, fun j hj => ?_⟩
  · unfold swapEntries
    dsimp only
    rw [modifySlot_value _ _ (fun s => { s with heapPos := b }) (fun _ => rfl),
      modifySlot_value _ _ (fun s => { s with heapPos := a }) (fun _ => rfl)]
  · have hheap : (w.swapEntries a b).heap j
        = if j = b then w.heap a else if j = a then w.heap b else w.heap j := by
      unfold swapEntries modifySlot
      simp only [Function.update_apply]
    rw [hheap]
    by_cases h1 : j = b
    · exact ⟨a, ha, by rw [if_pos h1]⟩
    · by_cases h2 : j = a
      · exact ⟨b, hb, by rw [if_neg h1, if_pos h2]⟩
      · exact ⟨j, hj, by rw [if_neg h1, if_neg h2]⟩

theorem siftUp_reordered (w : Scheduler α) (fuel i : Nat) (hi : i < w.heapSize) :
    Reordered w (w.siftUp fuel i) := by
  induction fuel generalizing w i with
  | zero => exact Reordered.refl w
  | succ fuel ih =>
      rw [siftUp]
      split
      · have hswap := swapEntries_reordered w hi (show (i - 1) / 2 < w.heapSize by omega)
        exact hswap.trans (ih _ _ (by rw [hswap.size]; omega))
      · exact Reordered.refl w

theorem leastOf_lt (w : Scheduler α) {i : Nat} (hi : i < w.heapSize) : w.leastOf i < w.heapSize := by
  unfold leastOf
  dsimp only
  split_ifs <;> omega

theorem siftDown_reordered (w : Scheduler α) (fuel i : Nat) (hi : i < w.heapSize) :
    Reordered w (w.siftDown fuel i) := by
  induction fuel generalizing w i with
  | zero => exact Reordered.refl w
  | succ fuel ih =>
      rw [siftDown]
      split
      · exact Reordered.refl w
      · have hleast := leastOf_lt w hi
        have hswap := swapEntries_reordered w hi hleast
        exact hswap.trans (ih _ _ (by rw [hswap.size]; exact hleast))

/-- Removing an entry leaves pending what was pending, one event fewer. -/
theorem removeAt_holds {w : Scheduler α} {P : α → Prop} (hw : w.Holds P) {pos : Nat}
    (hpos : pos < w.heapSize) :
    (w.removeAt pos).Holds P ∧ (w.removeAt pos).heapSize = w.heapSize - 1 := by
  have hswap := swapEntries_reordered w hpos (show w.heapSize - 1 < w.heapSize by omega)
  have hcut : ((w.swapEntries pos (w.heapSize - 1)).popBack).Holds P := fun j hj =>
    hswap.holds hw j (by rw [hswap.size]; exact Nat.lt_of_lt_of_le hj (Nat.sub_le _ _))
  have hsize : ((w.swapEntries pos (w.heapSize - 1)).popBack).heapSize = w.heapSize - 1 := rfl
  unfold removeAt
  dsimp only
  generalize (w.swapEntries pos (w.heapSize - 1)).popBack = v at *
  split
  · exact ⟨hcut, hsize⟩
  · rename_i hle
    split
    · have hr := siftUp_reordered v pos pos (by omega)
      exact ⟨hr.holds hcut, hr.size.trans hsize⟩
    · have hr := siftDown_reordered v v.heapSize pos (by omega)
      exact ⟨hr.holds hcut, hr.size.trans hsize⟩

/-- Placing an event leaves pending what was pending; slot `idx` may be overwritten. -/
theorem place_holds {w : Scheduler α} {P : α → Prop} {idx ts : Nat} {v : α}
    (hw : ∀ j, j < w.heapSize → (w.heap j).slot ≠ idx → P (w.slots (w.heap j).slot).value)
    (hv : P v) : (w.place idx ts v).Holds P := by
  unfold place
  dsimp only
  refine (siftUp_reordered _ _ _ (Nat.sub_lt (Nat.succ_pos _) Nat.one_pos)).holds ?_
  intro j hj
  show P ((Function.update w.slots idx _) ((Function.update w.heap w.heapSize _) j).slot).value
  by_cases hlast : j = w.heapSize
  · rw [hlast, Function.update_self, Function.update_self]
    exact hv
  · rw [Function.update_of_ne hlast]
    by_cases hidx : (w.heap j).slot = idx
    · rw [hidx, Function.update_self]
      exact hv
    · rw [Function.update_of_ne hidx]
      exact hw j (by have : j < w.heapSize + 1 := hj; omega) hidx

/-- **A push** adds its own event to the pending ones. -/
theorem push_holds [Inhabited α] {w : Scheduler α} {P : α → Prop} (hw : w.Holds P) {ts : Nat} {v : α}
    (hv : P v) : (w.push ts v).2.Holds P := by
  unfold push
  split
  · split
    · exact hw
    · refine place_holds (fun j hj hne => ?_) hv
      show P ((Function.update w.slots w.watermark _) (w.heap j).slot).value
      rw [Function.update_of_ne hne]
      exact hw j hj
  · exact place_holds (fun j hj _ => hw j hj) hv

/-- **A pop** returns a pending event and leaves the others. -/
theorem popMin_holds {w : Scheduler α} {P : α → Prop} (hw : w.Holds P) (hne : ¬ w.empty) :
    P w.popMin.1 ∧ w.popMin.2.Holds P ∧ w.popMin.2.heapSize = w.heapSize - 1 := by
  have hpos : 0 < w.heapSize := Nat.pos_of_ne_zero hne
  obtain ⟨hrest, hsize⟩ := removeAt_holds hw hpos
  refine ⟨hw 0 hpos, fun j hj => ?_, hsize⟩
  have hval : ((w.popMin.2).slots (w.popMin.2.heap j).slot).value
      = ((w.removeAt 0).slots ((w.removeAt 0).heap j).slot).value := by
    exact modifySlot_value (w.removeAt 0) (w.heap 0).slot (fun s => { s with
      live := false, generation := (s.generation + 1) % 2 ^ 32
      freeNext := (w.removeAt 0).freeHead }) (fun _ => rfl) _
  rw [hval]
  exact hrest j hj

/-- The next push finds a slot. -/
def Room (w : Scheduler α) : Prop :=
  w.freeHead = kNullIndex → w.watermark < w.capacity ∧ w.watermark < kNullIndex

/-- **One event in, the same event out**, and its slot is free again. -/
theorem push_popMin [Inhabited α] {w : Scheduler α} (hw : w.empty) (hroom : w.Room) (ts : Nat)
    (v : α) : ¬ (w.push ts v).2.empty ∧ (w.push ts v).2.popMin.1 = v
      ∧ (w.push ts v).2.popMin.2.empty ∧ (w.push ts v).2.popMin.2.Room := by
  have hplace : ∀ (u : Scheduler α) (idx : Nat), u.heapSize = 0 → idx ≠ kNullIndex →
      ¬ (u.place idx ts v).empty ∧ (u.place idx ts v).popMin.1 = v
        ∧ (u.place idx ts v).popMin.2.empty ∧ (u.place idx ts v).popMin.2.Room := by
    intro u idx hu hidx
    -- the only entry: nothing is sifted
    have hsift : ∀ x : Scheduler α, x.heapSize = 1 →
        x.siftUp (x.heapSize - 1) (x.heapSize - 1) = x := by
      intro x hx
      rw [hx]
      rfl
    have heq : u.place idx ts v =
        { u.modifySlot idx (fun s =>
            { s with value := v, seq := u.nextSeq, live := true, heapPos := u.heapSize }) with
          nextSeq := u.nextSeq + 1
          heap := Function.update u.heap u.heapSize { ts, seq := u.nextSeq, slot := idx }
          heapSize := u.heapSize + 1 } :=
      hsift _ (show u.heapSize + 1 = 1 by rw [hu])
    have hroot : (u.place idx ts v).heap 0 = { ts, seq := u.nextSeq, slot := idx } := by
      rw [heq]
      show Function.update u.heap u.heapSize _ 0 = _
      rw [hu, Function.update_self]
    have hsize : (u.place idx ts v).heapSize = 1 := by
      rw [heq]
      show u.heapSize + 1 = 1
      rw [hu]
    refine ⟨fun he => ?_, ?_, ?_, ?_⟩
    · rw [empty, hsize] at he
      exact absurd he Nat.one_ne_zero
    · rw [popMin, hroot, heq]
      show (Function.update u.slots idx _ idx).value = v
      rw [Function.update_self]
    · have hleft := (removeAt_holds (w := u.place idx ts v) (P := fun _ => True)
        (fun _ _ => trivial) (show 0 < (u.place idx ts v).heapSize by omega)).2
      rw [hsize] at hleft
      exact hleft
    · intro hnull
      rw [popMin, hroot] at hnull
      exact absurd hnull hidx
  rw [empty] at hw
  unfold push
  by_cases hnull : w.freeHead = kNullIndex
  · obtain ⟨hlt, hne⟩ := hroom hnull
    rw [if_pos hnull, if_neg (Nat.not_le.mpr hlt)]
    exact hplace _ _ hw (Nat.ne_of_lt hne)
  · rw [if_neg hnull]
    exact hplace _ _ hw hnull

end Scheduler

end Mog
