import Mog.Book.Types

/-!
# The slot arena

A fixed number of slots, handed out in index order until the watermark reaches
the capacity and recycled through an intrusive free list. A handle names a slot
and the generation it was handed out in, so that a handle kept past its slot's
release no longer validates.

The slots are a function from indices, so that a write is an update at one index and every lemma
below says what a field reads after it. The generation of a slot moves when the slot is
returned, in 32 bits; whether it comes round is a question about runs, not about one call.
-/

namespace Mog

/-- A slot and the generation in which it was handed out. -/
structure GenHandle where
  index : Nat := kNullIndex
  generation : Nat := 0
deriving DecidableEq, Repr

/-- The handle of no slot. -/
def GenHandle.isNull (h : GenHandle) : Prop := h.index = kNullIndex

instance (h : GenHandle) : Decidable h.isNull := inferInstanceAs (Decidable (_ = _))

/-- A slot: the value it holds, the generation of its handles, and its link in the free list. -/
structure Slot (α : Type) where
  value : α
  generation : Nat := 0
  freeNext : Nat := kNullIndex
  live : Bool := false

/-- The slots, with the head of the free list and the first slot never used. -/
structure Arena (α : Type) where
  capacity : Nat
  liveCount : Nat := 0
  watermark : Nat := 0
  freeHead : Nat := kNullIndex
  slots : Nat → Slot α

namespace Arena

variable {α : Type}

/-- An arena with every slot still to be built. -/
def init [Inhabited α] (capacity : Nat) : Arena α :=
  { capacity, slots := fun _ => { value := default } }

/-- The arena with slot `i` replaced. -/
def setSlot (a : Arena α) (i : Nat) (s : Slot α) : Arena α :=
  { a with slots := Function.update a.slots i s }

/-- Hand out a slot: the head of the free list, else the next slot never used.
The null handle when the arena is exhausted. -/
def acquire [Inhabited α] (a : Arena α) (v : α) : GenHandle × Arena α :=
  if a.freeHead = kNullIndex then
    if a.capacity ≤ a.watermark then ({}, a)
    else
      let idx := a.watermark
      ({ index := idx, generation := 0 },
        { a with
          watermark := a.watermark + 1
          liveCount := a.liveCount + 1
          slots := Function.update a.slots idx { value := v, live := true } })
  else
    let idx := a.freeHead
    let s := a.slots idx
    ({ index := idx, generation := s.generation },
      { a with
        freeHead := s.freeNext
        liveCount := a.liveCount + 1
        slots := Function.update a.slots idx { s with value := v, live := true } })

/-- Return a slot: its generation moves on (in 32 bits) and it heads the free list. -/
def release (a : Arena α) (h : GenHandle) : Arena α :=
  let s := a.slots h.index
  { a with
    freeHead := h.index
    liveCount := a.liveCount - 1
    slots := Function.update a.slots h.index
      { s with live := false, generation := (s.generation + 1) % 2 ^ 32, freeNext := a.freeHead } }

/-- A handle is valid while its slot is live in the generation that it names. -/
def valid (a : Arena α) (h : GenHandle) : Prop :=
  h.index < a.capacity ∧ (a.slots h.index).live = true
    ∧ (a.slots h.index).generation = h.generation

instance (a : Arena α) (h : GenHandle) : Decidable (a.valid h) :=
  inferInstanceAs (Decidable (_ ∧ _))

/-- The value in slot `i`, live or not. -/
def atIndex (a : Arena α) (i : Nat) : α := (a.slots i).value

/-- The value behind a handle. -/
def deref (a : Arena α) (h : GenHandle) : α := a.atIndex h.index

/-- Write through a reference to a slot's value. -/
def modify (a : Arena α) (i : Nat) (f : α → α) : Arena α :=
  a.setSlot i { a.slots i with value := f (a.slots i).value }

/-! ## What each operation leaves where -/

/-- A write to a value leaves the bookkeeping alone. -/
@[simp] theorem modify_capacity (a : Arena α) (i : Nat) (f : α → α) :
    (a.modify i f).capacity = a.capacity := rfl

@[simp] theorem modify_watermark (a : Arena α) (i : Nat) (f : α → α) :
    (a.modify i f).watermark = a.watermark := rfl

@[simp] theorem modify_liveCount (a : Arena α) (i : Nat) (f : α → α) :
    (a.modify i f).liveCount = a.liveCount := rfl

@[simp] theorem modify_freeHead (a : Arena α) (i : Nat) (f : α → α) :
    (a.modify i f).freeHead = a.freeHead := rfl

/-- A write to the value of slot `i` is seen at `i` alone. -/
theorem modify_slots (a : Arena α) (i : Nat) (f : α → α) (j : Nat) :
    (a.modify i f).slots j
      = if j = i then { a.slots i with value := f (a.slots i).value } else a.slots j := by
  simp only [modify, setSlot, Function.update_apply]

/-- A value after a write. -/
theorem modify_atIndex (a : Arena α) (i : Nat) (f : α → α) (j : Nat) :
    (a.modify i f).atIndex j = if j = i then f (a.atIndex i) else a.atIndex j := by
  unfold atIndex
  rw [modify_slots]
  split <;> rfl

/-- No write hands out or returns a slot. -/
@[simp] theorem modify_live (a : Arena α) (i : Nat) (f : α → α) (j : Nat) :
    ((a.modify i f).slots j).live = (a.slots j).live := by
  rw [modify_slots]; split <;> simp_all

@[simp] theorem modify_generation (a : Arena α) (i : Nat) (f : α → α) (j : Nat) :
    ((a.modify i f).slots j).generation = (a.slots j).generation := by
  rw [modify_slots]; split <;> simp_all

@[simp] theorem modify_freeNext (a : Arena α) (i : Nat) (f : α → α) (j : Nat) :
    ((a.modify i f).slots j).freeNext = (a.slots j).freeNext := by
  rw [modify_slots]; split <;> simp_all

end Arena

end Mog
