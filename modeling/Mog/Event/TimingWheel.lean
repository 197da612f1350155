import Mog.Event.Slots
import Mog.Lib.WordScan

/-!
# The timing wheel

Eleven levels of 64 buckets, one level for each base-64 digit of a timestamp. An event
sits at the highest digit where its timestamp differs from the watermark, in the bucket
of its own digit there; as the watermark advances, events move down. A bucket is a
doubly linked chain, and a level has one bit for each bucket that is not empty.

Timestamps are natural numbers below 2^64. The loops carry bounds, and those of `settle`
give no result where a bound is too small: `settle` makes at most one pass for each level
and one more, and a walk along a chain at most one step for each live event.
-/

namespace Mog

open WordScan

/-- The low `bits` bits of a word. -/
def maskLowBits (bits : Nat) : BitVec 64 :=
  if 64 ≤ bits then ~~~0#64 else (1#64 <<< bits) - 1#64

/-- The base-64 digit of a timestamp at a level. -/
def digit (ts li : Nat) : Nat := (ts >>> (6 * li)) &&& 63

structure WheelSlot (α : Type) where
  value : α
  ts : Nat := 0
  seq : Nat := 0
  generation : Nat := 0
  /-- Level times 64 plus the slot within the level. -/
  bucket : Nat := kNullIndex
  prev : Nat := kNullIndex
  next : Nat := kNullIndex
  freeNext : Nat := kNullIndex
  live : Bool := false

structure WheelLevel where
  head : Nat → Nat := fun _ => kNullIndex
  tail : Nat → Nat := fun _ => kNullIndex
  occupied : BitVec 64 := 0#64
  /-- Level 0 only: the sequence number last attached, and whether the chain was attached
  in the order of its sequence numbers. -/
  bucketLastSeq : Nat → Nat := fun _ => 0
  bucketSorted : Nat → Bool := fun _ => false

structure TimingWheel (α : Type) where
  capacity : Nat
  slots : Nat → WheelSlot α
  watermark : Nat := 0
  freeHead : Nat := kNullIndex
  live : Nat := 0
  now : Nat := 0
  nextSeq : Nat := 0
  levels : Nat → WheelLevel := fun _ => {}

namespace TimingWheel

variable {α : Type} (w : TimingWheel α)

def kLevels : Nat := 11

def kBuckets : Nat := 64

def init [Inhabited α] (capacity : Nat) : TimingWheel α :=
  { capacity, slots := fun _ => { value := default } }

def size : Nat := w.live

def modifySlot (i : Nat) (f : WheelSlot α → WheelSlot α) : TimingWheel α :=
  { w with slots := Function.update w.slots i (f (w.slots i)) }

/-! ## Buckets -/

/-- The highest digit that differs from the watermark decides the level. -/
def routeBucket (ts : Nat) : Nat :=
  let diff := ts ^^^ w.now
  if diff = 0 then digit w.now 0
  else
    let top := diff.log2
    let level := top / 6
    level * kBuckets + digit ts level

/-- Append an event to the chain of its bucket. -/
def attach (idx : Nat) : TimingWheel α :=
  let b := w.routeBucket (w.slots idx).ts
  let li := b / kBuckets
  let slot := b % kBuckets
  let l := w.levels li
  let first := l.head slot = kNullIndex
  let prev := if first then kNullIndex else l.tail slot
  let slots := Function.update w.slots idx { w.slots idx with bucket := b, next := kNullIndex, prev }
  let slots :=
    if first then slots
    else Function.update slots (l.tail slot) { slots (l.tail slot) with next := idx }
  let head := if first then Function.update l.head slot idx else l.head
  let seq := (w.slots idx).seq
  let sorted :=
    if head slot = idx then true else l.bucketSorted slot && decide (l.bucketLastSeq slot < seq)
  { w with
    slots
    levels := Function.update w.levels li
      { head
        tail := Function.update l.tail slot idx
        occupied := l.occupied ||| (1#64 <<< slot)
        bucketSorted := if li = 0 then Function.update l.bucketSorted slot sorted else l.bucketSorted
        bucketLastSeq :=
          if li = 0 then Function.update l.bucketLastSeq slot seq else l.bucketLastSeq } }

/-- Take an event out of the chain of its bucket. -/
def detach (idx : Nat) : TimingWheel α :=
  let s := w.slots idx
  let li := s.bucket / kBuckets
  let slot := s.bucket % kBuckets
  let l := w.levels li
  let slots := w.slots
  let slots :=
    if s.prev ≠ kNullIndex then Function.update slots s.prev { slots s.prev with next := s.next }
    else slots
  let head := if s.prev ≠ kNullIndex then l.head else Function.update l.head slot s.next
  let slots :=
    if s.next ≠ kNullIndex then Function.update slots s.next { slots s.next with prev := s.prev }
    else slots
  let tail := if s.next ≠ kNullIndex then l.tail else Function.update l.tail slot s.prev
  let emptied := head slot = kNullIndex
  { w with
    slots := Function.update slots idx { slots idx with bucket := kNullIndex }
    levels := Function.update w.levels li
      { l with
        head
        tail
        occupied := if emptied then l.occupied &&& ~~~(1#64 <<< slot) else l.occupied
        bucketSorted :=
          if emptied ∧ li = 0 then Function.update l.bucketSorted slot false else l.bucketSorted } }

def freeSlot (idx : Nat) : TimingWheel α :=
  { w.modifySlot idx (fun s =>
      { s with live := false, generation := (s.generation + 1) % 2 ^ 32, freeNext := w.freeHead }) with
    freeHead := idx }

/-! ## Settling -/

/-- The loop over one bucket: every event of the chain is routed anew. -/
def demoteChain : Nat → Nat → TimingWheel α → Option (TimingWheel α)
  | 0, idx, w => if idx = kNullIndex then some w else none
  | fuel + 1, idx, w =>
      if idx = kNullIndex then some w
      else demoteChain fuel (w.slots idx).next ((w.detach idx).attach idx)

/-- The loop over the buckets of one level whose bits are set in `toDemote`. -/
def demoteLevel (li : Nat) : Nat → BitVec 64 → TimingWheel α → Option (TimingWheel α)
  | 0, toDemote, w => if toDemote = 0#64 then some w else none
  | fuel + 1, toDemote, w =>
      if toDemote = 0#64 then some w
      else
        let slot := countrZero toDemote
        (demoteChain w.live ((w.levels li).head slot) w).bind
          (demoteLevel li fuel (toDemote &&& (toDemote - 1#64)))

/-- Demote every bucket at or behind the watermark's digit, level by level. -/
def demote : Option (TimingWheel α) :=
  (List.range' 1 (kLevels - 1)).foldlM (fun w li =>
    demoteLevel li kBuckets ((w.levels li).occupied &&& maskLowBits (digit w.now li + 1)) w) w

/-- The boundary of the first occupied bucket of a level. -/
def bound (li : Nat) : Nat :=
  (w.now - w.now % 2 ^ (6 * (li + 1))) + (countrZero (w.levels li).occupied) * 2 ^ (6 * li)

/-- The nearest boundary of the levels above level 0. -/
def nearest : Nat :=
  (List.range' 1 (kLevels - 1)).foldl (fun best li =>
    if (w.levels li).occupied = 0#64 then best else min best (w.bound li)) (2 ^ 64 - 1)

/-- The loop of `settle`: advance the watermark to the next pending timestamp. -/
def settleLoop : Nat → TimingWheel α → Option (TimingWheel α)
  | 0, _ => none
  | fuel + 1, w =>
      if w.live = 0 then some w
      else
        let slot0 := digit w.now 0
        let occ0 := (w.levels 0).occupied
        if occ0.getLsbD slot0 then some w
        else
          let later := occ0 &&& ~~~ maskLowBits (slot0 + 1)
          if later ≠ 0#64 then
            settleLoop fuel { w with now := (w.now - w.now % 64) + countrZero later }
          else
            let best := w.nearest
            if best = 2 ^ 64 - 1 then some w
            else ({ w with now := best } : TimingWheel α).demote.bind (settleLoop fuel)

/-- The most passes `settle` makes. -/
def settleFuel : Nat := kLevels + 1

def settle : TimingWheel α := (settleLoop settleFuel w).getD w

/-! ## The current tick -/

/-- The scan of a chain for its least sequence number. -/
def scanFront : Nat → Nat → Nat → Nat
  | 0, _, best => best
  | fuel + 1, it, best =>
      if it = kNullIndex then best
      else
        scanFront fuel (w.slots it).next
          (if (w.slots it).seq < (w.slots best).seq then it else best)

/-- The event of the current tick with the least sequence number. -/
def frontOfTick : Nat :=
  let slot := digit w.now 0
  let l := w.levels 0
  let head := l.head slot
  if l.bucketSorted slot then head else w.scanFront w.live (w.slots head).next head

/-! ## Calls -/

def push [Inhabited α] (ts : Nat) (value : α) : GenHandle × TimingWheel α :=
  if w.freeHead = kNullIndex ∧ w.capacity ≤ w.watermark then ({}, w)
  else
    let idx := if w.freeHead = kNullIndex then w.watermark else w.freeHead
    let w : TimingWheel α :=
      if w.freeHead = kNullIndex then
        { w with
          watermark := w.watermark + 1
          slots := Function.update w.slots idx { value := default } }
      else { w with freeHead := (w.slots idx).freeNext }
    let generation := (w.slots idx).generation
    let w := w.modifySlot idx (fun s => { s with value, ts, seq := w.nextSeq, live := true })
    let w := w.attach idx
    ({ index := idx, generation }, { w with live := w.live + 1, nextSeq := w.nextSeq + 1 })

/-- False for a stale handle or one out of range. -/
def cancel (h : GenHandle) : Bool × TimingWheel α :=
  if w.capacity ≤ h.index then (false, w)
  else if (w.slots h.index).live = false ∨ (w.slots h.index).generation ≠ h.generation then (false, w)
  else
    let w := (w.detach h.index).freeSlot h.index
    (true, { w with live := w.live - 1 })

def peekMinTs : Nat × TimingWheel α :=
  let w := w.settle
  (w.now, w)

def peekMin : α × TimingWheel α :=
  let w := w.settle
  ((w.slots w.frontOfTick).value, w)

def popMin : α × TimingWheel α :=
  let w := w.settle
  let idx := w.frontOfTick
  let w := w.detach idx
  let out := (w.slots idx).value
  let w := w.freeSlot idx
  (out, { w with live := w.live - 1 })

def clear [Inhabited α] : TimingWheel α :=
  { w with
    watermark := w.capacity
    slots := fun i =>
      if i < w.capacity then
        let s : WheelSlot α := if w.watermark ≤ i then { value := default } else w.slots i
        { s with
          generation := if s.live then (s.generation + 1) % 2 ^ 32 else s.generation
          live := false
          bucket := kNullIndex
          freeNext := if i + 1 < w.capacity then i + 1 else kNullIndex }
      else w.slots i
    levels := fun li =>
      { w.levels li with head := fun _ => kNullIndex, tail := fun _ => kNullIndex, occupied := 0#64 }
    freeHead := 0
    live := 0
    now := 0
    nextSeq := 0 }

/-! ## The audit -/

/-- What `audit` demands of an event in bucket `b` of level `li`, reached from `prev`. -/
def auditEvent (li b prev idx : Nat) : Prop :=
  (w.slots idx).live = true ∧ (w.slots idx).bucket = li * kBuckets + b
    ∧ (w.slots idx).prev = prev ∧ w.now ≤ (w.slots idx).ts
    ∧ (if 0 < li then
        (6 * (li + 1) < 64 → ((w.slots idx).ts ^^^ w.now) >>> (6 * (li + 1)) = 0)
          ∧ digit (w.slots idx).ts li = b ∧ digit w.now li < b
      else (w.slots idx).ts >>> 6 = w.now >>> 6)

instance (li b prev idx : Nat) : Decidable (w.auditEvent li b prev idx) :=
  inferInstanceAs (Decidable (_ ∧ _ ∧ _ ∧ _ ∧ _))

/-- The walk of `audit` along a chain: its length and its last event, when every event
passes. -/
def auditChain (li b : Nat) : Nat → Nat → Nat → Nat → Option (Nat × Nat)
  | 0, _, _, _ => none
  | fuel + 1, chain, prev, idx =>
      if idx = kNullIndex then some (chain, prev)
      else if w.capacity < chain + 1 then none
      else if w.auditEvent li b prev idx then auditChain li b fuel (chain + 1) idx (w.slots idx).next
      else none

/-- The number of events in a bucket that passes. -/
def auditBucket (li b : Nat) : Option Nat :=
  let l := w.levels li
  let hasBit := l.occupied.getLsbD b
  if hasBit ≠ decide (l.head b ≠ kNullIndex) then none
  else if hasBit ∧ l.tail b = kNullIndex then none
  else
    match w.auditChain li b (w.capacity + 1) 0 kNullIndex (l.head b) with
    | none => none
    | some r => if hasBit ∧ l.tail b ≠ r.2 then none else some r.1

/-- The number of events seen in all the buckets. -/
def auditSeen : Option Nat :=
  (List.range (kLevels * kBuckets)).foldl (fun seen b =>
    seen.bind fun n => (w.auditBucket (b / kBuckets) (b % kBuckets)).map (n + ·)) (some 0)

/-- Buckets, masks, counts and the free list. -/
def audit : Bool :=
  match w.auditSeen with
  | none => false
  | some seen =>
      decide (seen = w.live)
        && decide ((SlotTable.freeLength w.capacity (fun i => (w.slots i).live)
            (fun i => (w.slots i).freeNext) (w.capacity + 1) w.freeHead).map
              (fun n => n + (w.capacity - w.watermark) + seen) = some w.capacity)

end TimingWheel

end Mog
