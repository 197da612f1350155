import Mog.Sim.Types

/-!
# The trackers of the simulator's own orders

One tracker per arena slot, and per side a table of levels that links the trackers
resting at one price. A level that finds the table full goes on the fallback list
and is walked in the book instead.

The table is open addressing with linear probing over the price's hash, of a fixed size, and its
cells are never given back: an entry whose list has become empty stays. The lists are doubly
linked through the trackers, and positions are rewritten by walking one of them.
-/

namespace Mog

open LinkedChain

def kLevelMapSize : Nat := 4096

structure TrackTable where
  /-- `tracked_.size()`, the arena capacity. -/
  size : Nat
  tracked : Nat → Tracked := fun _ => {}
  levelMaps : Side → Nat → TrackLevel := fun _ _ => {}
  fallbackLevels : Side → List Int := fun _ => []
  /-- The trackers synced by the event under way. -/
  recentSync : List Nat := []

/-- The mixing function of a level's price, masked to the table. -/
def levelHash (price : Int) : Nat :=
  let z := (toU64 price + 0x9e3779b97f4a7c15) % 2 ^ 64
  let z := (z ^^^ (z >>> 30)) * 0xbf58476d1ce4e5b9 % 2 ^ 64
  let z := (z ^^^ (z >>> 27)) * 0x94d049bb133111eb % 2 ^ 64
  (z ^^^ (z >>> 31)) &&& (kLevelMapSize - 1)

/-- The loop of `level_find` over the table `m`, at its `n`-th cell from `h`. -/
def levelFindFrom (m : Nat → TrackLevel) (h : Nat) (price : Int) : Nat → Nat → Option Nat
  | 0, _ => none
  | fuel + 1, n =>
      let x := (h + n) &&& (kLevelMapSize - 1)
      if (m x).occupied = false then none
      else if (m x).price = price then some x
      else levelFindFrom m h price fuel (n + 1)

/-- The loop of `level_get`: the entry of `price`, and the first empty cell met. -/
def levelScan (m : Nat → TrackLevel) (h : Nat) (price : Int) :
    Nat → Nat → Option Nat → Option Nat × Option Nat
  | 0, _, empty => (none, empty)
  | fuel + 1, n, empty =>
      let x := (h + n) &&& (kLevelMapSize - 1)
      if (m x).occupied then
        if (m x).price = price then (some x, empty) else levelScan m h price fuel (n + 1) empty
      else
        match empty with
        | none => levelScan m h price fuel (n + 1) (some x)
        | some e => levelScan m h price fuel (n + 1) (some e)

namespace TrackTable

variable {kPageShift : Nat}

def modify (t : TrackTable) (i : Nat) (f : Tracked → Tracked) : TrackTable :=
  { t with tracked := Function.update t.tracked i (f (t.tracked i)) }

def setLevel (t : TrackTable) (s : Side) (x : Nat) (e : TrackLevel) : TrackTable :=
  { t with
    levelMaps := fun s' => if s' = s then Function.update (t.levelMaps s) x e else t.levelMaps s' }

/-- The tracker of slot `i` is live; slots past the table's size have none. -/
def isLive (t : TrackTable) (i : Nat) : Prop := i < t.size ∧ (t.tracked i).live = true

instance (t : TrackTable) (i : Nat) : Decidable (t.isLive i) :=
  inferInstanceAs (Decidable (_ ∧ _))

/-- Find a level's entry without creating it; `none` covers absent and fallback levels. -/
def levelFind (t : TrackTable) (s : Side) (price : Int) : Option Nat :=
  levelFindFrom (t.levelMaps s) (levelHash price) price kLevelMapSize 0

/-- Find or claim a level's entry; `none` degrades the level to exact walks. -/
def levelGet (t : TrackTable) (s : Side) (price : Int) : Option Nat × TrackTable :=
  match levelScan (t.levelMaps s) (levelHash price) price kLevelMapSize 0 none with
  | (some x, _) => (some x, t)
  | (none, some x) =>
      (some x, t.setLevel s x { t.levelMaps s x with occupied := true, price })
  | (none, none) =>
      (none, { t with
        fallbackLevels := fun s' =>
          if s' = s then t.fallbackLevels s ++ [price] else t.fallbackLevels s' })

def isFallbackLevel (t : TrackTable) (s : Side) (price : Int) : Prop := price ∈ t.fallbackLevels s

instance (t : TrackTable) (s : Side) (price : Int) : Decidable (t.isFallbackLevel s price) :=
  inferInstanceAs (Decidable (_ ∈ _))

/-- Insert a tracker at the head of entry `x`'s list. -/
def linkAt (t : TrackTable) (idx : Nat) (s : Side) (x : Nat) : TrackTable :=
  let e := t.levelMaps s x
  let t := t.modify idx (fun o => { o with levelNext := e.head, levelPrev := kNullIndex })
  let t := if e.head ≠ kNullIndex then t.modify e.head (fun o => { o with levelPrev := idx }) else t
  let t := t.setLevel s x { e with head := idx, count := e.count + 1 }
  t.modify idx (fun o => { o with levelLinked := true })

def linkTracked (t : TrackTable) (idx : Nat) (s : Side) (price : Int) : TrackTable :=
  let r := t.levelGet s price
  match r.1 with
  | none => r.2
  | some x => r.2.linkAt idx s x

/-- Take a tracker out of entry `x`'s list. -/
def unlinkAt (t : TrackTable) (idx x : Nat) : TrackTable :=
  let o := t.tracked idx
  let t :=
    if o.levelPrev ≠ kNullIndex then t.modify o.levelPrev (fun p => { p with levelNext := o.levelNext })
    else t.setLevel o.side x { t.levelMaps o.side x with head := o.levelNext }
  let t :=
    if o.levelNext ≠ kNullIndex then t.modify o.levelNext (fun n => { n with levelPrev := o.levelPrev })
    else t
  let e := t.levelMaps o.side x
  if 0 < e.count then t.setLevel o.side x { e with count := e.count - 1 } else t

def unlinkTracked (t : TrackTable) (idx : Nat) : TrackTable :=
  let o := t.tracked idx
  if o.levelLinked = false then t
  else
    let x := t.levelFind o.side o.priceTicks
    let t := t.modify idx (fun o => { o with levelLinked := false })
    match x with
    | none => t
    | some x => t.unlinkAt idx x

/-- The order of a tracker has left the book. -/
def retire (t : TrackTable) (idx : Nat) : TrackTable :=
  (t.modify idx (fun o => { o with live := false })).unlinkTracked idx

/-- The walk of `recompute_positions` over a level's slots. -/
def recomputeWalk (b : OrderBook kPageShift) : List Nat → Int → TrackTable → TrackTable
  | [], _, t => t
  | i :: l, cum, t =>
      let rem := (b.arena.atIndex i).qtyRemaining
      let t := if t.isLive i then t.modify i (fun o => { o with qtyAhead := cum }) else t
      recomputeWalk b l (cum + rem) t

/-- Exact positions for every tracked order of a level, from a walk of its queue. -/
def recomputePositions (t : TrackTable) (b : OrderBook kPageShift) (s : Side) (price : Int) :
    TrackTable :=
  recomputeWalk b (b.levelSlots s price) 0 t

/-- The loop of `subtract_level` over a level's list. -/
def subtractWalk (take : Int) (skipSynced : Bool) : Nat → Nat → TrackTable → TrackTable
  | 0, _, t => t
  | fuel + 1, i, t =>
      if i = kNullIndex then t
      else if skipSynced ∧ i ∈ t.recentSync then
        subtractWalk take skipSynced fuel (t.tracked i).levelNext t
      else
        let t := t.modify i (fun o => { o with qtyAhead := o.qtyAhead - take })
        subtractWalk take skipSynced fuel (t.tracked i).levelNext t

/-- Subtract a take from a level's trackers; an exact walk where the level has no entry. -/
def subtractLevel (t : TrackTable) (b : OrderBook kPageShift) (s : Side) (price take : Int)
    (skipSynced : Bool) : TrackTable :=
  match t.levelFind s price with
  | none => if t.isFallbackLevel s price then t.recomputePositions b s price else t
  | some x => subtractWalk take skipSynced t.size (t.levelMaps s x).head t

/-- Mirror an order that has come to rest in slot `idx`. -/
def trackResting (t : TrackTable) (b : OrderBook kPageShift) (ref : Nat) (s : Side)
    (qty price : Int) : TrackTable :=
  let idx := (b.findHandle ref).index
  let t := t.modify idx (fun o =>
    { o with
      ref, side := s, priceTicks := price, qtyRemaining := qty, live := true
      qtyAhead := b.qtyAt s price - qty })
  t.linkTracked idx s price

/-- The loop of `recompute_all_tracked` over one side's entries. -/
def recomputeEntries (b : OrderBook kPageShift) (s : Side) (t : TrackTable) : TrackTable :=
  (List.range kLevelMapSize).foldl (fun t x =>
    let e := t.levelMaps s x
    if e.occupied ∧ 0 < e.count then t.recomputePositions b s e.price else t) t

/-- The exact-walk twin: re-derive every position. -/
def recomputeAll (t : TrackTable) (b : OrderBook kPageShift) : TrackTable :=
  [Side.buy, Side.sell].foldl (fun t s =>
    (t.fallbackLevels s).foldl (fun t p => t.recomputePositions b s p) (recomputeEntries b s t)) t

end TrackTable

end Mog
