import Mog.Book.Arena
import Mog.Book.Ladder
import Mog.Lib.LinkedChain

/-!
# The order book

Orders live in arena slots, linked into one queue per price level; an open
addressing table maps order references to slots; each side's ladder carries the
level totals; the best prices are cached.

Every call is a function from the book to a `BookResult`: the tick it returns, the
book it leaves, the deltas it appends when the caller asks for them, and what
`execute_front` reports as its victim. Contract checks have no effect of their own
and are left out. The probe and walk loops of the source are bounded here by the
table and arena capacities; the invariant shows that they stop on their own
condition before that.
-/

namespace Mog

/-- One cell of the id table; `ref = 0` marks the empty cell. -/
structure Entry where
  ref : Nat := 0
  handle : GenHandle := {}
deriving DecidableEq, Repr

structure BookConfig where
  arenaCapacity : Nat
  ladder : LadderConfig
deriving DecidableEq, Repr

structure OrderBook (kPageShift : Nat) where
  arena : Arena Order
  bidLadder : PriceLadder kPageShift
  askLadder : PriceLadder kPageShift
  tableCap : Nat
  tableShift : Nat
  tableSize : Nat := 0
  entries : Nat → Entry := fun _ => {}
  bestBid : Int := kNoTick
  bestAsk : Int := kNoTick

structure BookResult (kPageShift : Nat) where
  tick : BookTick
  book : OrderBook kPageShift
  deltas : List LevelDelta := []
  victim : Option Nat := none

structure FindResult where
  slot : Nat := 0
  handle : GenHandle := {}
deriving DecidableEq, Repr

/-- The loop of `round_pow2`. -/
def roundPow2From (n : Nat) : Nat → Nat → Nat
  | 0, p => p
  | fuel + 1, p => if p < n then roundPow2From n fuel (p * 2) else p

/-- The least power of two that is at least `n`. -/
def roundPow2 (n : Nat) : Nat := roundPow2From n n 1

namespace OrderBook

variable {kPageShift : Nat}

def init (cfg : BookConfig) : OrderBook kPageShift :=
  let tableCap := roundPow2 (cfg.arenaCapacity * 2)
  { arena := Arena.init cfg.arenaCapacity
    bidLadder := PriceLadder.init cfg.ladder
    askLadder := PriceLadder.init cfg.ladder
    tableCap
    tableShift := 64 - Nat.log2 tableCap }

def ladderFor (b : OrderBook kPageShift) : Side → PriceLadder kPageShift
  | .buy => b.bidLadder
  | .sell => b.askLadder

def setLadder (b : OrderBook kPageShift) (s : Side) (l : PriceLadder kPageShift) :
    OrderBook kPageShift :=
  match s with
  | .buy => { b with bidLadder := l }
  | .sell => { b with askLadder := l }

/-! ## The id table -/

/-- Fibonacci hashing: one multiply in 64 bits, the top bits are the index. -/
def probeStart (b : OrderBook kPageShift) (ref : Nat) : Nat :=
  (ref * 0x9E3779B97F4A7C15 % 2 ^ 64) >>> b.tableShift

/-- The probe loop of `id_find_slot`. -/
def probe (b : OrderBook kPageShift) (ref : Nat) : Nat → Nat → FindResult
  | 0, i => { slot := i }
  | fuel + 1, i =>
      if (b.entries i).ref = 0 then { slot := i }
      else if (b.entries i).ref = ref then { slot := i, handle := (b.entries i).handle }
      else probe b ref fuel ((i + 1) &&& (b.tableCap - 1))

def idFindSlot (b : OrderBook kPageShift) (ref : Nat) : FindResult :=
  b.probe ref b.tableCap (b.probeStart ref)

def idFind (b : OrderBook kPageShift) (ref : Nat) : GenHandle := (b.idFindSlot ref).handle

def idInsertAt (b : OrderBook kPageShift) (slot ref : Nat) (h : GenHandle) :
    OrderBook kPageShift :=
  { b with
    entries := Function.update b.entries slot { ref, handle := h }
    tableSize := b.tableSize + 1 }

/-- The loop of `id_erase_at`: the hole is at `i`, the scan at `j`. -/
def shiftBack (b : OrderBook kPageShift) (t : Nat → Entry) : Nat → Nat → Nat → (Nat → Entry) × Nat
  | 0, i, _ => (t, i)
  | fuel + 1, i, j =>
      let j := (j + 1) &&& (b.tableCap - 1)
      if (t j).ref = 0 then (t, i)
      else
        let home := b.probeStart (t j).ref
        if (if i < j then i < home ∧ home ≤ j else i < home ∨ home ≤ j) then
          shiftBack b t fuel i j
        else shiftBack b (Function.update t i (t j)) fuel j j

/-- Backward-shift deletion. -/
def idEraseAt (b : OrderBook kPageShift) (slot : Nat) : OrderBook kPageShift :=
  let r := b.shiftBack b.entries b.tableCap slot slot
  { b with
    entries := Function.update r.1 r.2 { r.1 r.2 with ref := 0 }
    tableSize := b.tableSize - 1 }

def idErase (b : OrderBook kPageShift) (ref : Nat) : OrderBook kPageShift :=
  b.idEraseAt (b.idFindSlot ref).slot

/-! ## The level queues -/

def modifyOrder (b : OrderBook kPageShift) (i : Nat) (f : Order → Order) : OrderBook kPageShift :=
  { b with arena := b.arena.modify i f }

def levelOf (b : OrderBook kPageShift) (s : Side) (lv : LevelPtr) : Level := (b.ladderFor s).level lv

def modifyLevel (b : OrderBook kPageShift) (s : Side) (lv : LevelPtr) (f : Level → Level) :
    OrderBook kPageShift :=
  b.setLadder s ((b.ladderFor s).setLevel lv (f (b.levelOf s lv)))

def pushTail (b : OrderBook kPageShift) (s : Side) (lv : LevelPtr) (idx : Nat) :
    OrderBook kPageShift :=
  let tail := (b.levelOf s lv).tail
  let b := b.modifyOrder idx (fun o => { o with prev := tail, next := kNullIndex })
  let b :=
    if tail ≠ kNullIndex then b.modifyOrder tail (fun o => { o with next := idx })
    else b.modifyLevel s lv (fun l => { l with head := idx })
  b.modifyLevel s lv (fun l => { l with tail := idx, count := l.count + 1 })

def unlink (b : OrderBook kPageShift) (s : Side) (lv : LevelPtr) (idx : Nat) :
    OrderBook kPageShift :=
  let o := b.arena.atIndex idx
  let b :=
    if o.prev ≠ kNullIndex then b.modifyOrder o.prev (fun p => { p with next := o.next })
    else b.modifyLevel s lv (fun l => { l with head := o.next })
  let b :=
    if o.next ≠ kNullIndex then b.modifyOrder o.next (fun n => { n with prev := o.prev })
    else b.modifyLevel s lv (fun l => { l with tail := o.prev })
  b.modifyLevel s lv (fun l => { l with count := l.count - 1 })

/-! ## Queries -/

def inBand (b : OrderBook kPageShift) (tick : Int) : Prop := b.bidLadder.inBand tick

instance (b : OrderBook kPageShift) (tick : Int) : Decidable (b.inBand tick) :=
  inferInstanceAs (Decidable (PriceLadder.inBand _ _))

def liveOrders (b : OrderBook kPageShift) : Nat := b.arena.liveCount

/-- The cached best price of a side. -/
def best (b : OrderBook kPageShift) : Side → Int
  | .buy => b.bestBid
  | .sell => b.bestAsk

/-- The total resting at a price; 0 when the level is absent. -/
def qtyAt (b : OrderBook kPageShift) (s : Side) (price : Int) : Int :=
  match (b.ladderFor s).peek price with
  | some lv => lv.qtyTotal
  | none => 0

def findHandle (b : OrderBook kPageShift) (ref : Nat) : GenHandle := b.idFind ref

def remainingOf (b : OrderBook kPageShift) (ref : Nat) : Int :=
  let h := b.idFind ref
  if h.index = kNullIndex ∨ ¬ b.arena.valid h then 0 else (b.arena.deref h).qtyRemaining

def remainingOfHandle (b : OrderBook kPageShift) (h : GenHandle) : Int :=
  (b.arena.deref h).qtyRemaining

/-- The side of a live order; `none` is the source's `'?'`. -/
def sideOf (b : OrderBook kPageShift) (ref : Nat) : Option Side :=
  let h := b.idFind ref
  if h.index = kNullIndex ∨ ¬ b.arena.valid h then none else some (b.arena.deref h).side

/-- The slots `for_each_in_level_idx` visits, head first. -/
def levelSlots (b : OrderBook kPageShift) (s : Side) (price : Int) : List Nat :=
  match (b.ladderFor s).peek price with
  | some lv => LinkedChain.walk (fun i => (b.arena.atIndex i).next) kNullIndex b.arena.capacity lv.head
  | none => []

/-- The head order's reference; 0 when the level is empty. -/
def frontRef (b : OrderBook kPageShift) (s : Side) (price : Int) : Nat :=
  match (b.ladderFor s).peek price with
  | some lv => if lv.head = kNullIndex then 0 else (b.arena.atIndex lv.head).orderRef
  | none => 0

def nextPriceBelow (b : OrderBook kPageShift) (s : Side) (tick : Int) : Int :=
  (b.ladderFor s).firstBelow tick

def nextPriceAbove (b : OrderBook kPageShift) (s : Side) (tick : Int) : Int :=
  (b.ladderFor s).firstAbove tick

/-! ## The calls -/

/-- A rejected call. -/
def fail (b : OrderBook kPageShift) (e : BookError) : BookResult kPageShift :=
  { tick := tickError e, book := b }

/-- The best price after an order has come to rest. -/
def raiseBest (b : OrderBook kPageShift) (s : Side) (price : Int) : OrderBook kPageShift :=
  match s with
  | .buy => if b.bestBid = kNoTick ∨ b.bestBid < price then { b with bestBid := price } else b
  | .sell => if b.bestAsk = kNoTick ∨ price < b.bestAsk then { b with bestAsk := price } else b

/-- The best price after a level may have drained. -/
def refillBest (b : OrderBook kPageShift) (s : Side) (ticks : Int) (lv : LevelPtr) :
    OrderBook kPageShift :=
  if (b.levelOf s lv).qtyTotal = 0 then
    match s with
    | .buy =>
        if b.bestBid = ticks then { b with bestBid := b.bidLadder.firstBelow b.bestBid } else b
    | .sell =>
        if b.bestAsk = ticks then { b with bestAsk := b.askLadder.firstAbove b.bestAsk } else b
  else b

/-- What `add` does once nothing stands against it: the order is in slot `h`. -/
def rest (b : OrderBook kPageShift) (slot : Nat) (h : GenHandle) (ref : Nat) (s : Side)
    (qty price : Int) : OrderBook kPageShift :=
  let b := b.idInsertAt slot ref h
  let r := (b.ladderFor s).apply price qty
  let b := (b.setLadder s r.1).pushTail s r.2 h.index
  b.raiseBest s price

def add (b : OrderBook kPageShift) (ref : Nat) (s : Side) (qty price : Int) :
    BookResult kPageShift :=
  if ref = 0 then b.fail .zeroRef
  else if qty ≤ 0 then b.fail .badQty
  else if ¬ b.inBand price then b.fail .outOfBand
  else if ¬ (b.ladderFor s).claimable price then b.fail .pageExhausted
  else
    let res := b.idFindSlot ref
    if res.handle.index ≠ kNullIndex then b.fail .duplicateRef
    else
      let order : Order := { orderRef := ref, qtyRemaining := qty, priceTicks := price, side := s }
      let a := b.arena.acquire order
      if a.1.isNull then b.fail .arenaFull
      else
        { tick := { priceTicks := price, qty := toU32 qty, kind := .added, side := some s }
          book := ({ b with arena := a.2 }).rest res.slot a.1 ref s qty price
          deltas := [{ priceTicks := price, qtyDelta := toI32 qty, side := s }] }

/-- Release an emptied order's slot and its table cell. -/
def eraseOrder (b : OrderBook kPageShift) (h : GenHandle) (ref slotHint : Nat) :
    OrderBook kPageShift :=
  let b := { b with arena := b.arena.release h }
  if slotHint ≠ kNullIndex then b.idEraseAt slotHint else b.idErase ref

/-- Take `qty` off the order behind `h`; `slotHint` is its table cell when known. -/
def reduce (b : OrderBook kPageShift) (h : GenHandle) (qty : Int) (partialKind : TickKind)
    (slotHint : Nat) : BookResult kPageShift :=
  let o := b.arena.deref h
  let emptied : Prop := o.qtyRemaining - qty = 0
  let b := b.modifyOrder h.index (fun o => { o with qtyRemaining := o.qtyRemaining - qty })
  let r := (b.ladderFor o.side).apply o.priceTicks (-qty)
  let b := b.setLadder o.side r.1
  let b := if emptied then (b.unlink o.side r.2 h.index).eraseOrder h o.orderRef slotHint else b
  { tick :=
      { priceTicks := o.priceTicks, qty := toU32 qty
        kind := if emptied then .removed else partialKind, side := some o.side }
    book := b.refillBest o.side o.priceTicks r.2
    deltas := [{ priceTicks := o.priceTicks, qtyDelta := toI32 (-qty), side := o.side }] }

def execute (b : OrderBook kPageShift) (ref : Nat) (qty : Int) : BookResult kPageShift :=
  if qty ≤ 0 then b.fail .badQty
  else
    let res := b.idFindSlot ref
    if res.handle.index = kNullIndex then b.fail .unknownOrder
    else if (b.arena.deref res.handle).qtyRemaining < qty then b.fail .overExecute
    else b.reduce res.handle qty .reduced res.slot

/-- A partial cancel shares execution semantics. -/
def cancel (b : OrderBook kPageShift) (ref : Nat) (qty : Int) : BookResult kPageShift :=
  b.execute ref qty

/-- Match against the head of the queue at an exact price. -/
def executeFront (b : OrderBook kPageShift) (s : Side) (price qty : Int) : BookResult kPageShift :=
  if qty ≤ 0 then b.fail .badQty
  else
    match (b.ladderFor s).peek price with
    | none => b.fail .emptyLevel
    | some lv =>
        if lv.head = kNullIndex then b.fail .emptyLevel
        else
          let direct : GenHandle :=
            { index := lv.head, generation := (b.arena.slots lv.head).generation }
          { b.reduce direct qty .reduced kNullIndex with
            victim := some (b.arena.atIndex lv.head).orderRef }

def remove (b : OrderBook kPageShift) (ref : Nat) : BookResult kPageShift :=
  let res := b.idFindSlot ref
  if res.handle.index = kNullIndex then b.fail .unknownOrder
  else b.reduce res.handle (b.arena.deref res.handle).qtyRemaining .removed res.slot

/-- Validate, then remove and add. -/
def replace (b : OrderBook kPageShift) (origRef newRef : Nat) (newQty newPrice : Int) :
    BookResult kPageShift :=
  if newQty ≤ 0 then b.fail .badQty
  else if ¬ b.inBand newPrice then b.fail .outOfBand
  else
    let oh := b.idFind origRef
    if oh.index = kNullIndex then b.fail .unknownOrder
    else
      let origSide := (b.arena.deref oh).side
      if ¬ (b.ladderFor origSide).claimable newPrice then b.fail .pageExhausted
      else if origRef ≠ newRef ∧ (b.idFind newRef).index ≠ kNullIndex then b.fail .duplicateRef
      else
        let removed := b.remove origRef
        let added := removed.book.add newRef origSide newQty newPrice
        { tick :=
            { priceTicks := added.tick.priceTicks, qty := added.tick.qty, kind := .replaced
              side := added.tick.side }
          book := added.book
          deltas := removed.deltas ++ added.deltas }

/-! ## The audit -/

/-- The queue walk of `check_fifos`: the verdict so far, the sum, the orders
walked and the last slot. Past `capacity` orders the verdict is false already. -/
def auditWalk (b : OrderBook kPageShift) (s : Side) (tick : Int) :
    Nat → Nat → Bool → Int → Nat → Nat → Bool × Int × Nat × Nat
  | 0, _, ok, sum, walked, prev => (ok, sum, walked, prev)
  | fuel + 1, n, ok, sum, walked, prev =>
      if n = kNullIndex then (ok, sum, walked, prev)
      else
        let o := b.arena.atIndex n
        let ok := ok && (o.side = s && o.priceTicks = tick && 0 < o.qtyRemaining && o.prev = prev)
        let walked := walked + 1
        auditWalk b s tick fuel o.next (ok && walked ≤ b.arena.capacity) (sum + o.qtyRemaining)
          walked n

def checkLevel (b : OrderBook kPageShift) (s : Side) (tick : Int) (lv : Level) : Bool :=
  let r := b.auditWalk s tick (b.arena.capacity + 1) lv.head true 0 0 kNullIndex
  r.1 && r.2.2.2 = lv.tail && r.2.2.1 = lv.count && r.2.1 = lv.qtyTotal && 0 < lv.qtyTotal

def checkFifos (b : OrderBook kPageShift) (s : Side) : Bool :=
  (b.ladderFor s).levels.all (fun lv => b.checkLevel s lv.1 lv.2)

def bruteBest (b : OrderBook kPageShift) (s : Side) : Int :=
  (b.ladderFor s).levels.foldl (fun best lv =>
    match s with
    | .buy => if best = kNoTick ∨ best < lv.1 then lv.1 else best
    | .sell => if best = kNoTick ∨ lv.1 < best then lv.1 else best) kNoTick

/-- The full consistency walk. -/
def audit (b : OrderBook kPageShift) : Bool :=
  b.checkFifos .buy && b.checkFifos .sell
    && b.bestBid = b.bruteBest .buy && b.bestAsk = b.bruteBest .sell
    && (List.range b.tableCap).all (fun i =>
      (b.entries i).ref = 0
        || (b.arena.valid (b.entries i).handle
          && (b.arena.deref (b.entries i).handle).orderRef = (b.entries i).ref))
    && ((List.range b.tableCap).filter (fun i => (b.entries i).ref ≠ 0)).length = b.arena.liveCount

end OrderBook

end Mog
