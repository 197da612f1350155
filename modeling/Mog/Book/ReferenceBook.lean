import Mog.Book.Contracts
import Mog.Lib.OrderedMap

/-!
# The reference book

The naive book of ordered maps that the order book is tested against: a total for each price, and
the order behind each reference. It has no band, no pages and no arena.

It is the oracle of the differential tests, and it is translated like the rest: the maps keep
their entries in the order of their keys, so that the best price is the first entry, and each
call makes its checks in the source's order. Where the order book answers with an error of its
own resources, this book goes on.
-/

namespace Mog

/-- Orders and levels, each in a map. -/
structure ReferenceBook where
  bids : OrderedMap Int Int (· > ·) := .empty
  asks : OrderedMap Int Int (· < ·) := .empty
  /-- The side, price and remaining quantity of each order. -/
  orders : OrderedMap Nat (Side × Int × Int) (· < ·) := .empty

/-- What a call answers, and the book it leaves. -/
structure ReferenceResult where
  tick : BookTick
  book : ReferenceBook
  deltas : List LevelDelta := []

namespace ReferenceBook

variable (r : ReferenceBook)

/-- The highest bid, or the sentinel. -/
def bestBid : Int :=
  match r.bids.first? with
  | some e => e.1
  | none => kNoTick

/-- The lowest ask, or the sentinel. -/
def bestAsk : Int :=
  match r.asks.first? with
  | some e => e.1
  | none => kNoTick

def liveOrders : Nat := r.orders.size

def forEachL2 : List (Side × Int × Int) :=
  r.bids.entries.map (fun e => (.buy, e.1, e.2)) ++ r.asks.entries.map (fun e => (.sell, e.1, e.2))

/-- The total that a side has at a price. -/
def level (s : Side) (p : Int) : Option Int :=
  match s with
  | .buy => r.bids.find? p
  | .sell => r.asks.find? p

/-- Alters one level of one side. -/
def alterLevel (s : Side) (p : Int) (f : Option Int → Option Int) : ReferenceBook :=
  match s with
  | .buy => { r with bids := r.bids.alter p f }
  | .sell => { r with asks := r.asks.alter p f }

/-- A level that comes to zero is erased. -/
def applyLevel (s : Side) (p delta : Int) : ReferenceBook :=
  r.alterLevel s p fun total =>
    total.bind fun t => if t + delta = 0 then none else some (t + delta)

def fail (e : BookError) : ReferenceResult := { tick := tickError e, book := r }

/-- Refuses what the order book refuses for its arguments, and nothing for want of room. -/
def add (ref : Nat) (s : Side) (qty price : Int) : ReferenceResult :=
  if qty ≤ 0 then r.fail .badQty
  else if r.orders.find? ref ≠ none then r.fail .duplicateRef
  else
    let b := r.alterLevel s price fun total => some (total.getD 0 + qty)
    { tick := { priceTicks := price, qty := toU32 qty, kind := .added, side := some s }
      book := { b with orders := b.orders.insert ref (s, price, qty) }
      deltas := [{ priceTicks := price, qtyDelta := toI32 qty, side := s }] }

/-- `o` is what `ref` finds. -/
def reduce (ref : Nat) (o : Side × Int × Int) (qty : Int) : ReferenceResult :=
  let b := r.applyLevel o.1 o.2.1 (-qty)
  { tick :=
      { priceTicks := o.2.1, qty := toU32 qty
        kind := if qty = o.2.2 then .removed else .reduced, side := some o.1 }
    book :=
      { b with
        orders :=
          if qty = o.2.2 then b.orders.erase ref
          else b.orders.insert ref (o.1, o.2.1, o.2.2 - qty) }
    deltas := [{ priceTicks := o.2.1, qtyDelta := toI32 (-qty), side := o.1 }] }

/-- Takes from an order what is there, at most what is asked. -/
def execute (ref : Nat) (qty : Int) : ReferenceResult :=
  if qty ≤ 0 then r.fail .badQty
  else
    match r.orders.find? ref with
    | none => r.fail .unknownOrder
    | some o => if o.2.2 < qty then r.fail .overExecute else r.reduce ref o qty

def cancel (ref : Nat) (qty : Int) : ReferenceResult := r.execute ref qty

def remove (ref : Nat) : ReferenceResult :=
  match r.orders.find? ref with
  | none => r.fail .unknownOrder
  | some o => r.reduce ref o o.2.2

/-- Removes the old order and adds the new one on its side. -/
def replace (origRef newRef : Nat) (newQty newPrice : Int) : ReferenceResult :=
  if newQty ≤ 0 then r.fail .badQty
  else
    match r.orders.find? origRef with
    | none => r.fail .unknownOrder
    | some o =>
        if origRef ≠ newRef ∧ r.orders.find? newRef ≠ none then r.fail .duplicateRef
        else
          let removed := r.reduce origRef o o.2.2
          let added := removed.book.add newRef o.1 newQty newPrice
          { tick := { added.tick with kind := .replaced }
            book := added.book
            deltas := removed.deltas ++ added.deltas }

/-- The messages that change a book, and those that leave it. -/
def apply : Message → ReferenceResult
  | .addOrder m => r.add m.orderRef m.side m.shares m.price
  | .addOrderAttribution m => r.add m.orderRef m.side m.shares m.price
  | .orderExecuted m => r.execute m.orderRef m.executedShares
  | .orderExecutedWithPrice m => r.execute m.orderRef m.executedShares
  | .orderCancel m => r.cancel m.orderRef m.cancelledShares
  | .orderDelete m => r.remove m.orderRef
  | .orderReplace m => r.replace m.originalOrderRef m.newOrderRef m.shares m.price

/-- What the book answers to each message of a feed. -/
def answers : ReferenceBook → List Message → List ReferenceResult
  | _, [] => []
  | r, m :: feed => r.apply m :: answers (r.apply m).book feed

end ReferenceBook

namespace OrderBook

variable {k : Nat}

/-- The levels of a book, the bids first. -/
def forEachL2 (b : OrderBook k) : List (Side × Int × Int) :=
  b.bidLadder.levels.map (fun e => (.buy, e.1, e.2.qtyTotal))
    ++ b.askLadder.levels.map (fun e => (.sell, e.1, e.2.qtyTotal))

/-- What the book answers to each message of a feed. -/
def answers : OrderBook k → List Message → List (BookResult k)
  | _, [] => []
  | b, m :: feed => b.apply m :: answers (b.apply m).book feed

end OrderBook

/-- The limits that the order book has and the reference has not. -/
def BookError.Limit : BookError → Prop
  | .outOfBand | .arenaFull | .pageExhausted | .zeroRef => True
  | _ => False

end Mog
