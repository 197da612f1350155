import Mathlib.Data.Finset.Card
import Mathlib.Data.Finset.Insert
import Mog.Book.OrderBook

/-!
# The price-time book, abstractly

What the order book is for, said without slots, tables, ladders or bitmaps: each
side and price has a queue of resting orders, oldest first, and a call looks its
order up by searching the queues. Two finite resources of the implementation show
through: the number of orders that may rest at once, and the number of price pages
a side may ever touch.

The calls check their arguments in the order the implementation does.

Everything is executable: a queue is a list of references with their quantities, the calls are
functions on the whole book, and the two resources are numbers that the calls compare with. The
order book is shown to refine this one in its own file, so a reader who wants to know what a
call means can stop here.
-/

namespace Mog

/-- A resting order. -/
structure Resting where
  ref : Nat
  remaining : Int
deriving DecidableEq, Repr

structure FifoBook where
  queue : Side → Int → List Resting := fun _ _ => []
  /-- The price pages touched so far. -/
  touched : Side → Finset Nat := fun _ => ∅

/-- What a call that succeeds reports. -/
structure FifoTick where
  price : Int
  qty : Int
  kind : TickKind
  side : Side
deriving DecidableEq, Repr

structure FifoResult where
  outcome : Except BookError FifoTick
  book : FifoBook
  victim : Option Nat := none

/-- A call of the book's interface. -/
inductive BookCall where
  | add (ref : Nat) (side : Side) (qty price : Int)
  | execute (ref : Nat) (qty : Int)
  | cancel (ref : Nat) (qty : Int)
  | executeFront (side : Side) (price qty : Int)
  | remove (ref : Nat)
  | replace (origRef newRef : Nat) (newQty newPrice : Int)
deriving DecidableEq, Repr

/-- The total of a queue. -/
def totalOf (l : List Resting) : Int := (l.map Resting.remaining).sum

/-- A queue after its order `ref` has lost `qty`: the order leaves when nothing remains. -/
def takeFrom (ref : Nat) (qty : Int) : List Resting → List Resting
  | [] => []
  | r :: l =>
      if r.ref = ref then
        if r.remaining = qty then l else { r with remaining := r.remaining - qty } :: l
      else r :: takeFrom ref qty l

namespace FifoBook

variable (kPageShift : Nat) (cfg : BookConfig) (m : FifoBook)

/-- The prices of the band, in ascending order. -/
def prices : List Int :=
  (List.range (cfg.ladder.hiTick - cfg.ladder.loTick).toNat).map
    (fun n : Nat => cfg.ladder.loTick + (n : Int))

/-- Every resting order with its side and price. -/
def orders : List (Side × Int × Resting) :=
  [Side.buy, Side.sell].flatMap fun s =>
    (prices cfg).flatMap fun p => (m.queue s p).map fun r => (s, p, r)

def liveOrders : Nat := (m.orders cfg).length

def find (ref : Nat) : Option (Side × Int × Resting) :=
  (m.orders cfg).find? (fun o => o.2.2.ref = ref)

def remainingOf (ref : Nat) : Int :=
  match m.find cfg ref with
  | some o => o.2.2.remaining
  | none => 0

def sideOf (ref : Nat) : Option Side := (m.find cfg ref).map (fun o => o.1)

def frontRef (s : Side) (p : Int) : Nat :=
  match m.queue s p with
  | [] => 0
  | r :: _ => r.ref

/-- The nearest price above `t` at which orders rest. -/
def nextAbove (s : Side) (t : Int) : Int :=
  ((prices cfg).find? (fun p => t < p ∧ m.queue s p ≠ [])).getD kNoTick

/-- The nearest price below `t` at which orders rest. -/
def nextBelow (s : Side) (t : Int) : Int :=
  ((prices cfg).reverse.find? (fun p => p < t ∧ m.queue s p ≠ [])).getD kNoTick

/-- The best price: the highest bid, the lowest ask. -/
def best : Side → Int
  | .buy => m.nextBelow cfg .buy cfg.ladder.hiTick
  | .sell => m.nextAbove cfg .sell (cfg.ladder.loTick - 1)

def inBand (p : Int) : Prop := cfg.ladder.loTick ≤ p ∧ p < cfg.ladder.hiTick

instance (p : Int) : Decidable (inBand cfg p) := inferInstanceAs (Decidable (_ ∧ _))

/-- The price page of a tick. -/
def pageOf (p : Int) : Nat := (p - cfg.ladder.loTick).toNat / kPageTicks kPageShift

/-- The page of `p` has been touched on side `s`, or another page may be. -/
def hasPage (s : Side) (p : Int) : Prop :=
  pageOf kPageShift cfg p ∈ m.touched s ∨ (m.touched s).card < cfg.ladder.pagePool

instance (s : Side) (p : Int) : Decidable (m.hasPage kPageShift cfg s p) :=
  inferInstanceAs (Decidable (_ ∨ _))

def setLevel (s : Side) (p : Int) (l : List Resting) : FifoBook :=
  { m with queue := fun s' p' => if s' = s ∧ p' = p then l else m.queue s' p' }

/-- An order joins the tail of its queue. -/
def pushed (s : Side) (p : Int) (r : Resting) : FifoBook :=
  { m.setLevel s p (m.queue s p ++ [r]) with
    touched := fun t => if t = s then insert (pageOf kPageShift cfg p) (m.touched t) else m.touched t }

def reject (e : BookError) : FifoResult := { outcome := .error e, book := m }

def add (ref : Nat) (s : Side) (qty p : Int) : FifoResult :=
  if ref = 0 then m.reject .zeroRef
  else if qty ≤ 0 then m.reject .badQty
  else if ¬ inBand cfg p then m.reject .outOfBand
  else if ¬ m.hasPage kPageShift cfg s p then m.reject .pageExhausted
  else if m.find cfg ref ≠ none then m.reject .duplicateRef
  else if cfg.arenaCapacity ≤ m.liveOrders cfg then m.reject .arenaFull
  else
    { outcome := .ok { price := p, qty, kind := .added, side := s }
      book := m.pushed kPageShift cfg s p { ref, remaining := qty } }

/-- The order `o` loses `qty`. -/
def reduced (o : Side × Int × Resting) (qty : Int) (kind : TickKind) : FifoResult :=
  { outcome := .ok
      { price := o.2.1, qty, kind := if o.2.2.remaining = qty then .removed else kind, side := o.1 }
    book := m.setLevel o.1 o.2.1 (takeFrom o.2.2.ref qty (m.queue o.1 o.2.1)) }

def execute (ref : Nat) (qty : Int) : FifoResult :=
  if qty ≤ 0 then m.reject .badQty
  else
    match m.find cfg ref with
    | none => m.reject .unknownOrder
    | some o =>
        if o.2.2.remaining < qty then m.reject .overExecute else m.reduced o qty .reduced

def executeFront (s : Side) (p qty : Int) : FifoResult :=
  if qty ≤ 0 then m.reject .badQty
  else
    match m.queue s p with
    | [] => m.reject .emptyLevel
    | r :: _ => { m.reduced (s, p, r) qty .reduced with victim := some r.ref }

def remove (ref : Nat) : FifoResult :=
  match m.find cfg ref with
  | none => m.reject .unknownOrder
  | some o => m.reduced o o.2.2.remaining .removed

def replace (origRef newRef : Nat) (qty p : Int) : FifoResult :=
  if qty ≤ 0 then m.reject .badQty
  else if ¬ inBand cfg p then m.reject .outOfBand
  else
    match m.find cfg origRef with
    | none => m.reject .unknownOrder
    | some o =>
        if ¬ m.hasPage kPageShift cfg o.1 p then m.reject .pageExhausted
        else if origRef ≠ newRef ∧ m.find cfg newRef ≠ none then m.reject .duplicateRef
        else
          { outcome := .ok { price := p, qty, kind := .replaced, side := o.1 }
            book := (m.reduced o o.2.2.remaining .removed).book.pushed kPageShift cfg o.1 p
              { ref := newRef, remaining := qty } }

/-- One call. -/
def call : BookCall → FifoResult
  | .add ref s qty p => m.add kPageShift cfg ref s qty p
  | .execute ref qty => m.execute cfg ref qty
  | .cancel ref qty => m.execute cfg ref qty
  | .executeFront s p qty => m.executeFront s p qty
  | .remove ref => m.remove cfg ref
  | .replace origRef newRef qty p => m.replace kPageShift cfg origRef newRef qty p

/-- The results of a sequence of calls. -/
def run : FifoBook → List BookCall → List FifoResult
  | _, [] => []
  | m, c :: cs => m.call kPageShift cfg c :: run (m.call kPageShift cfg c).book cs

/-- What a call's arguments must satisfy: references are not zero (`add` rejects that
itself), quantities fit 32 bits, and `execute_front` takes no more than the head of the
queue has. -/
def Legal : BookCall → Prop
  | .add _ _ qty _ => qty < 2 ^ 32
  | .execute ref qty => ref ≠ 0 ∧ qty < 2 ^ 32
  | .cancel ref qty => ref ≠ 0 ∧ qty < 2 ^ 32
  | .executeFront s p qty => ∀ r l, m.queue s p = r :: l → qty ≤ r.remaining
  | .remove ref => ref ≠ 0
  | .replace origRef newRef qty _ => origRef ≠ 0 ∧ newRef ≠ 0 ∧ qty < 2 ^ 32

/-- Every call of the sequence is legal where it is made. -/
def LegalRun : FifoBook → List BookCall → Prop
  | _, [] => True
  | m, c :: cs => m.Legal c ∧ LegalRun (m.call kPageShift cfg c).book cs

end FifoBook

namespace OrderBook

variable {kPageShift : Nat}

/-- One call. -/
def call (b : OrderBook kPageShift) : BookCall → BookResult kPageShift
  | .add ref s qty p => b.add ref s qty p
  | .execute ref qty => b.execute ref qty
  | .cancel ref qty => b.cancel ref qty
  | .executeFront s p qty => b.executeFront s p qty
  | .remove ref => b.remove ref
  | .replace origRef newRef qty p => b.replace origRef newRef qty p

/-- The results of a sequence of calls. -/
def run : OrderBook kPageShift → List BookCall → List (BookResult kPageShift)
  | _, [] => []
  | b, c :: cs => b.call c :: run (b.call c).book cs

end OrderBook

end Mog
