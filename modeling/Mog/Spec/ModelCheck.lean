import Mog.Book.Audit
import Mog.Spec.BookMatching

/-!
# The model check of the order book

The driver that takes the order book through the four actions of the specification: the actions
it offers in a state, what each does to the book, and the invariants it checks in every state it
comes to. Its references, prices and largest quantity are parameters here.

The driver is a search over books: from each it tries the offered actions, checks what it comes
to, and stores what it has not seen. Here what it can come to is a relation, so that no bound on
the search and no order of it matters. The check is the conjunction that the driver evaluates.
-/

namespace Mog

namespace ModelCheck

/-- What the search ranges over. -/
structure Bounds where
  kRefs : List Nat
  kPrices : List Int
  kMaxQty : Nat

/-- An action that the driver offers. -/
inductive Action where
  | rest (ref : Nat) (side : Side) (price qty : Int)
  | cancel (ref : Nat)
  | deplete (side : Side) (price qty : Int)
  | take (side : Side) (price : Int)
deriving DecidableEq, Repr

variable {k : Nat} (B : Bounds) (b : OrderBook k)

def wouldCross (s : Side) (p : Int) : Prop :=
  match s with
  | .buy => b.best .sell ≠ kNoTick ∧ b.best .sell ≤ p
  | .sell => b.best .buy ≠ kNoTick ∧ p ≤ b.best .buy

instance (s : Side) (p : Int) : Decidable (wouldCross b s p) := by
  cases s <;> exact inferInstanceAs (Decidable (_ ∧ _))

/-- The price of `a` reaches `p`. -/
def through (s : Side) (bound p : Int) : Prop :=
  match s with
  | .buy => p ≤ bound
  | .sell => bound ≤ p

instance (s : Side) (bound p : Int) : Decidable (through s bound p) := by
  cases s <;> exact inferInstanceAs (Decidable (_ ≤ _))

/-- The reference rests in the book. -/
def refUsed (ref : Nat) : Prop := (b.findHandle ref).index ≠ kNullIndex

instance (ref : Nat) : Decidable (refUsed b ref) := inferInstanceAs (Decidable (_ ≠ _))

/-- The loop of `deplete`. Every round takes a unit, so `left` rounds are enough. -/
def depleteLoop (s : Side) (p : Int) : Nat → Int → OrderBook k → OrderBook k
  | 0, _, b => b
  | fuel + 1, left, b =>
      if left ≤ 0 then b
      else
        let head := b.frontRef s p
        if head = 0 then b
        else
          let take := min left (b.remainingOf head)
          depleteLoop s p fuel (left - take) (b.executeFront s p take).book

/-- The loop of `take` at one price, head by head. -/
def clearLevel (s : Side) (p : Int) : Nat → OrderBook k → OrderBook k
  | 0, b => b
  | fuel + 1, b =>
      if 0 < b.qtyAt s p then
        clearLevel s p fuel (b.executeFront s p (b.remainingOf (b.frontRef s p))).book
      else b

/-- What the driver does for an action. -/
def apply : Action → OrderBook k
  | .rest ref s p q => (b.add ref s q p).book
  | .cancel ref => (b.remove ref).book
  | .deplete s p q => depleteLoop s p q.toNat q b
  | .take s bound =>
      B.kPrices.foldl
        (fun b p => if through s bound p then clearLevel s.opp p (b.qtyAt s.opp p).toNat b else b) b

def kSides : List Side := [.buy, .sell]

def quantities : List Int := (List.range B.kMaxQty).map fun n : Nat => (n : Int) + 1

/-- The actions that are tried from a book. -/
def successors : List Action :=
  (B.kRefs.flatMap fun ref => kSides.flatMap fun s => B.kPrices.flatMap fun p =>
    (quantities B).filterMap fun q =>
      if refUsed b ref ∨ wouldCross b s p then none else some (.rest ref s p q))
  ++ (B.kRefs.filterMap fun ref => if refUsed b ref then some (.cancel ref) else none)
  ++ (kSides.flatMap fun s => B.kPrices.flatMap fun p => (quantities B).filterMap fun q =>
    if 0 < b.qtyAt s p then some (.deplete s p q) else none)
  ++ (kSides.flatMap fun s => B.kPrices.filterMap fun bound =>
    if ∃ p ∈ B.kPrices, through s bound p ∧ 0 < b.qtyAt s.opp p then some (.take s bound) else none)

/-- The orders that `for_each_in_level` shows at the prices of the check. -/
def shownOrders : List (Nat × Int) :=
  kSides.flatMap fun s => B.kPrices.flatMap fun p =>
    (b.levelSlots s p).map fun i => ((b.order i).orderRef, b.rem i)

/-- The audit, no cross, totals that add up, quantities above zero, no reference twice. -/
def checkInvariants : Bool :=
  b.audit
  && !decide (b.best .buy ≠ kNoTick ∧ b.best .sell ≠ kNoTick ∧ b.best .sell ≤ b.best .buy)
  && (kSides.all fun s => B.kPrices.all fun p =>
    decide (((b.levelSlots s p).map b.rem).sum = b.qtyAt s p))
  && (shownOrders B b).all (fun o => decide (0 < o.2))
  && decide ((shownOrders B b).map Prod.fst).Nodup

/-- The books that the search comes to. -/
inductive Explored (cfg : BookConfig) : OrderBook k → Prop where
  | init : Explored cfg (OrderBook.init cfg)
  | step {b : OrderBook k} (h : Explored cfg b) (a : Action) (ha : a ∈ successors B b) :
      Explored cfg (apply B b a)

/-- What the book shows, as a state of the specification. -/
def shown : BookMatching Nat where
  book := fun s p => (b.levelSlots s p).map fun i => ⟨(b.order i).orderRef, b.rem i⟩
  agg := b.qtyAt

/-- Bounds that fit the book: references and prices are not the sentinels, prices are listed
once, and quantities fit the wire. -/
structure Bounds.Ok (B : Bounds) : Prop where
  refs : 0 ∉ B.kRefs
  prices : (0 : Int) ∉ B.kPrices
  distinct : B.kPrices.Nodup
  qty : B.kMaxQty < 2 ^ 32

end ModelCheck

end Mog
