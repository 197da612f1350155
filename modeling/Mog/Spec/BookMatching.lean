import Mathlib.Algebra.BigOperators.Group.List.Basic
import Mathlib.Data.Finset.Max
import Mathlib.Data.List.Nodup
import Mathlib.Logic.Relation
import Mathlib.Order.Interval.Set.Defs
import Mog.Book.Types

/-!
# The matching specification

The bounded TLA+ model of the matching semantics, without its bounds: the first-in first-out
queues of every side and price, and beside them the totals that each action updates by its own
arithmetic. References are of any type, prices any finite set of ticks but zero, which stands
for an empty side, and the largest quantity is any number.

An action is a relation between two states, with its guard, as in the specification: `Rest`,
`Cancel`, `Deplete` and `MarketTake`. The invariants are those that the model names, from the
shape of the queues to the totals and the touch. Nothing of the order book's implementation
appears here.
-/

namespace Mog

namespace BookMatching

/-- A resting order. -/
structure Entry (Ref : Type) where
  ref : Ref
  qty : Int
deriving DecidableEq, Repr

/-- `SumSeq`: the arms of the source cover the lengths that three references can give. -/
def sumSeq {Ref : Type} (seq : List (Entry Ref)) : Int := (seq.map Entry.qty).sum

/-- `RemoveAt`, positions counted from one. -/
def removeAt {α : Type} (seq : List α) (i : Nat) : List α :=
  if i = 1 then seq.tail
  else if i = seq.length then seq.take (seq.length - 1)
  else seq.take (i - 1) ++ seq.drop i

/-- `[f EXCEPT ![s][p] = x]`. -/
def except {α : Type} (f : Side → Int → α) (s : Side) (p : Int) (x : α) : Side → Int → α :=
  fun s' p' => if s' = s ∧ p' = p then x else f s' p'

end BookMatching

/-- The queues, and what the levels are said to hold. -/
structure BookMatching (Ref : Type) where
  book : Side → Int → List (BookMatching.Entry Ref)
  agg : Side → Int → Int

namespace BookMatching

variable {Ref : Type} (Refs : Set Ref) (Prices : Finset Int) (MaxQty : Int) (m : BookMatching Ref)

def init : BookMatching Ref := { book := fun _ _ => [], agg := fun _ _ => 0 }

/-- The reference rests nowhere. -/
def refUnused (r : Ref) : Prop := ∀ s, ∀ p ∈ Prices, ∀ e ∈ m.book s p, e.ref ≠ r

/-- The prices of a side at which orders rest. -/
def occupied (s : Side) : Finset Int := Prices.filter fun x => m.book s x ≠ []

/-- The highest occupied price of the bids, or zero. -/
def bestBuy : Int :=
  if h : (m.occupied Prices .buy).Nonempty then (m.occupied Prices .buy).max' h else 0

/-- The lowest of the asks, or zero. -/
def bestAsk : Int :=
  if h : (m.occupied Prices .sell).Nonempty then (m.occupied Prices .sell).min' h else 0

/-- An order at the price would trade. -/
def wouldCross : Side → Int → Prop
  | .buy, p => m.bestAsk Prices ≠ 0 ∧ m.bestAsk Prices ≤ p
  | .sell, p => m.bestBuy Prices ≠ 0 ∧ p ≤ m.bestBuy Prices

/-! ## The actions -/

/-- Queues up an order. -/
def rest (ref : Ref) (s : Side) (p q : Int) : BookMatching Ref where
  book := except m.book s p (m.book s p ++ [⟨ref, q⟩])
  agg := except m.agg s p (m.agg s p + q)

/-- `CancelIdx`, of the entry that stands there. -/
def cancelIdx (s : Side) (p : Int) (i : Nat) (e : Entry Ref) : BookMatching Ref where
  book := except m.book s p (removeAt (m.book s p) i)
  agg := except m.agg s p (m.agg s p - e.qty)

/-- `Deplete`, of the entry at the head and those behind it. -/
def deplete (s : Side) (p q : Int) (h : Entry Ref) (tail : List (Entry Ref)) :
    BookMatching Ref :=
  let take := min q h.qty
  { book := except m.book s p (if take = h.qty then tail else ⟨h.ref, h.qty - take⟩ :: tail)
    agg := except m.agg s p (m.agg s p - take) }

/-- `TakeLevel`, of the level on the other side of `s`. -/
def takeLevel (s : Side) (p : Int) : BookMatching Ref where
  book := except m.book s.opp p []
  agg := except m.agg s.opp p 0

/-- A price that an order of side `s` reaches within its bound. -/
def through : Side → Int → Int → Prop
  | .buy, bound, x => x ≤ bound
  | .sell, bound, x => bound ≤ x

/-- `Next`. -/
inductive Next : BookMatching Ref → BookMatching Ref → Prop where
  | rest (m : BookMatching Ref) (ref : Ref) (s : Side) (p q : Int) (href : ref ∈ Refs)
      (hp : p ∈ Prices) (hq : 1 ≤ q ∧ q ≤ MaxQty) (hcross : ¬ m.wouldCross Prices s p)
      (hunused : m.refUnused Prices ref) : Next m (m.rest ref s p q)
  | cancel (m : BookMatching Ref) (s : Side) (p : Int) (i : Nat) (e : Entry Ref)
      (href : e.ref ∈ Refs) (hp : p ∈ Prices) (hi : 1 ≤ i) (he : (m.book s p)[i - 1]? = some e) :
      Next m (m.cancelIdx s p i e)
  | deplete (m : BookMatching Ref) (s : Side) (p q : Int) (h : Entry Ref)
      (tail : List (Entry Ref)) (hp : p ∈ Prices) (hq : 1 ≤ q ∧ q ≤ MaxQty)
      (hhead : m.book s p = h :: tail) : Next m (m.deplete s p q h tail)
  | marketTake (m : BookMatching Ref) (s : Side) (bound p : Int) (hbound : bound ∈ Prices)
      (hp : p ∈ Prices) (hne : m.book s.opp p ≠ []) (hthrough : through s bound p) :
      Next m (m.takeLevel s p)

/-- The states of `Spec`. -/
def Reachable : BookMatching Ref → Prop :=
  Relation.ReflTransGen (Next Refs Prices MaxQty) init

/-! ## The invariants -/

def TypeOK : Prop :=
  ∀ s, ∀ p ∈ Prices, ∀ e ∈ m.book s p, e.ref ∈ Refs ∧ 1 ≤ e.qty ∧ e.qty ≤ MaxQty

def Conservation : Prop := ∀ s, ∀ p ∈ Prices, m.agg s p = sumSeq (m.book s p)

def NoCrossedBook : Prop :=
  ¬ (m.bestBuy Prices ≠ 0 ∧ m.bestAsk Prices ≠ 0 ∧ m.bestAsk Prices ≤ m.bestBuy Prices)

def RefUnique : Prop :=
  ∀ s₁, ∀ p₁ ∈ Prices, ∀ i e₁, (m.book s₁ p₁)[i]? = some e₁ →
    ∀ s₂, ∀ p₂ ∈ Prices, ∀ j : Nat, ∀ e₂, (m.book s₂ p₂)[j]? = some e₂ →
      s₁ ≠ s₂ ∨ p₁ ≠ p₂ ∨ i ≠ j → e₁.ref ≠ e₂.ref

def QtyPositive : Prop := ∀ s, ∀ p ∈ Prices, 0 ≤ m.agg s p

/-- What the specification claims of every state. -/
structure Inv : Prop where
  typeOK : m.TypeOK Refs Prices MaxQty
  conservation : m.Conservation Prices
  noCrossedBook : m.NoCrossedBook Prices
  refUnique : m.RefUnique Prices
  qtyPositive : m.QtyPositive Prices

end BookMatching

end Mog
