import Mathlib.Logic.Function.Basic
import Mathlib.Order.Lattice
import Mathlib.Algebra.Order.Group.Int
import Mathlib.Algebra.BigOperators.Group.List.Basic

/-!
# Price-time matching

A reference matcher for one incoming order against one side of a market: it takes the
best price within the order's bound, consumes the head of the queue there, and where
the head is used up and something is in reserve behind it, the next slice joins the
tail of the queue. Prices and references are of any type.

The matcher is a relation; `Run.unique` makes it a function where no two prices are
equally good.
-/

namespace PriceTime

/-- The queues of a side, and what is in reserve behind each reference. -/
@[ext] structure Liquidity (Ref Price : Type) where
  queue : Price → List (Ref × Int)
  reserve : Ref → Int

/-- What the order and the market impose on the matching. -/
structure Rules (Ref Price : Type) where
  /-- The first price has priority over the second, or ties with it. -/
  good : Price → Price → Prop
  within : Price → Prop
  /-- The largest slice shown of a reserve. -/
  display : Ref → Int

/-- One execution against a resting order. -/
structure Match (Ref Price : Type) where
  ref : Ref
  price : Price
  qty : Int
deriving DecidableEq

variable {Ref Price : Type} {r : Rules Ref Price} {m m' m₁ m₂ : Liquidity Ref Price}

/-- The best price within the bound. -/
structure IsTouch (r : Rules Ref Price) (m : Liquidity Ref Price) (p : Price) : Prop where
  occupied : m.queue p ≠ []
  within : r.within p
  best : ∀ p', m.queue p' ≠ [] → r.within p' → r.good p p'

/-- Two touches of one market are the same price. -/
theorem IsTouch.unique (hanti : ∀ p p', r.good p p' → r.good p' p → p = p') {p p' : Price}
    (h : IsTouch r m p) (h' : IsTouch r m p') : p = p' :=
  hanti p p' (h.best p' h'.occupied h'.within) (h'.best p h.occupied h.within)

/-- Nothing is left within the bound. -/
def Exhausted (r : Rules Ref Price) (m : Liquidity Ref Price) : Prop :=
  ∀ p, m.queue p ≠ [] → ¬ r.within p

variable [DecidableEq Ref] [DecidableEq Price]

/-- `take` units off the head of the queue at `p`, an order `ref` of `qty` before `l`. -/
def consume (r : Rules Ref Price) (m : Liquidity Ref Price) (p : Price) (ref : Ref) (qty : Int)
    (l : List (Ref × Int)) (take : Int) : Liquidity Ref Price :=
  if take < qty then { m with queue := Function.update m.queue p ((ref, qty - take) :: l) }
  else if 0 < m.reserve ref then
    { queue := Function.update m.queue p (l ++ [(ref, min (r.display ref) (m.reserve ref))])
      reserve := Function.update m.reserve ref
        (m.reserve ref - min (r.display ref) (m.reserve ref)) }
  else { m with queue := Function.update m.queue p l }

/-- `Run r m rem es m' rem'`: an order of `rem` units executes `es`, in that order, and
leaves the liquidity `m'` and `rem'` units of its own. -/
inductive Run (r : Rules Ref Price) :
    Liquidity Ref Price → Int → List (Match Ref Price) → Liquidity Ref Price → Int → Prop where
  | filled (m : Liquidity Ref Price) : Run r m 0 [] m 0
  | exhausted {m : Liquidity Ref Price} {rem : Int} (hrem : 0 < rem) (h : Exhausted r m) :
      Run r m rem [] m rem
  | hit {m m' : Liquidity Ref Price} {rem rem' qty : Int} {p : Price} {ref : Ref}
      {l : List (Ref × Int)} {es : List (Match Ref Price)} (hrem : 0 < rem) (ht : IsTouch r m p)
      (hq : m.queue p = (ref, qty) :: l)
      (hrun : Run r (consume r m p ref qty l (min rem qty)) (rem - min rem qty) es m' rem') :
      Run r m rem (⟨ref, p, min rem qty⟩ :: es) m' rem'

/-- **The matcher is deterministic** where no two prices are equally good. -/
theorem Run.unique (hanti : ∀ p p', r.good p p' → r.good p' p → p = p') {rem rem₁ rem₂ : Int}
    {es₁ es₂ : List (Match Ref Price)} (h₁ : Run r m rem es₁ m₁ rem₁)
    (h₂ : Run r m rem es₂ m₂ rem₂) : es₁ = es₂ ∧ m₁ = m₂ ∧ rem₁ = rem₂ := by
  induction h₁ generalizing es₂ with
  | filled m =>
      cases h₂ with
      | filled => exact ⟨rfl, rfl, rfl⟩
      | exhausted hrem => exact absurd hrem (Int.lt_irrefl 0)
      | hit hrem => exact absurd hrem (Int.lt_irrefl 0)
  | exhausted hrem hex =>
      cases h₂ with
      | filled => exact absurd hrem (Int.lt_irrefl 0)
      | exhausted => exact ⟨rfl, rfl, rfl⟩
      | hit _ ht => exact absurd ht.within (hex _ ht.occupied)
  | hit hrem ht hq _ ih =>
      cases h₂ with
      | filled => exact absurd hrem (Int.lt_irrefl 0)
      | exhausted _ hex => exact absurd ht.within (hex _ ht.occupied)
      | hit _ ht' hq' hrun' =>
          -- both take the same head at the same price
          cases ht.unique hanti ht'
          cases hq.symm.trans hq'
          obtain ⟨hes, hm, hr⟩ := ih hrun'
          exact ⟨by rw [hes], hm, hr⟩

end PriceTime
