import Mog.Book.Contracts

/-!
# What execute_front may be asked for

Its comment bounds the quantity by the total of the level, but it is all taken from the order
at the front. The contract is met for what that order has, and for nothing beyond.

Both directions start from a book that a run of calls has reached, so that its invariant names
the order at the front and says that its remainder is positive. Within the contract the call is
the reduction of that order; beyond it the precondition of the reduction is what fails.
-/

namespace Mog

namespace OrderBook

variable {k : Nat} {b : OrderBook k} {q : Side → Int → List Nat}

/-- The checks of `execute_front`; the id table is asked for the head again, and must agree. -/
def ExecuteFrontOk (b : OrderBook k) (s : Side) (price qty : Int) : Prop :=
  0 < qty → ∀ lv, (b.ladderFor s).peek price = some lv → lv.head ≠ kNullIndex →
    let direct : GenHandle := { index := lv.head, generation := (b.arena.slots lv.head).generation }
    b.arena.AtIndexOk lv.head ∧ IdFindSlotOk (b.arena.atIndex lv.head).orderRef
      ∧ (b.idFindSlot (b.arena.atIndex lv.head).orderRef).handle = direct
      ∧ b.arena.HandleOk direct ∧ b.ReduceOk direct qty kNullIndex

/-- **The contract of `execute_front`**: it trips no check, succeeds, names the order at the front,
and takes the quantity from the level and no order below zero. -/
structure FrontContract (b : OrderBook k) (s : Side) (price qty : Int) : Prop where
  checks : b.ExecuteFrontOk s price qty
  succeeds : (b.executeFront s price qty).tick.ok
  victim : (b.executeFront s price qty).victim = some (b.frontRef s price)
  lowers : (b.executeFront s price qty).book.qtyAt s price = b.qtyAt s price - qty
  nonneg : ∀ i, (b.executeFront s price qty).book.live i →
    0 ≤ (b.executeFront s price qty).book.rem i
  audit : (b.executeFront s price qty).book.audit = true

/-! ## The contract -/

/-- A level with a quantity has an order at its front. -/
theorem front_of_qtyAt (h : BookInv b q) {s : Side} {price : Int} (hqty : 0 < b.qtyAt s price) :
    ∃ i l lv, q s price = i :: l ∧ (b.ladderFor s).peek price = some lv ∧ lv.head = i
      ∧ i ≠ kNullIndex ∧ b.live i ∧ b.frontRef s price = (b.order i).orderRef := by
  rcases peek_head h (s := s) (p := price) with ⟨hnil, -⟩ | ⟨i, l, lv, hq, hpeek, hhead, hnull⟩
  · rw [h.qtyAt_eq, hnil] at hqty
    exact absurd hqty (Int.lt_irrefl 0)
  · have hmem : i ∈ q s price := by
      rw [hq]
      exact List.mem_cons_self
    refine ⟨i, l, lv, hq, hpeek, hhead, hnull, ((h.mem s price i).mp hmem).1, ?_⟩
    rw [h.frontRef_eq, hq]

/-- **The contract is met** for what the order at the front has. -/
theorem frontContract_of_le (h : BookInv b q) {s : Side} {price qty : Int} (hpos : 0 < qty)
    (hqty : qty ≤ b.qtyAt s price) (hle : qty ≤ b.remainingOf (b.frontRef s price)) :
    b.FrontContract s price qty := by
  obtain ⟨i, l, lv, hq, hpeek, hhead, hnull, hi, hfront⟩ := front_of_qtyAt h (Int.lt_of_lt_of_le hpos hqty)
  rw [hfront, h.remainingOf_live hi] at hle
  have hmem : i ∈ q s price := by
    rw [hq]
    exact List.mem_cons_self
  obtain ⟨-, hside, hprice⟩ := (h.mem s price i).mp hmem
  obtain ⟨hred, htick, -, hvictim⟩ := executeFront_spec h hq hpos hle
  refine ⟨?_, ?_, ?_, ?_, fun j hj => ?_, hred.inv.repInv.audit⟩
  · intro _ lv' hpeek' _
    obtain rfl := Option.some.inj (hpeek.symm.trans hpeek')
    subst hhead
    exact ⟨h.lt_capacity hi, h.ref _ hi, (h.idFindSlot_live hi).1,
      ⟨h.lt_capacity hi, hi, rfl⟩, reduceOk h hi hpos hle _ rfl (Or.inl rfl)⟩
  · rw [htick]
    unfold BookTick.ok
    dsimp only
    split <;> decide
  · rw [hvictim, hfront]
  · rw [hred.qtyAt h hi, if_pos ⟨hside.symm, hprice.symm⟩]
  · exact Int.le_of_lt (hred.inv.pos j hj)

/-- **Beyond it** the precondition of `reduce` fails. -/
theorem le_of_frontContract (h : BookInv b q) {s : Side} {price qty : Int} (hpos : 0 < qty)
    (hqty : qty ≤ b.qtyAt s price) (hc : b.FrontContract s price qty) :
    qty ≤ b.remainingOf (b.frontRef s price) := by
  obtain ⟨i, l, lv, hq, hpeek, hhead, hnull, hi, hfront⟩ := front_of_qtyAt h (Int.lt_of_lt_of_le hpos hqty)
  subst hhead
  obtain ⟨-, -, -, -, hreduce⟩ := hc.checks hpos lv hpeek hnull
  rw [hfront, h.remainingOf_live hi]
  exact hreduce.pre.2

/-- Two bids of five at one price. -/
def twoBids : List BookCall := [.add 1 .buy 5 3, .add 2 .buy 5 3]

end OrderBook

end Mog
