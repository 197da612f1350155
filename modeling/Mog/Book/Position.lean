import Mog.Book.Ops
import Mog.Lib.QueueSum

/-!
# Queue positions, and what a call can do

`b.ahead i` is the quantity that stands before slot `i` in its level's queue. An order
that comes to rest changes no position; an order that loses quantity moves up what
stands behind it. The second part says once what `add`, `remove` and `replace` can do:
either nothing stands against the call and its effect is one of the two above, or the
book is left as it was.

Positions are weights ahead in a queue, so the first part is that library read at the book's
queues. The case lemmas of the second part carry all that a caller needs: the tick, the effect,
and which orders keep their slot, their reference and their position.
-/

namespace Mog

open QueueSum

namespace OrderBook

variable {k : Nat} {b b' : OrderBook k} {q : Side → Int → List Nat}

/-- The queue slot `i` stands in. -/
def queueOf (b : OrderBook k) (i : Nat) : List Nat :=
  b.levelSlots (b.order i).side (b.order i).priceTicks

/-- The quantity queued before slot `i`. -/
def ahead (b : OrderBook k) (i : Nat) : Int := QueueSum.ahead b.rem i (b.queueOf i)

/-- The book's own queues. -/
theorem BookInv.queues (h : BookInv b q) : q = b.levelSlots :=
  funext fun s => funext fun p => (h.levelSlots_eq s p).symm

theorem BookInv.own (h : BookInv b q) : BookInv b b.levelSlots := by rw [← h.queues]; exact h

/-- The book satisfies its invariant. -/
def Valid (b : OrderBook k) : Prop := BookInv b b.levelSlots

theorem BookInv.valid (h : BookInv b q) : b.Valid := h.own

theorem Valid.mem_queueOf (h : b.Valid) {i : Nat} (hi : b.live i) : i ∈ b.queueOf i :=
  (h.mem _ _ i).mpr ⟨hi, rfl, rfl⟩

theorem Valid.ahead_nonneg (h : b.Valid) (i : Nat) : 0 ≤ b.ahead i :=
  QueueSum.ahead_nonneg (fun _ hj => Int.le_of_lt (h.rem_pos hj))

/-- The two ends of a level's quantity: what is ahead, the order itself, and the total. -/
theorem Valid.ahead_add_rem_le (h : b.Valid) {i : Nat} (hi : b.live i) :
    b.ahead i + b.rem i ≤ b.qtyAt (b.order i).side (b.order i).priceTicks := by
  rw [h.qtyAt_eq]
  exact ahead_add_le (fun j hj => Int.le_of_lt (h.rem_pos hj)) (h.mem_queueOf hi)

theorem Valid.head_ahead (h : b.Valid) {s : Side} {p : Int} {i : Nat} {l : List Nat}
    (hq : b.levelSlots s p = i :: l) : b.ahead i = 0 := by
  obtain ⟨_, rfl, rfl⟩ := (h.mem s p i).mp (by rw [hq]; simp)
  rw [ahead, queueOf, hq, ahead_cons_self]

/-! ## An order comes to rest -/

namespace Rested

variable {i : Nat} {v : OrderView}

theorem valid (h : Rested b q b' i v) : b'.Valid := h.inv.own

theorem rem_self (h : Rested b q b' i v) : b'.rem i = v.qtyRemaining :=
  congrArg OrderView.qtyRemaining h.self

theorem side_self (h : Rested b q b' i v) : (b'.order i).side = v.side :=
  congrArg OrderView.side h.self

theorem price_self (h : Rested b q b' i v) : (b'.order i).priceTicks = v.priceTicks :=
  congrArg OrderView.priceTicks h.self

theorem rem_other (h : Rested b q b' i v) {j : Nat} (hj : j ≠ i) : b'.rem j = b.rem j :=
  (Order.view_eq (h.frame j hj)).2.1

theorem levelSlots (h : Rested b q b' i v) (hb : BookInv b q) (s : Side) (p : Int) :
    b'.levelSlots s p = if s = v.side ∧ p = v.priceTicks then b.levelSlots s p ++ [i]
      else b.levelSlots s p := by
  rw [← h.inv.queues, ← hb.queues, setQueue]
  split
  · rename_i hsp; rw [hsp.1, hsp.2]
  · rfl

/-- What stands before an order that was there already does not change. -/
theorem ahead_other (h : Rested b q b' i v) (hb : BookInv b q) {j : Nat} (hj : b.live j) :
    b'.ahead j = b.ahead j := by
  have hji : j ≠ i := fun he => h.fresh (he ▸ hj)
  obtain ⟨_, _, hp, hs⟩ := Order.view_eq (h.frame j hji)
  have hmem : j ∈ b.queueOf j := hb.own.valid.mem_queueOf hj
  have hcongr : QueueSum.ahead b'.rem j (b.queueOf j) = QueueSum.ahead b.rem j (b.queueOf j) := by
    refine ahead_congr (fun x hx => h.rem_other (fun he => h.fresh ?_))
    rw [← he]
    exact ((hb.own.mem _ _ x).mp (mem_of_mem_before hx)).1
  rw [ahead, queueOf, hs, hp, h.levelSlots hb]
  split
  · show QueueSum.ahead b'.rem j (b.queueOf j ++ [i]) = _
    rw [ahead_append_of_mem hmem]
    exact hcongr
  · exact hcongr

/-- The whole level stands before the order that has joined it. -/
theorem ahead_self (h : Rested b q b' i v) (hb : BookInv b q) :
    b'.ahead i = b.qtyAt v.side v.priceTicks := by
  have hni : i ∉ b.levelSlots v.side v.priceTicks := fun hm =>
    h.fresh ((hb.own.mem _ _ i).mp hm).1
  rw [ahead, queueOf, h.side_self, h.price_self, h.levelSlots hb, if_pos ⟨rfl, rfl⟩,
    ahead_snoc hni, hb.own.qtyAt_eq]
  refine congrArg List.sum (List.map_congr_left (fun x hx => h.rem_other (fun he => hni ?_)))
  rw [← he]
  exact hx

theorem qtyAt (h : Rested b q b' i v) (hb : BookInv b q) (s : Side) (p : Int) :
    b'.qtyAt s p = b.qtyAt s p
      + if s = v.side ∧ p = v.priceTicks then v.qtyRemaining else 0 := by
  have hsum : ((b.levelSlots s p).map b'.rem).sum = ((b.levelSlots s p).map b.rem).sum := by
    refine congrArg List.sum (List.map_congr_left (fun x hx => h.rem_other (fun he => h.fresh ?_)))
    rw [← he]
    exact ((hb.own.mem _ _ x).mp hx).1
  rw [h.valid.qtyAt_eq, hb.own.qtyAt_eq, h.levelSlots hb]
  split
  · rw [List.map_append, List.sum_append, hsum]
    simp [h.rem_self]
  · rw [hsum, Int.add_zero]

end Rested

/-! ## An order loses quantity -/

namespace Reduced

variable {i : Nat} {qty : Int}

theorem valid (h : Reduced b q b' i qty) : b'.Valid := h.inv.own

theorem rem_self (h : Reduced b q b' i qty) (hne : b.rem i ≠ qty) : b'.rem i = b.rem i - qty :=
  congrArg OrderView.qtyRemaining (h.self hne)

theorem rem_other (h : Reduced b q b' i qty) {j : Nat} (hj : j ≠ i) : b'.rem j = b.rem j :=
  (Order.view_eq (h.frame j hj)).2.1

/-- Side, price and reference of an order that is still live. -/
theorem kept (h : Reduced b q b' i qty) {j : Nat} (hj : b'.live j) :
    (b'.order j).orderRef = (b.order j).orderRef ∧ (b'.order j).priceTicks = (b.order j).priceTicks
      ∧ (b'.order j).side = (b.order j).side := by
  by_cases hji : j = i
  · have hne : b.rem i ≠ qty := fun he => ((h.live j).mp hj).2 ⟨hji, he⟩
    have hv := h.self hne
    rw [hji]
    exact ⟨congrArg OrderView.orderRef hv, congrArg OrderView.priceTicks hv,
      congrArg OrderView.side hv⟩
  · obtain ⟨h1, _, h2, h3⟩ := Order.view_eq (h.frame j hji)
    exact ⟨h1, h2, h3⟩

theorem levelSlots (h : Reduced b q b' i qty) (hb : BookInv b q) (s : Side) (p : Int) :
    b'.levelSlots s p = if b.rem i = qty ∧ s = (b.order i).side ∧ p = (b.order i).priceTicks then
      (b.levelSlots s p).erase i else b.levelSlots s p := by
  rw [← h.inv.queues, ← hb.queues, reducedQueue]
  by_cases hz : b.rem i = qty
  · rw [if_pos hz, setQueue]
    by_cases hsp : s = (b.order i).side ∧ p = (b.order i).priceTicks
    · rw [if_pos hsp, if_pos ⟨hz, hsp⟩, hsp.1, hsp.2]
    · rw [if_neg hsp, if_neg (fun hh => hsp hh.2)]
  · rw [if_neg hz, if_neg (fun hh => hz hh.1)]

/-- **Those behind the order move up** by what it has lost. -/
theorem ahead_eq (h : Reduced b q b' i qty) (hb : BookInv b q) {j : Nat} (hj : b'.live j) :
    b'.ahead j = b.ahead j - if i ∈ before j (b.queueOf j) then qty else 0 := by
  obtain ⟨_, hp, hs⟩ := h.kept hj
  have hjl : b.live j := ((h.live j).mp hj).1
  have hnd : (b.queueOf j).Nodup := hb.own.nodup _ _
  rw [ahead, queueOf, hs, hp, h.levelSlots hb]
  by_cases hz : b.rem i = qty
  · have hji : i ≠ j := fun he => ((h.live j).mp hj).2 ⟨he.symm, hz⟩
    by_cases hmem : i ∈ b.queueOf j
    · obtain ⟨_, h1, h2⟩ := (hb.own.mem _ _ i).mp hmem
      rw [if_pos ⟨hz, h1.symm, h2.symm⟩]
      have hcongr : QueueSum.ahead b'.rem j ((b.queueOf j).erase i)
          = QueueSum.ahead b.rem j ((b.queueOf j).erase i) := by
        refine ahead_congr (fun x hx => h.rem_other ?_)
        exact (hnd.mem_erase_iff.mp (mem_of_mem_before hx)).1
      show QueueSum.ahead b'.rem j ((b.queueOf j).erase i) = _
      rw [hcongr, ahead_erase hji hnd, hz]
      rfl
    · have hno : ¬ (b.rem i = qty ∧ (b.order j).side = (b.order i).side
          ∧ (b.order j).priceTicks = (b.order i).priceTicks) ∨ ¬ b.live i := by
        by_contra hc
        rw [not_or, not_not, not_not] at hc
        exact hmem ((hb.own.mem _ _ i).mpr ⟨hc.2, hc.1.2.1.symm, hc.1.2.2.symm⟩)
      have hcongr : QueueSum.ahead b'.rem j (b.queueOf j) = QueueSum.ahead b.rem j (b.queueOf j) :=
        ahead_congr (fun x hx => h.rem_other (fun he => hmem (he ▸ mem_of_mem_before hx)))
      rw [if_neg (fun hx => hmem (mem_of_mem_before hx)), Int.sub_zero]
      have herase : (b.queueOf j).erase i = b.queueOf j := List.erase_of_not_mem hmem
      split
      · show QueueSum.ahead b'.rem j ((b.queueOf j).erase i) = _
        rw [herase]
        exact hcongr
      · exact hcongr
  · rw [if_neg (fun hh => hz hh.1)]
    have hre := ahead_reweigh (f := b.rem) (g := b'.rem) (a := i) (i := j) hnd
      (fun x _ hx => h.rem_other hx)
    rw [h.rem_self hz] at hre
    show QueueSum.ahead b'.rem j (b.queueOf j) = QueueSum.ahead b.rem j (b.queueOf j) - _
    rw [hre]
    split <;> omega

theorem qtyAt (h : Reduced b q b' i qty) (hb : BookInv b q) (hi : b.live i) (s : Side) (p : Int) :
    b'.qtyAt s p = b.qtyAt s p
      - if s = (b.order i).side ∧ p = (b.order i).priceTicks then qty else 0 := by
  rw [h.valid.qtyAt_eq, hb.own.qtyAt_eq, h.levelSlots hb]
  have hnd := hb.own.nodup s p
  by_cases hsp : s = (b.order i).side ∧ p = (b.order i).priceTicks
  · have hmem : i ∈ b.levelSlots s p := (hb.own.mem _ _ i).mpr ⟨hi, hsp.1.symm, hsp.2.symm⟩
    have hold := List.sum_map_erase b.rem hmem
    have hcongr : (((b.levelSlots s p).erase i).map b'.rem).sum
        = (((b.levelSlots s p).erase i).map b.rem).sum := by
      refine congrArg List.sum (List.map_congr_left (fun x hx => h.rem_other ?_))
      exact (hnd.mem_erase_iff.mp hx).1
    rw [if_pos hsp]
    by_cases hz : b.rem i = qty
    · rw [if_pos ⟨hz, hsp⟩, hcongr]
      omega
    · rw [if_neg (fun hh => hz hh.1)]
      have hnew := List.sum_map_erase b'.rem hmem
      rw [h.rem_self hz, hcongr] at hnew
      omega
  · rw [if_neg hsp, if_neg (fun hh => hsp hh.2), Int.sub_zero]
    refine congrArg List.sum (List.map_congr_left (fun x hx => h.rem_other (fun he => hsp ?_)))
    obtain ⟨_, h1, h2⟩ := (hb.own.mem s p x).mp hx
    rw [← he]
    exact ⟨h1.symm, h2.symm⟩

end Reduced

/-! ## What a call can do -/

/-- Nothing stands against `add`. -/
structure Addable (b : OrderBook k) (ref : Nat) (s : Side) (qty price : Int) : Prop where
  named : ref ≠ 0
  pos : 0 < qty
  band : b.inBand price
  page : (b.ladderFor s).claimable price
  free : (b.findHandle ref).index = kNullIndex
  room : b.arena.liveCount < b.arena.capacity

/-- **What `add` can do.** -/
theorem add_cases (h : b.Valid) (ref : Nat) (s : Side) (qty price : Int) :
    (b.Addable ref s qty price ∧ (b.add ref s qty price).tick.ok
        ∧ ∃ i, Rested b b.levelSlots (b.add ref s qty price).book i ⟨ref, qty, price, s⟩)
      ∨ (¬ b.Addable ref s qty price ∧ ¬ (b.add ref s qty price).tick.ok
        ∧ (b.add ref s qty price).book = b) := by
  have hfail : ∀ e, b.add ref s qty price = b.fail e → ¬ (b.add ref s qty price).tick.ok
      ∧ (b.add ref s qty price).book = b := by
    intro e he
    rw [he]
    exact ⟨not_ok_tickError e, rfl⟩
  by_cases h1 : ref = 0
  · exact Or.inr ⟨fun ha => ha.named h1, hfail .zeroRef (by rw [add, if_pos h1])⟩
  by_cases h2 : qty ≤ 0
  · exact Or.inr ⟨fun ha => absurd ha.pos (by omega),
      hfail .badQty (by rw [add, if_neg h1, if_pos h2])⟩
  by_cases h3 : b.inBand price
  swap
  · exact Or.inr ⟨fun ha => h3 ha.band,
      hfail .outOfBand (by rw [add, if_neg h1, if_neg h2, if_pos h3])⟩
  by_cases h4 : (b.ladderFor s).claimable price
  swap
  · exact Or.inr ⟨fun ha => h4 ha.page, hfail .pageExhausted
      (by rw [add, if_neg h1, if_neg h2, if_neg (not_not.mpr h3), if_pos h4])⟩
  by_cases h5 : (b.findHandle ref).index = kNullIndex
  swap
  · refine Or.inr ⟨fun ha => h5 ha.free, hfail .duplicateRef ?_⟩
    have hdup : (b.idFindSlot ref).handle.index ≠ kNullIndex := h5
    rw [add, if_neg h1, if_neg h2, if_neg (not_not.mpr h3), if_neg (not_not.mpr h4)]
    dsimp only
    rw [if_pos hdup]
  have hdup : ∀ i, b.live i → (b.order i).orderRef ≠ ref := (h.idFind_null_iff h1).mp h5
  by_cases h6 : b.arena.liveCount < b.arena.capacity
  · obtain ⟨hi, htick, _⟩ := add_rests h h1 (Int.not_le.mp h2) h3 h4 hdup h6
    refine Or.inl ⟨⟨h1, Int.not_le.mp h2, h3, h4, h5, h6⟩, ?_, hi⟩
    rw [htick]
    exact TickKind.noConfusion
  · refine Or.inr ⟨fun ha => h6 ha.room, hfail .arenaFull ?_⟩
    obtain ⟨fl, hfl⟩ := h.arena
    have hle := hfl.liveCount_le
    have hfree : ¬ (b.idFindSlot ref).handle.index ≠ kNullIndex := not_not.mpr h5
    have hisNull : (({} : GenHandle), b.arena).1.isNull := rfl
    rw [add, if_neg h1, if_neg h2, if_neg (not_not.mpr h3), if_neg (not_not.mpr h4)]
    dsimp only
    rw [if_neg hfree, Arena.acquire_full hfl (by omega), if_pos hisNull]

/-- **What `remove` can do.** -/
theorem remove_cases (h : b.Valid) {ref : Nat} (hr : ref ≠ 0) :
    (∃ i, (b.findHandle ref).index = i ∧ b.live i ∧ (b.order i).orderRef = ref
        ∧ (b.remove ref).tick.ok ∧ Reduced b b.levelSlots (b.remove ref).book i (b.rem i))
      ∨ ((b.findHandle ref).index = kNullIndex ∧ ¬ (b.remove ref).tick.ok
        ∧ (b.remove ref).book = b) := by
  by_cases hn : (b.findHandle ref).index = kNullIndex
  · have hnull : (b.idFindSlot ref).handle.index = kNullIndex := hn
    have hrem : b.remove ref = b.fail .unknownOrder := by
      unfold remove
      dsimp only
      rw [if_pos hnull]
    rw [hrem]
    exact Or.inr ⟨hn, not_ok_tickError _, rfl⟩
  · obtain ⟨hl, href, _⟩ := h.idFind_live hr hn
    obtain ⟨hred, htick, _⟩ := remove_spec h hl
    rw [href] at hred htick
    refine Or.inl ⟨_, rfl, hl, href, ?_, hred⟩
    rw [htick]
    exact TickKind.noConfusion

/-- Nothing stands against `replace` of the order in slot `i`. -/
structure Replaceable (b : OrderBook k) (i newRef : Nat) (qty price : Int) : Prop where
  pos : 0 < qty
  band : b.inBand price
  page : (b.ladderFor (b.order i).side).claimable price
  free : newRef = (b.order i).orderRef ∨ (b.findHandle newRef).index = kNullIndex

/-- **`replace` of an order the book does not have** changes nothing. -/
theorem replace_unknown {origRef : Nat} (hnull : (b.findHandle origRef).index = kNullIndex)
    (newRef : Nat) (qty price : Int) : ¬ (b.replace origRef newRef qty price).tick.ok
      ∧ (b.replace origRef newRef qty price).book = b := by
  have hn : (b.idFind origRef).index = kNullIndex := hnull
  unfold replace
  dsimp only
  rw [if_pos hn]
  split
  · exact ⟨not_ok_tickError _, rfl⟩
  · split
    · exact ⟨not_ok_tickError _, rfl⟩
    · exact ⟨not_ok_tickError _, rfl⟩

/-- **A refused `replace`** changes nothing. -/
theorem replace_refused (h : b.Valid) {i : Nat} (hi : b.live i) {newRef : Nat} {qty price : Int}
    (hno : ¬ b.Replaceable i newRef qty price) :
    ¬ (b.replace (b.order i).orderRef newRef qty price).tick.ok
      ∧ (b.replace (b.order i).orderRef newRef qty price).book = b := by
  have hfail : ∀ e, b.replace (b.order i).orderRef newRef qty price = b.fail e →
      ¬ (b.replace (b.order i).orderRef newRef qty price).tick.ok
      ∧ (b.replace (b.order i).orderRef newRef qty price).book = b := by
    intro e he
    rw [he]
    exact ⟨not_ok_tickError e, rfl⟩
  have hf : (b.idFind (b.order i).orderRef).index = i :=
    (h.idFind_eq_iff (h.ref i hi) (h.ne_null hi)).mpr ⟨hi, rfl⟩
  have hfn : ¬ (b.idFind (b.order i).orderRef).index = kNullIndex := by rw [hf]; exact h.ne_null hi
  have hside : (b.arena.deref (b.idFind (b.order i).orderRef)).side = (b.order i).side := by
    rw [Arena.deref, hf]; rfl
  by_cases h1 : qty ≤ 0
  · exact hfail .badQty (by rw [replace, if_pos h1])
  by_cases h2 : b.inBand price
  swap
  · exact hfail .outOfBand (by rw [replace, if_neg h1, if_pos h2])
  by_cases h3 : (b.ladderFor (b.order i).side).claimable price
  swap
  · refine hfail .pageExhausted ?_
    rw [replace, if_neg h1, if_neg (not_not.mpr h2)]
    dsimp only
    rw [if_neg hfn, hside, if_pos h3]
  have hdup : (b.order i).orderRef ≠ newRef ∧ (b.idFind newRef).index ≠ kNullIndex :=
    ⟨fun he => hno ⟨Int.not_le.mp h1, h2, h3, Or.inl he.symm⟩,
      fun he => hno ⟨Int.not_le.mp h1, h2, h3, Or.inr he⟩⟩
  refine hfail .duplicateRef ?_
  rw [replace, if_neg h1, if_neg (not_not.mpr h2)]
  dsimp only
  rw [if_neg hfn, hside, if_neg (not_not.mpr h3), if_pos hdup]

/-- **What `replace` of a live order can do.** -/
theorem replace_cases (h : b.Valid) {i : Nat} (hi : b.live i) {newRef : Nat} (hnew : newRef ≠ 0)
    (qty price : Int) :
    (b.Replaceable i newRef qty price ∧ (b.replace (b.order i).orderRef newRef qty price).tick.ok
        ∧ ∃ b1, Reduced b b.levelSlots b1 i (b.rem i) ∧ ∃ j, Rested b1 b1.levelSlots
          (b.replace (b.order i).orderRef newRef qty price).book j
          ⟨newRef, qty, price, (b.order i).side⟩)
      ∨ (¬ b.Replaceable i newRef qty price
        ∧ ¬ (b.replace (b.order i).orderRef newRef qty price).tick.ok
        ∧ (b.replace (b.order i).orderRef newRef qty price).book = b) := by
  by_cases hrep : b.Replaceable i newRef qty price
  swap
  · exact Or.inr ⟨hrep, replace_refused h hi hrep⟩
  have hdup : newRef = (b.order i).orderRef ∨ ∀ j, b.live j → (b.order j).orderRef ≠ newRef :=
    hrep.free.imp id (fun hn => (h.idFind_null_iff hnew).mp hn)
  obtain ⟨b1, hred, _, ⟨j, hrest⟩, htick, _⟩ :=
    replace_spec h hi hnew hrep.pos hrep.band hrep.page hdup
  refine Or.inl ⟨hrep, ?_, b1, hred, j, ?_⟩
  · rw [htick]
    exact TickKind.noConfusion
  · rw [← hred.inv.queues]
    exact hrest

/-- Once the order has gone, nothing stands against its replacement. -/
theorem Replaceable.addable (h : b.Valid) {i : Nat} (hi : b.live i) {newRef : Nat}
    (hnew : newRef ≠ 0) {qty price : Int} (hrep : b.Replaceable i newRef qty price)
    {b1 : OrderBook k} (hred : Reduced b b.levelSlots b1 i (b.rem i)) :
    b1.Addable newRef (b.order i).side qty price := by
  have hdead : ∀ j, b1.live j → (b1.order j).orderRef ≠ newRef := by
    intro j hj
    obtain ⟨hjl, hji⟩ := (hred.live j).mp hj
    rw [(hred.kept hj).1]
    intro he
    rcases hrep.free with heq | hnull
    · exact hji ⟨h.ref_inj hjl hi (he.trans heq), rfl⟩
    · exact (h.idFind_null_iff hnew).mp hnull j hjl he
  refine ⟨hnew, hrep.pos, (hred.config.inBand_iff price).mpr hrep.band, ?_,
    (hred.inv.idFind_null_iff hnew).mpr hdead, ?_⟩
  · exact (claimable_congr h.ladder hred.inv.ladder hred.config hred.touched _ _).mpr hrep.page
  · have hcount := hred.count
    rw [if_pos rfl] at hcount
    obtain ⟨fl, hfl⟩ := h.arena
    have := hfl.liveCount_le
    rw [hred.config.capacity]
    omega

/-! ## The front of a level -/

/-- Slot `i` heads the queue of side `s` at price `p`. -/
structure Front (b : OrderBook k) (s : Side) (p : Int) (i : Nat) (l : List Nat) : Prop where
  slots : b.levelSlots s p = i :: l
  live : b.live i
  side : (b.order i).side = s
  price : (b.order i).priceTicks = p
  frontRef : b.frontRef s p = (b.order i).orderRef
  handle : (b.findHandle (b.order i).orderRef).index = i

theorem front_of_slots (h : b.Valid) {s : Side} {p : Int} {i : Nat} {l : List Nat}
    (hq : b.levelSlots s p = i :: l) : b.Front s p i l := by
  obtain ⟨hi, hs, hp⟩ := (h.mem s p i).mp (by rw [hq]; simp)
  refine ⟨hq, hi, hs, hp, ?_, (h.idFind_eq_iff (h.ref i hi) (h.ne_null hi)).mpr ⟨hi, rfl⟩⟩
  rw [h.frontRef_eq, hq]

/-- A level has a head, or its front reference is zero. -/
theorem front_cases (h : b.Valid) (s : Side) (p : Int) :
    (b.levelSlots s p = [] ∧ b.frontRef s p = 0)
      ∨ ∃ i l, b.Front s p i l ∧ b.frontRef s p ≠ 0 := by
  cases hq : b.levelSlots s p with
  | nil =>
      refine Or.inl ⟨rfl, ?_⟩
      rw [h.frontRef_eq, hq]
  | cons i l =>
      have hf := front_of_slots h hq
      refine Or.inr ⟨i, l, hf, ?_⟩
      rw [hf.frontRef]
      exact h.ref i hf.live

theorem Front.remainingOfHandle {s : Side} {p : Int} {i : Nat} {l : List Nat}
    (hf : b.Front s p i l) :
    b.remainingOfHandle (b.findHandle (b.order i).orderRef) = b.rem i := by
  rw [OrderBook.remainingOfHandle, Arena.deref, hf.handle]
  rfl

end OrderBook

end Mog
