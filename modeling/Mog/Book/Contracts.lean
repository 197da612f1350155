import Mog.Book.Replace
import Mog.Wire.Message

/-!
# Feed messages, and the contracts they reach

`apply` dispatches a decoded message to one book call. The sources guard the table,
the arena, the ladder and the queues with contract checks that the definitions of the
calls leave out; here every function that `apply` can reach has its own predicate,
the conjunction of the conditions checked on the way through it.

* `reduceOk`, `addOk`: from the book's invariant, no check of the arena, the ladder,
  the queues or the table fails.
* `applyOk_iff`: the one check a message can trip is the lookup of reference zero.
-/

namespace Mog

open LinkedChain PriceLadder

namespace OrderBook

variable {k : Nat}

/-- One feed message. `C` changes the printed price of a trade only; for the book it is `E`. -/
def apply (b : OrderBook k) : Message → BookResult k
  | .addOrder m => b.add m.orderRef m.side m.shares m.price
  | .addOrderAttribution m => b.add m.orderRef m.side m.shares m.price
  | .orderExecuted m => b.execute m.orderRef m.executedShares
  | .orderExecutedWithPrice m => b.execute m.orderRef m.executedShares
  | .orderCancel m => b.cancel m.orderRef m.cancelledShares
  | .orderDelete m => b.remove m.orderRef
  | .orderReplace m => b.replace m.originalOrderRef m.newOrderRef m.shares m.price

/-- The book a feed leaves. -/
def applyAll (b : OrderBook k) (feed : List Message) : OrderBook k :=
  feed.foldl (fun b m => (b.apply m).book) b

end OrderBook

/-! ## The conditions checked -/

/-- `release` and `at` check that the handle is valid. -/
def Arena.HandleOk {α : Type} (a : Arena α) (h : GenHandle) : Prop := a.valid h

/-- `at_index` checks its index. -/
def Arena.AtIndexOk {α : Type} (a : Arena α) (i : Nat) : Prop := i < a.capacity

/-- The checks of `apply` of the ladder. -/
structure PriceLadder.ApplyOk {k : Nat} (l : PriceLadder k) (tick delta : Int) : Prop where
  moves : delta ≠ 0
  band : l.inBand tick
  pool : l.dir (l.dirIndex tick) = kNoPage → l.pagesClaimed < l.poolLen
  total : 0 ≤ ((l.apply tick delta).1.level (l.apply tick delta).2).qtyTotal
  occupancy :
    (((l.claim (l.dirIndex tick)).1.pages (l.claim (l.dirIndex tick)).2).levels
      (l.offsetOf tick)).qtyTotal ≠ 0 →
    (((l.claim (l.dirIndex tick)).1.pages (l.claim (l.dirIndex tick)).2).levels
      (l.offsetOf tick)).qtyTotal + delta = 0 →
    0 < ((l.claim (l.dirIndex tick)).1.pages (l.claim (l.dirIndex tick)).2).occupancy

namespace OrderBook

variable {k : Nat} (b : OrderBook k)

/-- `id_find_slot` checks that the reference is not zero. -/
def IdFindSlotOk (ref : Nat) : Prop := ref ≠ 0

/-- `id_insert_at` checks its arguments and, after it, the load of the table. -/
structure IdInsertAtOk (slot ref : Nat) : Prop where
  pre : ref ≠ 0 ∧ (b.entries slot).ref = 0
  post : (b.tableSize + 1) * 2 ≤ b.tableCap

/-- `id_erase_at` checks that the cell is occupied. -/
def IdEraseAtOk (slot : Nat) : Prop := (b.entries slot).ref ≠ 0

structure IdEraseOk (ref : Nat) : Prop where
  find : IdFindSlotOk ref
  found : (b.idFindSlot ref).handle.index ≠ kNullIndex
  erase : b.IdEraseAtOk (b.idFindSlot ref).slot

/-- The slots `push_tail` reads and writes. -/
structure PushTailOk (s : Side) (lv : LevelPtr) (idx : Nat) : Prop where
  own : b.arena.AtIndexOk idx
  tail : (b.levelOf s lv).tail ≠ kNullIndex → b.arena.AtIndexOk (b.levelOf s lv).tail

/-- The slots `unlink` reads and writes. -/
structure UnlinkOk (idx : Nat) : Prop where
  own : b.arena.AtIndexOk idx
  prev : (b.arena.atIndex idx).prev ≠ kNullIndex → b.arena.AtIndexOk (b.arena.atIndex idx).prev
  next : (b.arena.atIndex idx).next ≠ kNullIndex → b.arena.AtIndexOk (b.arena.atIndex idx).next

/-- The book `reduce` has in hand once the order and its level have lost `qty`, and the level. -/
def lowered (h : GenHandle) (qty : Int) : OrderBook k × LevelPtr :=
  let o := b.arena.deref h
  let b1 := b.modifyOrder h.index (fun o => { o with qtyRemaining := o.qtyRemaining - qty })
  let r := (b1.ladderFor o.side).apply o.priceTicks (-qty)
  (b1.setLadder o.side r.1, r.2)

/-- The checks of `reduce`; the order is emptied when all it has is taken. -/
structure ReduceOk (h : GenHandle) (qty : Int) (slotHint : Nat) : Prop where
  pre : 0 < qty ∧ qty ≤ (b.arena.deref h).qtyRemaining
  apply : (b.ladderFor (b.arena.deref h).side).ApplyOk (b.arena.deref h).priceTicks (-qty)
  unlink : (b.arena.deref h).qtyRemaining - qty = 0 → (b.lowered h qty).1.UnlinkOk h.index
  release : (b.arena.deref h).qtyRemaining - qty = 0 →
    ((b.lowered h qty).1.unlink (b.arena.deref h).side (b.lowered h qty).2 h.index).arena.HandleOk h
  /-- The table is as it was when its cell is erased. -/
  erase : (b.arena.deref h).qtyRemaining - qty = 0 →
    if slotHint ≠ kNullIndex then b.IdEraseAtOk slotHint
    else b.IdEraseOk (b.arena.deref h).orderRef
  left : (b.arena.deref h).qtyRemaining - qty ≠ 0 → 0 < (b.arena.deref h).qtyRemaining - qty
  drained : ((b.lowered h qty).1.levelOf (b.arena.deref h).side (b.lowered h qty).2).qtyTotal = 0 →
    (b.arena.deref h).qtyRemaining - qty = 0

/-- The checks of `add` behind its own validation. -/
def AddOk (ref : Nat) (s : Side) (qty price : Int) : Prop :=
  ref ≠ 0 → 0 < qty → b.inBand price → (b.ladderFor s).claimable price →
    IdFindSlotOk ref ∧
    ((b.idFindSlot ref).handle.index = kNullIndex →
      let a := b.arena.acquire
        { orderRef := ref, qtyRemaining := qty, priceTicks := price, side := s }
      ¬ a.1.isNull →
        let b1 : OrderBook k := { b with arena := a.2 }
        let b2 := b1.idInsertAt (b.idFindSlot ref).slot ref a.1
        let r := (b2.ladderFor s).apply price qty
        b1.IdInsertAtOk (b.idFindSlot ref).slot ref ∧ (b2.ladderFor s).ApplyOk price qty
          ∧ (b2.setLadder s r.1).PushTailOk s r.2 a.1.index)

def ExecuteOk (ref : Nat) (qty : Int) : Prop :=
  0 < qty → IdFindSlotOk ref ∧
    ((b.idFindSlot ref).handle.index ≠ kNullIndex →
      b.arena.HandleOk (b.idFindSlot ref).handle ∧
      (qty ≤ (b.arena.deref (b.idFindSlot ref).handle).qtyRemaining →
        b.ReduceOk (b.idFindSlot ref).handle qty (b.idFindSlot ref).slot))

def RemoveOk (ref : Nat) : Prop :=
  IdFindSlotOk ref ∧
    ((b.idFindSlot ref).handle.index ≠ kNullIndex →
      b.arena.HandleOk (b.idFindSlot ref).handle ∧
      b.ReduceOk (b.idFindSlot ref).handle
        (b.arena.deref (b.idFindSlot ref).handle).qtyRemaining (b.idFindSlot ref).slot)

/-- The checks of `replace`, the two assertions on its `remove` and its `add` included. -/
def ReplaceOk (origRef newRef : Nat) (qty price : Int) : Prop :=
  0 < qty → b.inBand price → IdFindSlotOk origRef ∧
    ((b.idFind origRef).index ≠ kNullIndex → b.arena.HandleOk (b.idFind origRef) ∧
      let side := (b.arena.deref (b.idFind origRef)).side
      ((b.ladderFor side).claimable price → (origRef ≠ newRef → IdFindSlotOk newRef) ∧
        (¬ (origRef ≠ newRef ∧ (b.idFind newRef).index ≠ kNullIndex) →
          b.RemoveOk origRef ∧ (b.remove origRef).tick.ok
            ∧ (b.remove origRef).book.AddOk newRef side qty price
            ∧ ((b.remove origRef).book.add newRef side qty price).tick.ok)))

/-- The checks `apply` reaches on a message. -/
def ApplyOk : Message → Prop
  | .addOrder m => b.AddOk m.orderRef m.side m.shares m.price
  | .addOrderAttribution m => b.AddOk m.orderRef m.side m.shares m.price
  | .orderExecuted m => b.ExecuteOk m.orderRef m.executedShares
  | .orderExecutedWithPrice m => b.ExecuteOk m.orderRef m.executedShares
  | .orderCancel m => b.ExecuteOk m.orderRef m.cancelledShares
  | .orderDelete m => b.RemoveOk m.orderRef
  | .orderReplace m => b.ReplaceOk m.originalOrderRef m.newOrderRef m.shares m.price

end OrderBook

/-! ## The ladder's checks -/

/-- Changing the total of a level that can be claimed trips no check while the total stays at
zero or above. -/
theorem PriceLadder.applyOk {k : Nat} {l : PriceLadder k} (h : LadderInv l) {tick delta : Int}
    (hin : l.inBand tick) (hcl : l.claimable tick) (hd : delta ≠ 0)
    (hnn : 0 ≤ (l.levelAt tick).qtyTotal + delta) : l.ApplyOk tick delta := by
  refine ⟨hd, hin, fun hn => hcl.resolve_left (not_not.mpr hn), ?_, fun hne _ => ?_⟩
  · have ha := apply_spec h hin hcl delta
    generalize l.apply tick delta = r at *
    have hin' : r.1.inBand tick := by
      unfold inBand
      rw [ha.lo, ha.hi]
      exact hin
    have hlv := ha.levelAt tick
    rw [if_pos rfl, levelAt_claimed hin' ha.claimed, ← ha.ptr] at hlv
    rw [hlv]
    exact hnn
  · obtain ⟨hinv, _⟩ := claim_spec h hin hcl
    by_contra hz
    exact hne (page_empty hinv (by omega) (offsetOf_lt l tick))

namespace OrderBook

variable {k : Nat} {b b' : OrderBook k} {q : Side → Int → List Nat}

/-! ## The book's checks -/

theorem valid_of_find (h : BookInv b q) {ref : Nat} (hr : ref ≠ 0)
    (hf : (b.idFindSlot ref).handle.index ≠ kNullIndex) :
    b.arena.HandleOk (b.idFindSlot ref).handle := by
  obtain ⟨hl, _, hgen⟩ := h.idFind_live hr hf
  exact ⟨h.lt_capacity hl, hl, hgen⟩

/-- The links of a queued order lead to queued orders. -/
theorem unlinkOk (h : BookInv b q) {i : Nat} (hi : b.live i) : b.UnlinkOk i := by
  have hmem : i ∈ q (b.order i).side (b.order i).priceTicks := (h.mem _ _ i).mpr ⟨hi, rfl, rfl⟩
  have hc := (h.level (b.order i).side (b.order i).priceTicks).chain
  refine ⟨h.lt_capacity hi, fun hp => ?_, fun hn => ?_⟩
  · rcases hc.prv_mem hmem with he | hm
    · exact absurd he hp
    · exact h.lt_capacity ((h.mem _ _ _).mp hm).1
  · rcases hc.nxt_mem hmem with he | hm
    · exact absurd he hn
    · exact h.lt_capacity ((h.mem _ _ _).mp hm).1

/-- **`reduce` trips no check** while it takes at most what the order has. -/
theorem reduceOk (h : BookInv b q) {i : Nat} (hi : b.live i) {qty : Int} (hpos : 0 < qty)
    (hle : qty ≤ b.rem i) (hd : GenHandle) (hdi : hd = ⟨i, (b.arena.slots i).generation⟩)
    {slotHint : Nat}
    (hhint : slotHint = kNullIndex ∨ slotHint = (b.idFindSlot (b.order i).orderRef).slot) :
    b.ReduceOk hd qty slotHint := by
  subst hdi
  have hl : Lowered b (b.lowered ⟨i, (b.arena.slots i).generation⟩ qty).1 i qty
      (b.lowered ⟨i, (b.arena.slots i).generation⟩ qty).2 := lower_spec h hi qty rfl
  have hmem : i ∈ q (b.order i).side (b.order i).priceTicks := (h.mem _ _ i).mpr ⟨hi, rfl, rfl⟩
  have hne := List.ne_nil_of_mem hmem
  have htotal : b.rem i ≤ (b.levelAt (b.order i).side (b.order i).priceTicks).qtyTotal := by
    have h1 := h.valid.ahead_add_rem_le hi
    have h2 := h.valid.ahead_nonneg i
    rw [h.qtyAt_eq, ← (h.level _ _).total] at h1
    omega
  have hun := unlinkOk h hi
  have hcell := (h.idFindSlot_live hi).2.2
  have hr := h.ref i hi
  refine
    { pre := ⟨hpos, hle⟩, apply := ?_, unlink := fun _ => ?_, release := fun _ => ?_,
      erase := fun _ => ?_, left := fun hn => ?_, drained := fun hz => ?_ }
  · refine PriceLadder.applyOk (h.ladder _) (h.inBand hne) (Or.inl (h.claimed hne)) (by omega) ?_
    have hlv : ((b.ladderFor (b.order i).side).levelAt (b.order i).priceTicks).qtyTotal
        = (b.levelAt (b.order i).side (b.order i).priceTicks).qtyTotal := rfl
    show 0 ≤ ((b.ladderFor (b.order i).side).levelAt (b.order i).priceTicks).qtyTotal + -qty
    rw [hlv]
    omega
  · -- the links are those of the order before it lost its quantity
    have hself := hl.self
    rw [OrderBook.order] at hself
    have hcap := hl.shape.capacity
    refine ⟨?_, fun hp => ?_, fun hn => ?_⟩
    · rw [Arena.AtIndexOk, hcap]
      exact hun.own
    · rw [hself] at hp ⊢
      rw [Arena.AtIndexOk, hcap]
      exact hun.prev hp
    · rw [hself] at hn ⊢
      rw [Arena.AtIndexOk, hcap]
      exact hun.next hn
  · have hrel := hl.unlinked h hi
    have hsh := hl.shape.trans hrel.shape
    exact ⟨Nat.lt_of_lt_of_eq (h.lt_capacity hi) hsh.capacity.symm, (hsh.live i).trans hi,
      hsh.generation i⟩
  · have herase : b.IdEraseAtOk (b.idFindSlot (b.order i).orderRef).slot := by
      rw [IdEraseAtOk, hcell]
      exact hr
    have hderef : b.arena.deref ⟨i, (b.arena.slots i).generation⟩ = b.order i := rfl
    rw [hderef]
    split
    · rename_i hs
      rw [hhint.resolve_left hs]
      exact herase
    · refine ⟨hr, ?_, herase⟩
      rw [(h.idFindSlot_live hi).1]
      exact h.ne_null hi
  · have hn' : b.rem i - qty ≠ 0 := hn
    show 0 < b.rem i - qty
    omega
  · have hlv := hl.level (b.order i).side (b.order i).priceTicks
    rw [if_pos ⟨rfl, rfl⟩] at hlv
    have hz' : ((b.lowered ⟨i, (b.arena.slots i).generation⟩ qty).1.levelOf (b.order i).side
        (b.lowered ⟨i, (b.arena.slots i).generation⟩ qty).2).qtyTotal = 0 := hz
    rw [hl.at'.levelOf, hlv] at hz'
    have hz2 : (b.levelAt (b.order i).side (b.order i).priceTicks).qtyTotal - qty = 0 := hz'
    show b.rem i - qty = 0
    omega

/-- **`add` trips no check**: what its own validation lets through can rest. -/
theorem addOk (h : BookInv b q) (ref : Nat) (s : Side) (qty price : Int) :
    b.AddOk ref s qty price := by
  intro href hqty hband hcl
  refine ⟨href, fun hnull => ?_⟩
  have hdup := (h.idFind_null_iff href).mp hnull
  have hin : (b.ladderFor s).inBand price := (h.inBand_iff s price).mp hband
  intro a hnn
  have hroom : b.arena.liveCount < b.arena.capacity := by
    by_contra hfull
    obtain ⟨fl, hfl⟩ := h.arena
    have hle := hfl.liveCount_le
    refine hnn ?_
    show (b.arena.acquire _).1.isNull
    rw [Arena.acquire_full hfl (by omega)]
    rfl
  obtain ⟨_, hst⟩ := store_spec h
    (o := { orderRef := ref, qtyRemaining := qty, priceTicks := price, side := s }) href hdup hroom
  have hst : Stored b (({ b with arena := a.2 } : OrderBook k).idInsertAt (b.idFindSlot ref).slot
      ref a.1) a.1.index ⟨ref, qty, price, s⟩ := hst
  have htotal : 0 ≤ (b.levelAt s price).qtyTotal := by
    rw [(h.level s price).total]
    refine List.sum_nonneg (fun x hx => ?_)
    obtain ⟨i, hi, rfl⟩ := List.mem_map.mp hx
    exact Int.le_of_lt (h.rem_pos hi)
  refine ⟨⟨⟨href, (h.idFindSlot_dead href hdup).2.2.1⟩, ?_⟩, ?_, ?_, fun ht => ?_⟩
  · show (b.tableSize + 1) * 2 ≤ b.tableCap
    have := h.tableCap
    have := h.size
    omega
  · rw [hst.ladder]
    refine PriceLadder.applyOk (h.ladder s) hin hcl (by omega) ?_
    have hlv : ((b.ladderFor s).levelAt price).qtyTotal = (b.levelAt s price).qtyTotal := rfl
    rw [hlv]
    omega
  · obtain ⟨fl, hfl⟩ := hst.arena
    have hlive := (hst.live a.1.index).mpr (Or.inl rfl)
    have htot := totalled_apply (fun t => by rw [hst.ladder]; exact h.ladder t)
      (by rw [hst.ladder]; exact hin) (by rw [hst.ladder]; exact hcl) qty
    rw [Arena.AtIndexOk, htot.arena]
    exact hfl.lt_capacity hlive
  · -- the tail was the tail of the level before the order came
    have htot := totalled_apply (fun t => by rw [hst.ladder]; exact h.ladder t)
      (by rw [hst.ladder]; exact hin) (by rw [hst.ladder]; exact hcl) qty
    have hlv := htot.level s price
    have hold := hst.levelAt s price
    rw [if_pos ⟨rfl, rfl⟩, hold] at hlv
    rw [htot.at'.levelOf, hlv] at ht ⊢
    have hm := (h.level s price).chain.tail_mem ht
    rw [Arena.AtIndexOk, htot.arena, hst.capacity]
    exact h.lt_capacity ((h.mem _ _ _).mp hm).1

/-- `reduce` by the handle a lookup has found. -/
theorem reduceOk_found (h : BookInv b q) {ref : Nat} (hr : ref ≠ 0)
    (hf : (b.idFindSlot ref).handle.index ≠ kNullIndex) {qty : Int} (hpos : 0 < qty)
    (hle : qty ≤ (b.arena.deref (b.idFindSlot ref).handle).qtyRemaining) :
    b.ReduceOk (b.idFindSlot ref).handle qty (b.idFindSlot ref).slot := by
  obtain ⟨hl, href, hgen⟩ := h.idFind_live hr hf
  refine reduceOk h hl hpos hle _ ?_ (Or.inr ?_)
  · rw [GenHandle.mk.injEq]
    exact ⟨rfl, hgen.symm⟩
  · show _ = (b.idFindSlot (b.order (b.idFind ref).index).orderRef).slot
    rw [href]

theorem executeOk_iff (h : BookInv b q) (ref : Nat) (qty : Int) :
    b.ExecuteOk ref qty ↔ qty ≤ 0 ∨ ref ≠ 0 := by
  constructor
  · intro hx
    by_cases hq : qty ≤ 0
    · exact Or.inl hq
    · exact Or.inr (hx (Int.not_le.mp hq)).1
  · intro hc hpos
    have hr : ref ≠ 0 := hc.resolve_left (Int.not_le.mpr hpos)
    exact ⟨hr, fun hf => ⟨valid_of_find h hr hf, fun hle => reduceOk_found h hr hf hpos hle⟩⟩

theorem removeOk_iff (h : BookInv b q) (ref : Nat) : b.RemoveOk ref ↔ ref ≠ 0 := by
  refine ⟨fun hx => hx.1, fun hr => ⟨hr, fun hf => ⟨valid_of_find h hr hf, ?_⟩⟩⟩
  obtain ⟨hl, _⟩ := h.idFind_live hr hf
  exact reduceOk_found h hr hf (h.pos _ hl) (Int.le_refl _)

theorem replaceOk_iff (h : b.Valid) (origRef newRef : Nat) (qty price : Int) :
    b.ReplaceOk origRef newRef qty price ↔ qty ≤ 0 ∨ ¬ b.inBand price
      ∨ origRef ≠ 0 ∧ (newRef ≠ 0 ∨ ∀ i, b.live i → (b.order i).orderRef = origRef →
        ¬ (b.ladderFor (b.order i).side).claimable price) := by
  constructor
  · intro hx
    by_cases hq : qty ≤ 0
    · exact Or.inl hq
    by_cases hband : b.inBand price
    swap
    · exact Or.inr (Or.inl hband)
    obtain ⟨hr, hfound⟩ := hx (Int.not_le.mp hq) hband
    refine Or.inr (Or.inr ⟨hr, ?_⟩)
    by_cases hn : newRef = 0
    swap
    · exact Or.inl hn
    -- the order replaced is live and its side has the page: reference zero is looked up
    refine Or.inr (fun i hi href hcl => ?_)
    have hidx : (b.idFind origRef).index = i :=
      (h.idFind_eq_iff hr (h.ne_null hi)).mpr ⟨hi, href⟩
    have hside : (b.arena.deref (b.idFind origRef)).side = (b.order i).side := by
      rw [Arena.deref, hidx]
      rfl
    have hlookup := ((hfound (by rw [hidx]; exact h.ne_null hi)).2 (by rw [hside]; exact hcl)).1
    exact hlookup (by rw [hn]; exact hr) hn
  · intro hc hpos hband
    obtain ⟨hr, hnew⟩ := (hc.resolve_left (Int.not_le.mpr hpos)).resolve_left (not_not.mpr hband)
    refine ⟨hr, fun hf => ⟨valid_of_find h hr hf, ?_⟩⟩
    obtain ⟨hi, href, _⟩ := h.idFind_live hr hf
    generalize hidx : (b.idFind origRef).index = i at *
    intro side hcl
    have hside : side = (b.order i).side := by
      show (b.arena.deref (b.idFind origRef)).side = _
      rw [Arena.deref, hidx]
      rfl
    rw [hside] at hcl
    have hn : newRef ≠ 0 := hnew.resolve_right (fun hno => hno i hi href hcl)
    refine ⟨fun _ => hn, fun hfree => ?_⟩
    have hrep : b.Replaceable i newRef qty price := by
      refine ⟨hpos, hband, hcl, ?_⟩
      by_cases he : newRef = (b.order i).orderRef
      · exact Or.inl he
      · exact Or.inr (not_not.mp (fun hnn => hfree ⟨by rw [← href]; exact Ne.symm he, hnn⟩))
    obtain ⟨hred, htick, _⟩ := remove_spec h hi
    rw [href] at hred htick
    refine ⟨(removeOk_iff h origRef).mpr hr, ?_, addOk hred.inv newRef side qty price, ?_⟩
    · rw [htick]
      exact TickKind.noConfusion
    · rcases add_cases hred.valid newRef side qty price with ⟨_, hok, _⟩ | ⟨hno, _⟩
      · exact hok
      · rw [hside] at hno
        exact absurd (hrep.addable h hi hn hred) hno

/-! ## A tick is a success or an error -/

/-- A call succeeds, or says which error it is and does nothing. -/
def Told (b : OrderBook k) (r : BookResult k) : Prop := r.tick.ok ∨ ∃ e, r = b.fail e

theorem told_fail (b : OrderBook k) (e : BookError) : b.Told (b.fail e) := Or.inr ⟨e, rfl⟩

theorem told_reduce (b : OrderBook k) (h : GenHandle) (qty : Int) {kind : TickKind}
    (hk : kind ≠ .tickError) (slotHint : Nat) : b.Told (b.reduce h qty kind slotHint) := by
  refine Or.inl ?_
  unfold reduce BookTick.ok
  dsimp only
  split
  · exact TickKind.noConfusion
  · exact hk

theorem told_add (b : OrderBook k) (ref : Nat) (s : Side) (qty price : Int) :
    b.Told (b.add ref s qty price) := by
  unfold add
  split
  · exact told_fail b _
  split
  · exact told_fail b _
  split
  · exact told_fail b _
  split
  · exact told_fail b _
  dsimp only
  split
  · exact told_fail b _
  split
  · exact told_fail b _
  · exact Or.inl TickKind.noConfusion

theorem told_execute (b : OrderBook k) (ref : Nat) (qty : Int) : b.Told (b.execute ref qty) := by
  unfold execute
  split
  · exact told_fail b _
  dsimp only
  split
  · exact told_fail b _
  split
  · exact told_fail b _
  · exact told_reduce b _ _ TickKind.noConfusion _

theorem told_remove (b : OrderBook k) (ref : Nat) : b.Told (b.remove ref) := by
  unfold remove
  dsimp only
  split
  · exact told_fail b _
  · exact told_reduce b _ _ TickKind.noConfusion _

theorem told_replace (b : OrderBook k) (origRef newRef : Nat) (qty price : Int) :
    b.Told (b.replace origRef newRef qty price) := by
  unfold replace
  split
  · exact told_fail b _
  split
  · exact told_fail b _
  dsimp only
  split
  · exact told_fail b _
  split
  · exact told_fail b _
  split
  · exact told_fail b _
  · exact Or.inl TickKind.noConfusion

theorem told_apply (b : OrderBook k) (m : Message) : b.Told (b.apply m) := by
  cases m with
  | addOrder m => exact told_add b _ _ _ _
  | addOrderAttribution m => exact told_add b _ _ _ _
  | orderExecuted m => exact told_execute b _ _
  | orderExecutedWithPrice m => exact told_execute b _ _
  | orderCancel m => exact told_execute b _ _
  | orderDelete m => exact told_remove b _
  | orderReplace m => exact told_replace b _ _ _ _

/-! ## Every message of every feed -/

/-- The call a message makes. -/
def callOf : Message → BookCall
  | .addOrder m => .add m.orderRef m.side m.shares m.price
  | .addOrderAttribution m => .add m.orderRef m.side m.shares m.price
  | .orderExecuted m => .execute m.orderRef m.executedShares
  | .orderExecutedWithPrice m => .execute m.orderRef m.executedShares
  | .orderCancel m => .cancel m.orderRef m.cancelledShares
  | .orderDelete m => .remove m.orderRef
  | .orderReplace m => .replace m.originalOrderRef m.newOrderRef m.shares m.price

theorem apply_eq_call (b : OrderBook k) (m : Message) : b.apply m = b.call (callOf m) := by
  cases m <;> rfl

theorem Valid.apply (h : b.Valid) (m : Message) : (b.apply m).book.Valid := by
  rw [apply_eq_call]
  exact h.call (by cases m <;> exact trivial)

theorem Valid.applyAll {feed : List Message} : ∀ {b : OrderBook k}, b.Valid →
    (b.applyAll feed).Valid := by
  induction feed with
  | nil => intro b h; exact h
  | cons m feed ih =>
      intro b h
      exact ih (h.apply m)

/-- A message trips no contract, and ends in a success or an error tick. -/
def Handles (b : OrderBook k) (m : Message) : Prop := b.ApplyOk m ∧ b.Told (b.apply m)

/-- The message does not make the book look up reference zero. -/
def NamesOrders (b : OrderBook k) : Message → Prop
  | .addOrder _ => True
  | .addOrderAttribution _ => True
  | .orderExecuted m => m.executedShares ≤ 0 ∨ m.orderRef ≠ 0
  | .orderExecutedWithPrice m => m.executedShares ≤ 0 ∨ m.orderRef ≠ 0
  | .orderCancel m => m.cancelledShares ≤ 0 ∨ m.orderRef ≠ 0
  | .orderDelete m => m.orderRef ≠ 0
  | .orderReplace m =>
      m.shares ≤ 0 ∨ ¬ b.inBand m.price
        ∨ m.originalOrderRef ≠ 0 ∧ (m.newOrderRef ≠ 0 ∨ ∀ i, b.live i →
          (b.order i).orderRef = m.originalOrderRef →
          ¬ (b.ladderFor (b.order i).side).claimable m.price)

theorem applyOk_iff (h : b.Valid) (m : Message) : b.ApplyOk m ↔ b.NamesOrders m := by
  cases m with
  | addOrder m => exact ⟨fun _ => trivial, fun _ => addOk h _ _ _ _⟩
  | addOrderAttribution m => exact ⟨fun _ => trivial, fun _ => addOk h _ _ _ _⟩
  | orderExecuted m => exact executeOk_iff h _ _
  | orderExecutedWithPrice m => exact executeOk_iff h _ _
  | orderCancel m => exact executeOk_iff h _ _
  | orderDelete m => exact removeOk_iff h _
  | orderReplace m => exact replaceOk_iff h _ _ _ _

end OrderBook

end Mog
