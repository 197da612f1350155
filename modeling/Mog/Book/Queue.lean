import Mog.Book.Inv

/-!
# Queue surgery: pushing at the tail and unlinking

`Relinked b b' s p` says that `b'` differs from `b` only in the links of orders and
in the head, tail and count of the level of side `s` at price `p`. Both `push_tail`
and `unlink` relink; what they do to the level's chain is stated beside.

Both primitives write a few cells, and which ones depends on whether the slot has neighbours.
The proofs state what each field reads after the writes, pointwise, and leave the shape of the
list to the chain library; what is not on the level keeps all its fields.
-/

namespace Mog

open LinkedChain PriceLadder

/-- What an order says apart from its links. -/
structure OrderView where
  orderRef : Nat
  qtyRemaining : Int
  priceTicks : Int
  side : Side
deriving DecidableEq, Repr

/-- What remains of an order when its links are left out. -/
def Order.view (o : Order) : OrderView := ⟨o.orderRef, o.qtyRemaining, o.priceTicks, o.side⟩

theorem Order.view_eq {o o' : Order} (h : o'.view = o.view) :
    o'.orderRef = o.orderRef ∧ o'.qtyRemaining = o.qtyRemaining ∧ o'.priceTicks = o.priceTicks
      ∧ o'.side = o.side := by
  simpa [Order.view] using h

namespace OrderBook

variable {k : Nat}

/-! ## What the primitive writes leave alone -/

/-- Setting one side's ladder leaves the other's. -/
@[simp] theorem ladderFor_setLadder (b : OrderBook k) (s t : Side) (l : PriceLadder k) :
    (b.setLadder s l).ladderFor t = if t = s then l else b.ladderFor t := by
  cases s <;> cases t <;> rfl

@[simp] theorem arena_setLadder (b : OrderBook k) (s : Side) (l : PriceLadder k) :
    (b.setLadder s l).arena = b.arena := by cases s <;> rfl

@[simp] theorem order_setLadder (b : OrderBook k) (s : Side) (l : PriceLadder k) (i : Nat) :
    (b.setLadder s l).order i = b.order i := by cases s <;> rfl

@[simp] theorem ladderFor_modifyOrder (b : OrderBook k) (i : Nat) (f : Order → Order) (t : Side) :
    (b.modifyOrder i f).ladderFor t = b.ladderFor t := by cases t <;> rfl

/-- Changing an order leaves the others. -/
theorem order_modifyOrder (b : OrderBook k) (i : Nat) (f : Order → Order) (j : Nat) :
    (b.modifyOrder i f).order j = if j = i then f (b.order i) else b.order j :=
  Arena.modify_atIndex b.arena i f j

@[simp] theorem order_modifyLevel (b : OrderBook k) (s : Side) (lv : LevelPtr) (f : Level → Level)
    (i : Nat) : (b.modifyLevel s lv f).order i = b.order i := order_setLadder b s _ i

/-- The table and the cached prices of two books agree. -/
structure SameRest (b b' : OrderBook k) : Prop where
  entries : b'.entries = b.entries
  tableCap : b'.tableCap = b.tableCap
  tableShift : b'.tableShift = b.tableShift
  tableSize : b'.tableSize = b.tableSize
  bestBid : b'.bestBid = b.bestBid
  bestAsk : b'.bestAsk = b.bestAsk

theorem SameRest.trans {b b' b'' : OrderBook k} (h : SameRest b b') (h' : SameRest b' b'') :
    SameRest b b'' :=
  ⟨h'.entries.trans h.entries, h'.tableCap.trans h.tableCap, h'.tableShift.trans h.tableShift,
    h'.tableSize.trans h.tableSize, h'.bestBid.trans h.bestBid, h'.bestAsk.trans h.bestAsk⟩

/-- A ladder is set without touching the rest of the book. -/
theorem sameRest_setLadder (b : OrderBook k) (s : Side) (l : PriceLadder k) :
    SameRest b (b.setLadder s l) := by cases s <;> exact ⟨rfl, rfl, rfl, rfl, rfl, rfl⟩

/-- The level behind `lv` is the one of side `s` at price `p`, on a claimed page. -/
structure At (b : OrderBook k) (s : Side) (p : Int) (lv : LevelPtr) : Prop where
  inv : LadderInv (b.ladderFor s)
  inBand : (b.ladderFor s).inBand p
  claimed : (b.ladderFor s).dir ((b.ladderFor s).dirIndex p) ≠ kNoPage
  ptr : lv = (b.ladderFor s).ptr p

/-- A pointer to a price's level reads that level. -/
theorem At.levelOf {b : OrderBook k} {s : Side} {p : Int} {lv : LevelPtr} (h : At b s p lv) :
    b.levelOf s lv = b.levelAt s p := by
  rw [OrderBook.levelOf, h.ptr]
  exact (levelAt_claimed h.inBand h.claimed).symm

/-- `b'` is `b` with some links rewritten, of orders and of the level of `s` at `p`. -/
structure Relinked (b b' : OrderBook k) (s : Side) (p : Int) : Prop where
  shape : Arena.SameShape b.arena b'.arena
  view : ∀ j, (b'.order j).view = (b.order j).view
  rest : SameRest b b'
  ladder : LadderInv (b'.ladderFor s)
  other : ∀ t, t ≠ s → b'.ladderFor t = b.ladderFor t
  level : ∀ p', p' ≠ p → (b'.ladderFor s).levelAt p' = (b.ladderFor s).levelAt p'
  qty : (b'.levelAt s p).qtyTotal = (b.levelAt s p).qtyTotal
  dir : (b'.ladderFor s).dir = (b.ladderFor s).dir
  lo : (b'.ladderFor s).lo = (b.ladderFor s).lo
  hi : (b'.ladderFor s).hi = (b.ladderFor s).hi
  poolLen : (b'.ladderFor s).poolLen = (b.ladderFor s).poolLen

section Relinked

variable {b b' b'' : OrderBook k} {s : Side} {p : Int} {lv : LevelPtr}

theorem Relinked.trans (h : Relinked b b' s p) (h' : Relinked b' b'' s p) : Relinked b b'' s p :=
  ⟨h.shape.trans h'.shape, fun j => (h'.view j).trans (h.view j), h.rest.trans h'.rest, h'.ladder,
    fun t ht => (h'.other t ht).trans (h.other t ht),
    fun p' hp => (h'.level p' hp).trans (h.level p' hp), h'.qty.trans h.qty, h'.dir.trans h.dir,
    h'.lo.trans h.lo, h'.hi.trans h.hi, h'.poolLen.trans h.poolLen⟩

/-- Relinking moves no level. -/
theorem Relinked.at (h : Relinked b b' s p) (ha : At b s p lv) : At b' s p lv := by
  have hdi : (b'.ladderFor s).dirIndex p = (b.ladderFor s).dirIndex p := by
    simp only [dirIndex, h.lo]
  have hof : (b'.ladderFor s).offsetOf p = (b.ladderFor s).offsetOf p := by
    simp only [offsetOf, h.lo]
  refine ⟨h.ladder, ?_, ?_, ?_⟩
  · unfold PriceLadder.inBand
    rw [h.lo, h.hi]
    exact ha.inBand
  · rw [hdi, h.dir]
    exact ha.claimed
  · rw [ha.ptr, PriceLadder.ptr, PriceLadder.ptr, hdi, hof, h.dir]

/-- Relinking claims no page. -/
theorem Relinked.touched (h : Relinked b b' s p) :
    (b'.ladderFor s).touched = (b.ladderFor s).touched := by
  simp only [PriceLadder.touched, dirLen, h.lo, h.hi, h.dir]

/-- Rewriting an order's links relinks. -/
theorem relinked_modifyOrder (ha : At b s p lv) (i : Nat) {f : Order → Order}
    (hf : ∀ o, (f o).view = o.view) : Relinked b (b.modifyOrder i f) s p where
  shape := Arena.sameShape_modify b.arena i f
  view := by
    intro j
    rw [order_modifyOrder]
    split
    · rename_i hj; rw [hj, hf]
    · rfl
  rest := ⟨rfl, rfl, rfl, rfl, rfl, rfl⟩
  ladder := by rw [ladderFor_modifyOrder]; exact ha.inv
  other := fun t _ => ladderFor_modifyOrder b i f t
  level := fun _ _ => by rw [ladderFor_modifyOrder]
  qty := by rw [OrderBook.levelAt, ladderFor_modifyOrder]; rfl
  dir := by rw [ladderFor_modifyOrder]
  lo := by rw [ladderFor_modifyOrder]
  hi := by rw [ladderFor_modifyOrder]
  poolLen := by rw [ladderFor_modifyOrder]

theorem levelAt_modifyOrder (i : Nat) (f : Order → Order) :
    (b.modifyOrder i f).levelAt s p = b.levelAt s p := by
  rw [OrderBook.levelAt, ladderFor_modifyOrder]; rfl

/-- A level is changed through its pointer. -/
theorem levelAt_modifyLevel (ha : At b s p lv) (f : Level → Level) :
    (b.modifyLevel s lv f).levelAt s p = f (b.levelAt s p) := by
  rw [OrderBook.levelAt, modifyLevel, ladderFor_setLadder, if_pos rfl, ha.levelOf, ha.ptr,
    setLevel_levelAt ha.inv ha.inBand ha.claimed, if_pos rfl]

/-- Rewriting the level's head, tail or count relinks. -/
theorem relinked_modifyLevel (ha : At b s p lv) {f : Level → Level}
    (hf : ∀ l, (f l).qtyTotal = l.qtyTotal) : Relinked b (b.modifyLevel s lv f) s p where
  shape := by rw [modifyLevel, arena_setLadder]; exact Arena.SameShape.refl _
  view := fun j => by rw [order_modifyLevel]
  rest := sameRest_setLadder b s _
  ladder := by
    rw [modifyLevel, ladderFor_setLadder, if_pos rfl, ha.levelOf, ha.ptr]
    exact setLevel_inv ha.inv ha.inBand ha.claimed (hf _)
  other := fun t ht => by rw [modifyLevel, ladderFor_setLadder, if_neg ht]
  level := fun p' hp => by
    rw [modifyLevel, ladderFor_setLadder, if_pos rfl, ha.ptr,
      setLevel_levelAt ha.inv ha.inBand ha.claimed, if_neg hp]
  qty := by rw [levelAt_modifyLevel ha, hf]
  dir := by rw [modifyLevel, ladderFor_setLadder, if_pos rfl]; rfl
  lo := by rw [modifyLevel, ladderFor_setLadder, if_pos rfl]; rfl
  hi := by rw [modifyLevel, ladderFor_setLadder, if_pos rfl]; rfl
  poolLen := by rw [modifyLevel, ladderFor_setLadder, if_pos rfl]; rfl

/-! ## Pushing at the tail -/

/-- **`push_tail` appends a slot to the level's chain** and relinks nothing else. -/
theorem pushTail_spec (ha : At b s p lv) {l : List Nat} {idx : Nat}
    (hc : Chain (fun i => (b.order i).next) (fun i => (b.order i).prev) kNullIndex
      (b.levelAt s p).head (b.levelAt s p).tail l)
    (hidx : idx ∉ l) (hnull : idx ≠ kNullIndex) :
    Relinked b (b.pushTail s lv idx) s p
      ∧ Chain (fun i => ((b.pushTail s lv idx).order i).next)
          (fun i => ((b.pushTail s lv idx).order i).prev) kNullIndex
          ((b.pushTail s lv idx).levelAt s p).head ((b.pushTail s lv idx).levelAt s p).tail
          (l ++ [idx])
      ∧ ((b.pushTail s lv idx).levelAt s p).count = (b.levelAt s p).count + 1
      ∧ ∀ j, j ≠ idx → j ∉ l → (b.pushTail s lv idx).order j = b.order j := by
  have htail : ∀ j, j ∈ l → j ≠ idx := fun j hj he => hidx (he ▸ hj)
  unfold pushTail
  dsimp only
  rw [ha.levelOf]
  generalize hlvl : b.levelAt s p = lvl at *
  -- the new order's own links
  have r1 := relinked_modifyOrder ha idx
    (f := fun o => { o with prev := lvl.tail, next := kNullIndex }) (fun _ => rfl)
  have l1 : (b.modifyOrder idx (fun o => { o with prev := lvl.tail, next := kNullIndex })).levelAt
      s p = lvl := by rw [levelAt_modifyOrder, hlvl]
  have o1 := order_modifyOrder b idx (fun o => { o with prev := lvl.tail, next := kNullIndex })
  generalize b.modifyOrder idx (fun o => { o with prev := lvl.tail, next := kNullIndex }) = b1 at *
  have a1 := r1.at ha
  by_cases ht : lvl.tail = kNullIndex
  · -- the level was empty: the slot is its head
    rw [if_neg (not_not.mpr ht)]
    have hnil : l = [] := hc.tail_eq_null.mp ht
    subst hnil
    have r2 := relinked_modifyLevel a1 (f := fun l => { l with head := idx }) (fun _ => rfl)
    have l2 := levelAt_modifyLevel a1 (fun l => { l with head := idx })
    have o2 := order_modifyLevel b1 s lv (fun l => { l with head := idx })
    generalize b1.modifyLevel s lv (fun l => { l with head := idx }) = b2 at *
    have a2 := r2.at a1
    have r3 := relinked_modifyLevel a2
      (f := fun l => { l with tail := idx, count := l.count + 1 }) (fun _ => rfl)
    have l3 := levelAt_modifyLevel a2 (fun l => { l with tail := idx, count := l.count + 1 })
    have o3 := order_modifyLevel b2 s lv (fun l => { l with tail := idx, count := l.count + 1 })
    rw [l2, l1] at l3
    refine ⟨(r1.trans r2).trans r3, ?_, by rw [l3], ?_⟩
    · rw [l3]
      have hord : ∀ j, (b2.modifyLevel s lv
          (fun l => { l with tail := idx, count := l.count + 1 })).order j
          = if j = idx then { b.order idx with prev := lvl.tail, next := kNullIndex }
            else b.order j := by
        intro j; rw [o3, o2, o1]
      have hsnoc : Chain (fun i => ((b2.modifyLevel s lv
            (fun l => { l with tail := idx, count := l.count + 1 })).order i).next)
          (fun i => ((b2.modifyLevel s lv
            (fun l => { l with tail := idx, count := l.count + 1 })).order i).prev)
          kNullIndex (if lvl.tail = kNullIndex then idx else lvl.head) idx ([] ++ [idx]) :=
        hc.snoc hidx hnull (by simp) (by simp) (fun hne => absurd ht hne)
        (by simp [hord]) (by simp [hord])
      rw [if_pos ht] at hsnoc
      exact hsnoc
    · intro j hj _
      rw [o3, o2, o1, if_neg hj]
  · -- the old tail leads to the slot
    rw [if_pos ht]
    have htm : lvl.tail ∈ l := hc.tail_mem ht
    have r2 := relinked_modifyOrder a1 lvl.tail (f := fun o => { o with next := idx })
      (fun _ => rfl)
    have l2 : (b1.modifyOrder lvl.tail (fun o => { o with next := idx })).levelAt s p = lvl := by
      rw [levelAt_modifyOrder, l1]
    have o2 := order_modifyOrder b1 lvl.tail (fun o => { o with next := idx })
    generalize b1.modifyOrder lvl.tail (fun o => { o with next := idx }) = b2 at *
    have a2 := r2.at a1
    have r3 := relinked_modifyLevel a2
      (f := fun l => { l with tail := idx, count := l.count + 1 }) (fun _ => rfl)
    have l3 := levelAt_modifyLevel a2 (fun l => { l with tail := idx, count := l.count + 1 })
    have o3 := order_modifyLevel b2 s lv (fun l => { l with tail := idx, count := l.count + 1 })
    rw [l2] at l3
    have hord : ∀ j, (b2.modifyLevel s lv
        (fun l => { l with tail := idx, count := l.count + 1 })).order j
        = if j = lvl.tail then { b.order lvl.tail with next := idx }
          else if j = idx then { b.order idx with prev := lvl.tail, next := kNullIndex }
          else b.order j := by
      intro j
      rw [o3, o2, o1, o1, if_neg (htail _ htm)]
    refine ⟨(r1.trans r2).trans r3, ?_, by rw [l3], ?_⟩
    · rw [l3]
      have hne : idx ≠ lvl.tail := (htail _ htm).symm
      have hsnoc : Chain (fun i => ((b2.modifyLevel s lv
            (fun l => { l with tail := idx, count := l.count + 1 })).order i).next)
          (fun i => ((b2.modifyLevel s lv
            (fun l => { l with tail := idx, count := l.count + 1 })).order i).prev)
          kNullIndex (if lvl.tail = kNullIndex then idx else lvl.head) idx (l ++ [idx]) :=
        hc.snoc hidx hnull
        (fun x hx hxt => by simp only [hord]; rw [if_neg hxt, if_neg (htail x hx)])
        (fun x hx => by
          simp only [hord]
          by_cases hxt : x = lvl.tail
          · rw [if_pos hxt, hxt]
          · rw [if_neg hxt, if_neg (htail x hx)])
        (fun _ => by simp [hord]) (by simp [hord, hne]) (by simp [hord, hne])
      rw [if_neg ht] at hsnoc
      exact hsnoc
    · intro j hj hjl
      have hjt : j ≠ lvl.tail := fun he => hjl (he ▸ htm)
      rw [hord, if_neg hjt, if_neg hj]

/-! ## Unlinking -/

/-- **`unlink` takes a slot out of the level's chain** and relinks nothing else. -/
theorem unlink_spec (ha : At b s p lv) {l : List Nat} {idx : Nat}
    (hc : Chain (fun i => (b.order i).next) (fun i => (b.order i).prev) kNullIndex
      (b.levelAt s p).head (b.levelAt s p).tail l)
    (hidx : idx ∈ l) :
    Relinked b (b.unlink s lv idx) s p
      ∧ Chain (fun i => ((b.unlink s lv idx).order i).next)
          (fun i => ((b.unlink s lv idx).order i).prev) kNullIndex
          ((b.unlink s lv idx).levelAt s p).head ((b.unlink s lv idx).levelAt s p).tail
          (l.erase idx)
      ∧ ((b.unlink s lv idx).levelAt s p).count = (b.levelAt s p).count - 1
      ∧ ∀ j, j ∉ l → (b.unlink s lv idx).order j = b.order j := by
  have hpm := hc.prv_mem hidx
  have hnm := hc.nxt_mem hidx
  have hnullm := hc.ne_null
  -- the backward side: the order before, or the head, now leads to the order after
  have back : ∃ b1, (if (b.order idx).prev ≠ kNullIndex
        then b.modifyOrder (b.order idx).prev (fun p => { p with next := (b.order idx).next })
        else b.modifyLevel s lv (fun l => { l with head := (b.order idx).next })) = b1
      ∧ Relinked b b1 s p
      ∧ (∀ j, b1.order j = if j = (b.order idx).prev ∧ j ∈ l
          then { b.order j with next := (b.order idx).next } else b.order j)
      ∧ b1.levelAt s p = { b.levelAt s p with
          head := if (b.order idx).prev = kNullIndex then (b.order idx).next
            else (b.levelAt s p).head } := by
    by_cases hp : (b.order idx).prev = kNullIndex
    · refine ⟨_, rfl, ?_⟩
      rw [if_neg (not_not.mpr hp)]
      refine ⟨relinked_modifyLevel ha (fun _ => rfl), fun j => ?_, ?_⟩
      · rw [order_modifyLevel, if_neg]
        rintro ⟨hj, hjl⟩
        exact hnullm (hp ▸ hj ▸ hjl)
      · rw [levelAt_modifyLevel ha, if_pos hp]
    · refine ⟨_, rfl, ?_⟩
      rw [if_pos hp]
      refine ⟨relinked_modifyOrder ha _ (fun _ => rfl), fun j => ?_, ?_⟩
      · rw [order_modifyOrder]
        by_cases hj : j = (b.order idx).prev
        · rw [if_pos hj, if_pos ⟨hj, hj ▸ hpm.resolve_left hp⟩, hj]
        · rw [if_neg hj, if_neg (fun hh => hj hh.1)]
      · rw [levelAt_modifyOrder, if_neg hp]
  obtain ⟨b1, hb1, r1, o1, l1⟩ := back
  have a1 := r1.at ha
  -- the forward side: the order after, or the tail, now comes from the order before
  have forth : ∃ b2, (if (b.order idx).next ≠ kNullIndex
        then b1.modifyOrder (b.order idx).next (fun n => { n with prev := (b.order idx).prev })
        else b1.modifyLevel s lv (fun l => { l with tail := (b.order idx).prev })) = b2
      ∧ Relinked b1 b2 s p
      ∧ (∀ j, b2.order j = if j = (b.order idx).next ∧ j ∈ l
          then { b1.order j with prev := (b.order idx).prev } else b1.order j)
      ∧ b2.levelAt s p = { b1.levelAt s p with
          tail := if (b.order idx).next = kNullIndex then (b.order idx).prev
            else (b1.levelAt s p).tail } := by
    by_cases hn : (b.order idx).next = kNullIndex
    · refine ⟨_, rfl, ?_⟩
      rw [if_neg (not_not.mpr hn)]
      refine ⟨relinked_modifyLevel a1 (fun _ => rfl), fun j => ?_, ?_⟩
      · rw [order_modifyLevel, if_neg]
        rintro ⟨hj, hjl⟩
        exact hnullm (hn ▸ hj ▸ hjl)
      · rw [levelAt_modifyLevel a1, if_pos hn]
    · refine ⟨_, rfl, ?_⟩
      rw [if_pos hn]
      refine ⟨relinked_modifyOrder a1 _ (fun _ => rfl), fun j => ?_, ?_⟩
      · rw [order_modifyOrder]
        by_cases hj : j = (b.order idx).next
        · rw [if_pos hj, if_pos ⟨hj, hj ▸ hnm.resolve_left hn⟩, hj]
        · rw [if_neg hj, if_neg (fun hh => hj hh.1)]
      · rw [levelAt_modifyOrder, if_neg hn]
  obtain ⟨b2, hb2, r2, o2, l2⟩ := forth
  have a2 := r2.at a1
  have hres : b.unlink s lv idx = b2.modifyLevel s lv (fun l => { l with count := l.count - 1 }) := by
    rw [← hb2, ← hb1]; rfl
  rw [hres]
  have r3 := relinked_modifyLevel a2 (f := fun l => { l with count := l.count - 1 }) (fun _ => rfl)
  have l3 := levelAt_modifyLevel a2 (fun l => { l with count := l.count - 1 })
  have o3 := order_modifyLevel b2 s lv (fun l => { l with count := l.count - 1 })
  rw [l2, l1] at l3
  refine ⟨(r1.trans r2).trans r3, ?_, by rw [l3], ?_⟩
  · rw [l3]
    refine hc.unlink hidx (fun x hx hxi => ?_) (fun x hx hxi => ?_)
    · simp only [o3, o2, o1]
      by_cases h1 : x = (b.order idx).next <;> by_cases h2 : x = (b.order idx).prev <;>
        simp [h1, h2, hx]
      all_goals simp_all
    · simp only [o3, o2, o1]
      by_cases h1 : x = (b.order idx).next <;> by_cases h2 : x = (b.order idx).prev <;>
        simp [h1, h2, hx]
      all_goals simp_all
  · intro j hj
    rw [o3, o2, if_neg (fun hh => hj hh.2), o1, if_neg (fun hh => hj hh.2)]

end Relinked

end OrderBook

end Mog
