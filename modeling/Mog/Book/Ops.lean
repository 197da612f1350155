import Mog.Book.Queue

/-!
# What the calls do to the queues

Two effects cover every call of the book. `Rested` is an order coming to rest at
the tail of its level; `Reduced` is a resting order losing quantity, and leaving
when nothing remains. `add`, `execute`, `execute_front`, `remove` and `replace`
either fail and leave the book as it was or have one of the two effects (`replace`
both, one after the other). Each effect keeps the book invariant.

The proofs go through two more intermediate steps that are no calls of the book: a level that
has been `Lowered` and an order that has been `Cut` out. They end with a best price that may
have drained, which `refill_best` then moves to the next occupied one. A call that fails does so
before its first write, so nothing is to be undone.
-/

namespace Mog

open LinkedChain PriceLadder LinearProbe

namespace OrderBook

variable {k : Nat} {b b' : OrderBook k} {q : Side → Int → List Nat}

/-- Capacity, band and page pools of two books agree. -/
structure SameConfig (b b' : OrderBook k) : Prop where
  capacity : b'.arena.capacity = b.arena.capacity
  lo : ∀ t, (b'.ladderFor t).lo = (b.ladderFor t).lo
  hi : ∀ t, (b'.ladderFor t).hi = (b.ladderFor t).hi
  poolLen : ∀ t, (b'.ladderFor t).poolLen = (b.ladderFor t).poolLen

theorem SameConfig.refl (b : OrderBook k) : SameConfig b b :=
  ⟨rfl, fun _ => rfl, fun _ => rfl, fun _ => rfl⟩

theorem SameConfig.trans {b'' : OrderBook k} (h : SameConfig b b') (h' : SameConfig b' b'') :
    SameConfig b b'' :=
  ⟨h'.capacity.trans h.capacity, fun t => (h'.lo t).trans (h.lo t),
    fun t => (h'.hi t).trans (h.hi t), fun t => (h'.poolLen t).trans (h.poolLen t)⟩

theorem SameConfig.dirIndex (h : SameConfig b b') (s : Side) (p : Int) :
    (b'.ladderFor s).dirIndex p = (b.ladderFor s).dirIndex p := by
  simp only [PriceLadder.dirIndex, h.lo]

theorem SameConfig.inBand_iff (h : SameConfig b b') (p : Int) : b'.inBand p ↔ b.inBand p := by
  have h1 := h.lo .buy
  have h2 := h.hi .buy
  simp only [ladderFor] at h1 h2
  simp only [OrderBook.inBand, PriceLadder.inBand, h1, h2]

theorem SameRest.best {b b' : OrderBook k} (h : SameRest b b') (s : Side) : b'.best s = b.best s := by
  cases s
  · exact h.bestBid
  · exact h.bestAsk

/-! ## Shared pieces -/

theorem shape_congr (hcap : b'.tableCap = b.tableCap) (hshift : b'.tableShift = b.tableShift) :
    b'.shape = b.shape := by
  have hhome : b'.probeStart = b.probeStart := funext fun r => by simp only [probeStart, hshift]
  rw [OrderBook.shape, OrderBook.shape, hcap, hhome]

/-- A lookup reads the entries and the table's shape. -/
theorem idFindSlot_congr (hent : b'.entries = b.entries) (hcap : b'.tableCap = b.tableCap)
    (hshift : b'.tableShift = b.tableShift) (r : Nat) : b'.idFindSlot r = b.idFindSlot r := by
  have hprobe : ∀ fuel i, b'.probe r fuel i = b.probe r fuel i := by
    intro fuel
    induction fuel with
    | zero => intro i; rfl
    | succ fuel ih => intro i; rw [probe, probe, hent, hcap, ih]
  rw [idFindSlot, idFindSlot, hprobe, hcap]
  simp only [probeStart, hshift]

/-- The table of a book whose entries map exactly the live slots has an empty cell left. -/
theorem tableInv_of_holds {fl : List Nat} (harena : b.arena.Inv fl)
    (hpow : ∃ e, b.tableCap = 2 ^ e ∧ e ≤ 64 ∧ b.tableShift = 64 - e)
    (hprobing : b.shape.Inv b.entries) (hcap : 2 * b.arena.capacity ≤ b.tableCap)
    (hholds : ∀ r h, r ≠ 0 → b.holds r h → b.live h.index ∧ (b.order h.index).orderRef = r) :
    TableInv b := by
  refine ⟨hpow, hprobing, ?_⟩
  have hpos : 0 < b.tableCap := by
    obtain ⟨e, he, _⟩ := hpow
    rw [he]
    exact Nat.two_pow_pos e
  -- the keys are references of live slots, so they are at most as many
  have hsub : b.shape.keys b.entries ⊆ b.arena.liveSlots.image (fun i => (b.order i).orderRef) := by
    intro r hr
    obtain ⟨x, hx, hocc, hkey⟩ := Shape.mem_keys.mp hr
    have hr0 : r ≠ 0 := by rw [← hkey]; exact hocc
    have hkey' : (b.entries x).ref = r := hkey
    have hh := hholds r (b.entries x).handle hr0 ⟨x, hx, by rw [Entry.mk.injEq]; exact ⟨hkey', rfl⟩⟩
    exact Finset.mem_image.mpr ⟨_, harena.mem_liveSlots.mpr hh.1, hh.2⟩
  have hcard := (Finset.card_le_card hsub).trans Finset.card_image_le
  rw [← Shape.size_eq_card_keys hprobing, harena.card_liveSlots] at hcard
  have hle := harena.liveCount_le
  have hlt : b.shape.size b.entries < b.shape.cap := by
    show b.shape.size b.entries < b.tableCap
    omega
  exact Shape.exists_empty hlt

/-- A chain reads its own orders. -/
theorem OnLevel.congr {lv : Level} {l : List Nat} (h : OnLevel b lv l)
    (ho : ∀ i ∈ l, b'.order i = b.order i) : OnLevel b' lv l where
  chain := h.chain.congr (fun i hi => by rw [ho i hi]) (fun i hi => by rw [ho i hi])
  total := by
    rw [h.total]
    congr 1
    exact List.map_congr_left (fun i hi => by rw [rem, rem, ho i hi])
  count := h.count

/-- What changing a total of side `s` at price `p` by `delta` does to the book. -/
structure Totalled (b b' : OrderBook k) (s : Side) (p delta : Int) (lv : LevelPtr) : Prop where
  at' : At b' s p lv
  level : ∀ t p', b'.levelAt t p' = if t = s ∧ p' = p
    then { b.levelAt s p with qtyTotal := (b.levelAt s p).qtyTotal + delta } else b.levelAt t p'
  ladder : ∀ t, LadderInv (b'.ladderFor t)
  order : ∀ i, b'.order i = b.order i
  arena : b'.arena = b.arena
  rest : SameRest b b'
  config : SameConfig b b'
  touched : ∀ t, (b'.ladderFor t).touched = if t = s
    then insert ((b.ladderFor s).dirIndex p) (b.ladderFor s).touched else (b.ladderFor t).touched

/-- A ladder that takes in a change of one level's total. -/
theorem totalled_apply (hlad : ∀ t, LadderInv (b.ladderFor t)) {s : Side} {p : Int}
    (hin : (b.ladderFor s).inBand p) (hcl : (b.ladderFor s).claimable p) (delta : Int) :
    Totalled b (b.setLadder s ((b.ladderFor s).apply p delta).1) s p delta
      ((b.ladderFor s).apply p delta).2 := by
  have ha := apply_spec (hlad s) hin hcl delta
  generalize (b.ladderFor s).apply p delta = r at *
  have hs : (b.setLadder s r.1).ladderFor s = r.1 := by rw [ladderFor_setLadder, if_pos rfl]
  have ho : ∀ t, t ≠ s → (b.setLadder s r.1).ladderFor t = b.ladderFor t := fun t ht => by
    rw [ladderFor_setLadder, if_neg ht]
  refine
    { at' := ⟨by rw [hs]; exact ha.inv, ?_, by rw [hs]; exact ha.claimed, by rw [hs]; exact ha.ptr⟩,
      level := ?_, ladder := ?_, order := fun i => order_setLadder b s _ i,
      arena := arena_setLadder b s _, rest := sameRest_setLadder b s _, config := ?_,
      touched := ?_ }
  · rw [hs]
    unfold PriceLadder.inBand
    rw [ha.lo, ha.hi]
    exact hin
  · intro t p'
    by_cases ht : t = s
    · subst ht
      rw [OrderBook.levelAt, hs, ha.levelAt]
      simp only [true_and]
      rfl
    · rw [OrderBook.levelAt, ho t ht, if_neg (fun hh => ht hh.1)]
      rfl
  · intro t
    by_cases ht : t = s
    · subst ht; rw [hs]; exact ha.inv
    · rw [ho t ht]; exact hlad t
  · refine ⟨by rw [arena_setLadder], fun t => ?_, fun t => ?_, fun t => ?_⟩
    all_goals
      by_cases ht : t = s
      · subst ht; rw [hs]; first | exact ha.lo | exact ha.hi | exact ha.poolLen
      · rw [ho t ht]
  · intro t
    by_cases ht : t = s
    · subst ht; rw [hs, if_pos rfl]; exact ha.touched
    · rw [ho t ht, if_neg ht]

/-- What relinking keeps of the configuration and of the pages touched. -/
theorem Relinked.config {s : Side} {p : Int} (h : Relinked b b' s p) : SameConfig b b' := by
  refine ⟨h.shape.capacity, fun t => ?_, fun t => ?_, fun t => ?_⟩
  all_goals
    by_cases ht : t = s
    · subst ht; first | exact h.lo | exact h.hi | exact h.poolLen
    · rw [h.other t ht]

theorem Relinked.touched_all {s : Side} {p : Int} (h : Relinked b b' s p) (t : Side) :
    (b'.ladderFor t).touched = (b.ladderFor t).touched := by
  by_cases ht : t = s
  · subst ht; exact h.touched
  · rw [h.other t ht]

theorem Relinked.ladder_all {s : Side} {p : Int} (h : Relinked b b' s p)
    (hlad : ∀ t, LadderInv (b.ladderFor t)) (t : Side) : LadderInv (b'.ladderFor t) := by
  by_cases ht : t = s
  · subst ht; exact h.ladder
  · rw [h.other t ht]; exact hlad t

/-- Relinking one level leaves the others. -/
theorem Relinked.levelAt_other {s t : Side} {p p' : Int} (h : Relinked b b' s p)
    (hne : ¬ (t = s ∧ p' = p)) : b'.levelAt t p' = b.levelAt t p' := by
  by_cases ht : t = s
  · subst ht
    exact h.level p' (fun hp => hne ⟨rfl, hp⟩)
  · rw [OrderBook.levelAt, h.other t ht]; rfl

theorem band_of_config (hb : b.askLadder.lo = b.bidLadder.lo ∧ b.askLadder.hi = b.bidLadder.hi)
    (hc : SameConfig b b') :
    b'.askLadder.lo = b'.bidLadder.lo ∧ b'.askLadder.hi = b'.bidLadder.hi := by
  have h1 := hc.lo .sell
  have h2 := hc.lo .buy
  have h3 := hc.hi .sell
  have h4 := hc.hi .buy
  simp only [ladderFor] at h1 h2 h3 h4
  rw [h1, h2, h3, h4]
  exact hb

/-! ## An order comes to rest -/

/-- The order in slot `i` has come to rest at the tail of side `s` at `price`. -/
structure Rested (b : OrderBook k) (q : Side → Int → List Nat) (b' : OrderBook k) (i : Nat)
    (v : OrderView) : Prop where
  inv : BookInv b' (setQueue q v.side v.priceTicks (q v.side v.priceTicks ++ [i]))
  fresh : ¬ b.live i
  live : ∀ j, b'.live j ↔ j = i ∨ b.live j
  self : (b'.order i).view = v
  frame : ∀ j, j ≠ i → (b'.order j).view = (b.order j).view
  generation : ∀ j, j ≠ i → (b'.arena.slots j).generation = (b.arena.slots j).generation
  count : b'.arena.liveCount = b.arena.liveCount + 1
  touched : ∀ t, (b'.ladderFor t).touched = if t = v.side
    then insert ((b.ladderFor t).dirIndex v.priceTicks) (b.ladderFor t).touched
    else (b.ladderFor t).touched
  config : SameConfig b b'

/-- Raising the best price covers one more occupied price. -/
theorem isBest_insert {s : Side} {occ occ' : Int → Prop} {r p : Int} (h : IsBest s occ r)
    (hp : p ≠ kNoTick) (hocc : ∀ x, occ' x ↔ x = p ∨ occ x) :
    IsBest s occ' (if r = kNoTick ∨ better s p r then p else r) := by
  rcases h with ⟨h1, h2⟩ | ⟨h1, h2, h3⟩
  · rw [if_pos (Or.inl h1)]
    refine Or.inr ⟨hp, (hocc p).mpr (Or.inl rfl), fun x hx => ?_⟩
    rcases (hocc x).mp hx with hxp | hx'
    · rw [hxp]; exact atLeastAsGood_refl s p
    · exact absurd hx' (h2 x)
  · by_cases hb : better s p r
    · rw [if_pos (Or.inr hb)]
      refine Or.inr ⟨hp, (hocc p).mpr (Or.inl rfl), fun x hx => ?_⟩
      have hpr : atLeastAsGood s p r := (atLeastAsGood_total s p r).resolve_right hb
      rcases (hocc x).mp hx with hxp | hx'
      · rw [hxp]; exact atLeastAsGood_refl s p
      · exact atLeastAsGood_trans hpr (h3 x hx')
    · rw [if_neg (fun hh => hh.elim h1 hb)]
      refine Or.inr ⟨h1, (hocc r).mpr (Or.inr h2), fun x hx => ?_⟩
      rcases (hocc x).mp hx with hxp | hx'
      · rw [hxp]; exact not_not.mp hb
      · exact h3 x hx'

/-- A better price becomes its side's best. -/
theorem raiseBest_best (b : OrderBook k) (s t : Side) (p : Int) :
    (b.raiseBest s p).best t
      = if t = s then if b.best s = kNoTick ∨ better s p (b.best s) then p else b.best s
        else b.best t := by
  have hgt : ∀ r : Int, better .buy p r ↔ r < p := by intro r; simp [better, atLeastAsGood]
  have hlt : ∀ r : Int, better .sell p r ↔ p < r := by intro r; simp [better, atLeastAsGood]
  cases s <;> cases t <;> simp only [raiseBest, best, hgt, hlt] <;> split <;> simp_all

/-- `raiseBest` writes a cached best price and nothing else. -/
theorem raiseBest_same (b : OrderBook k) (s : Side) (p : Int) :
    (b.raiseBest s p).arena = b.arena ∧ (b.raiseBest s p).entries = b.entries
      ∧ (b.raiseBest s p).tableCap = b.tableCap ∧ (b.raiseBest s p).tableShift = b.tableShift
      ∧ (b.raiseBest s p).tableSize = b.tableSize
      ∧ (b.raiseBest s p).bidLadder = b.bidLadder ∧ (b.raiseBest s p).askLadder = b.askLadder := by
  cases s
  all_goals
    unfold raiseBest
    dsimp only
    refine ⟨?_, ?_, ?_, ?_, ?_, ?_, ?_⟩ <;> split <;> rfl

/-- The book with other cached prices is another book with the same core. -/
theorem BookCore.congr_best (h : BookCore b q) (harena : b'.arena = b.arena)
    (hent : b'.entries = b.entries) (hcap : b'.tableCap = b.tableCap)
    (hshift : b'.tableShift = b.tableShift) (hsize : b'.tableSize = b.tableSize)
    (hbid : b'.bidLadder = b.bidLadder) (hask : b'.askLadder = b.askLadder) : BookCore b' q := by
  obtain ⟨a, l1, l2, c, sh, sz, e, bb, ba⟩ := b
  obtain ⟨a', l1', l2', c', sh', sz', e', bb', ba'⟩ := b'
  dsimp only at *
  subst harena hent hcap hshift hsize hbid hask
  exact ⟨h.arena, ⟨h.table.pow, h.table.probing, h.table.room⟩, h.tableCap,
    fun s => by cases s; exact h.ladder .buy; exact h.ladder .sell, h.band,
    fun s p => by
      have := h.level s p
      cases s <;> exact ⟨this.chain, this.total, this.count⟩,
    h.mem, h.pos, h.ref, h.holds, h.size⟩

/-- Slot `i` has been acquired for the order and its cell written, and nothing else. -/
structure Stored (b b' : OrderBook k) (i : Nat) (v : OrderView) : Prop where
  arena : ∃ fl, b'.arena.Inv fl
  fresh : ¬ b.live i
  ne_null : i ≠ kNullIndex
  live : ∀ j, b'.live j ↔ j = i ∨ b.live j
  self : (b'.order i).view = v
  order : ∀ j, j ≠ i → b'.order j = b.order j
  generation : ∀ j, j ≠ i → (b'.arena.slots j).generation = (b.arena.slots j).generation
  capacity : b'.arena.capacity = b.arena.capacity
  count : b'.arena.liveCount = b.arena.liveCount + 1
  ladder : ∀ t, b'.ladderFor t = b.ladderFor t
  best : ∀ t, b'.best t = b.best t
  holds : ∀ r h, r ≠ 0 → (b'.holds r h ↔ b'.live h.index ∧ (b'.order h.index).orderRef = r
    ∧ (b'.arena.slots h.index).generation = h.generation)
  table : TableInv b'
  tableCap : b'.tableCap = b.tableCap
  tableSize : b'.tableSize = b'.arena.liveCount

theorem Stored.levelAt {i : Nat} {v : OrderView} (h : Stored b b' i v) (t : Side) (p : Int) :
    b'.levelAt t p = b.levelAt t p := by rw [OrderBook.levelAt, h.ladder]; rfl

/-- **An order is stored** in a fresh slot under its reference. -/
theorem store_spec (h : BookInv b q) {o : Order} (href : o.orderRef ≠ 0)
    (hdup : ∀ i, b.live i → (b.order i).orderRef ≠ o.orderRef)
    (hroom : b.arena.liveCount < b.arena.capacity) :
    ¬ (b.arena.acquire o).1.isNull
      ∧ Stored b (({ b with arena := (b.arena.acquire o).2 } : OrderBook k).idInsertAt
          (b.idFindSlot o.orderRef).slot o.orderRef (b.arena.acquire o).1)
        (b.arena.acquire o).1.index o.view := by
  obtain ⟨fl, hfl⟩ := h.arena
  obtain ⟨_, hslot, hfree, hfound⟩ := h.idFindSlot_dead href hdup
  obtain ⟨hnn, hacq⟩ := Arena.acquire_spec hfl hroom o
  refine ⟨hnn, ?_⟩
  generalize b.arena.acquire o = acq at *
  obtain ⟨hd, a'⟩ := acq
  dsimp only at *
  have hfresh : ¬ b.live hd.index := by rw [OrderBook.live, hacq.fresh]; simp
  have hlive : ∀ j, (a'.slots j).live = true ↔ j = hd.index ∨ b.live j := by
    intro j
    by_cases hj : j = hd.index
    · rw [hj, hacq.live]; simp
    · rw [hacq.frame j hj]; simp [hj, OrderBook.live]
  have hself : (a'.atIndex hd.index).view = o.view := by rw [hacq.value]
  have hother : ∀ j, j ≠ hd.index → a'.atIndex j = b.order j := fun j hj => by
    rw [Arena.atIndex, hacq.frame j hj]; rfl
  have hholds : ∀ r hh, r ≠ 0 → ((({ b with arena := a' } : OrderBook k).idInsertAt
      (b.idFindSlot o.orderRef).slot o.orderRef hd).holds r hh ↔ (a'.slots hh.index).live = true
        ∧ (a'.atIndex hh.index).orderRef = r ∧ (a'.slots hh.index).generation = hh.generation) := by
    intro r hh hr
    rw [idInsertAt_holds (b := { b with arena := a' }) hslot hfree hr hh, hlive]
    have hold : ({ b with arena := a' } : OrderBook k).holds r hh ↔ b.holds r hh := Iff.rfl
    rw [hold, h.holds r hh hr]
    by_cases hj : hh.index = hd.index
    · -- the cell just written
      have hdead : ¬ b.live hh.index := by rw [hj]; exact hfresh
      rw [hj, hacq.generation, hacq.value]
      rw [hj] at hdead
      simp only [hdead, false_and, or_false, true_and]
      constructor
      · rintro ⟨h1, h2⟩
        rw [h1, h2]
        exact ⟨rfl, rfl⟩
      · rintro ⟨h1, h2⟩
        exact ⟨h1.symm, by rw [GenHandle.mk.injEq]; exact ⟨hj, h2.symm⟩⟩
    · have hne : ¬ (r = o.orderRef ∧ hh = hd) := fun hc => hj (by rw [hc.2])
      rw [hother _ hj, hacq.frame _ hj]
      simp [hne, hj]
  obtain ⟨fl', hfl'⟩ := hacq.inv
  refine
    { arena := ⟨fl', hfl'⟩, fresh := hfresh, ne_null := hnn, live := hlive, self := hself,
      order := hother, generation := fun j hj => by
        show (a'.slots j).generation = _
        rw [hacq.frame j hj],
      capacity := hacq.capacity, count := hacq.count,
      ladder := fun t => by cases t <;> rfl, best := fun t => by cases t <;> rfl,
      holds := hholds, table := ?_, tableCap := rfl, tableSize := ?_ }
  · refine tableInv_of_holds hfl' h.table.pow
      (idInsertAt_probing (b := { b with arena := a' }) ⟨h.table.pow, h.table.probing, h.table.room⟩
        href hfound hfree) ?_ (fun r hh hr hhd => ?_)
    · show 2 * a'.capacity ≤ b.tableCap
      rw [hacq.capacity]
      exact h.tableCap
    · have := (hholds r hh hr).mp hhd
      exact ⟨this.1, this.2.1⟩
  · show b.tableSize + 1 = a'.liveCount
    rw [hacq.count, h.size]

/-- The stored order has joined its level: everything `rest` does short of the best price. -/
structure Pushed (b : OrderBook k) (q : Side → Int → List Nat) (b' : OrderBook k) (i : Nat)
    (v : OrderView) : Prop where
  shape : ∃ b1 : OrderBook k, Stored b b1 i v ∧ Arena.SameShape b1.arena b'.arena
    ∧ SameRest b1 b' ∧ (∀ j, (b'.order j).view = (b1.order j).view)
  order : ∀ j, j ≠ i → j ∉ q v.side v.priceTicks → b'.order j = b.order j
  chain : Chain (fun i => (b'.order i).next) (fun i => (b'.order i).prev) kNullIndex
    (b'.levelAt v.side v.priceTicks).head (b'.levelAt v.side v.priceTicks).tail
    (q v.side v.priceTicks ++ [i])
  total : (b'.levelAt v.side v.priceTicks).qtyTotal
    = (b.levelAt v.side v.priceTicks).qtyTotal + v.qtyRemaining
  count : (b'.levelAt v.side v.priceTicks).count = (b.levelAt v.side v.priceTicks).count + 1
  level : ∀ t p, ¬ (t = v.side ∧ p = v.priceTicks) → b'.levelAt t p = b.levelAt t p
  ladder : ∀ t, LadderInv (b'.ladderFor t)
  config : SameConfig b b'
  touched : ∀ t, (b'.ladderFor t).touched = if t = v.side
    then insert ((b.ladderFor t).dirIndex v.priceTicks) (b.ladderFor t).touched
    else (b.ladderFor t).touched

/-- **It joins its level's queue** at the end. -/
theorem push_spec (h : BookInv b q) {b1 : OrderBook k} {i : Nat} {v : OrderView}
    (hst : Stored b b1 i v) (hin : (b.ladderFor v.side).inBand v.priceTicks)
    (hcl : (b.ladderFor v.side).claimable v.priceTicks) :
    Pushed b q ((b1.setLadder v.side
        ((b1.ladderFor v.side).apply v.priceTicks v.qtyRemaining).1).pushTail v.side
        ((b1.ladderFor v.side).apply v.priceTicks v.qtyRemaining).2 i) i v := by
  have hnot : ∀ t p, i ∉ q t p := fun t p hm => hst.fresh ((h.mem t p i).mp hm).1
  have htot := totalled_apply (b := b1) (fun t => by rw [hst.ladder]; exact h.ladder t)
    (by rw [hst.ladder]; exact hin) (by rw [hst.ladder]; exact hcl) v.qtyRemaining
  generalize (b1.ladderFor v.side).apply v.priceTicks v.qtyRemaining = r at *
  generalize b1.setLadder v.side r.1 = b2 at *
  have hord2 : ∀ j, j ≠ i → b2.order j = b.order j := fun j hj => by
    rw [htot.order, hst.order j hj]
  have hlev1 := hst.levelAt
  have hlev2 := htot.level v.side v.priceTicks
  rw [if_pos ⟨rfl, rfl⟩, hlev1] at hlev2
  have hchain2 : Chain (fun i => (b2.order i).next) (fun i => (b2.order i).prev) kNullIndex
      (b2.levelAt v.side v.priceTicks).head (b2.levelAt v.side v.priceTicks).tail
      (q v.side v.priceTicks) := by
    rw [hlev2]
    refine (h.level v.side v.priceTicks).chain.congr (fun j hj => ?_) (fun j hj => ?_)
    all_goals rw [hord2 j (fun he => hnot _ _ (he ▸ hj))]
  obtain ⟨hrel, hchain, hcount, hord⟩ := pushTail_spec htot.at' hchain2 (hnot _ _) hst.ne_null
  refine
    { shape := ⟨b1, hst, ?_, htot.rest.trans hrel.rest, fun j => by rw [hrel.view, htot.order]⟩,
      order := fun j hj hjq => by rw [hord j hj hjq, hord2 j hj], chain := hchain,
      total := by rw [hrel.qty, hlev2], count := by rw [hcount, hlev2], level := ?_,
      ladder := hrel.ladder_all htot.ladder, config := ?_, touched := ?_ }
  · have hsh := hrel.shape
    rwa [htot.arena] at hsh
  · intro t p hne
    rw [hrel.levelAt_other hne, htot.level, if_neg hne, hlev1]
  · refine SameConfig.trans ⟨hst.capacity, ?_, ?_, ?_⟩ (htot.config.trans hrel.config)
    all_goals intro t; rw [hst.ladder]
  · intro t
    rw [hrel.touched_all, htot.touched]
    by_cases ht : t = v.side
    · subst ht; rw [if_pos rfl, if_pos rfl, hst.ladder]
    · rw [if_neg ht, if_neg ht, hst.ladder]

namespace Pushed

variable {i : Nat} {v : OrderView}

theorem fresh (hp : Pushed b q b' i v) : ¬ b.live i := by
  obtain ⟨_, hst, _⟩ := hp.shape
  exact hst.fresh

theorem live (hp : Pushed b q b' i v) (j : Nat) : b'.live j ↔ j = i ∨ b.live j := by
  obtain ⟨b1, hst, hsh, _⟩ := hp.shape
  rw [← hst.live j, OrderBook.live, hsh.live]
  rfl

theorem self (hp : Pushed b q b' i v) : (b'.order i).view = v := by
  obtain ⟨b1, hst, _, _, hview⟩ := hp.shape
  rw [hview, hst.self]

theorem frame (hp : Pushed b q b' i v) {j : Nat} (hj : j ≠ i) :
    (b'.order j).view = (b.order j).view := by
  obtain ⟨b1, hst, _, _, hview⟩ := hp.shape
  rw [hview, hst.order j hj]

theorem generation (hp : Pushed b q b' i v) {j : Nat} (hj : j ≠ i) :
    (b'.arena.slots j).generation = (b.arena.slots j).generation := by
  obtain ⟨b1, hst, hsh, _⟩ := hp.shape
  rw [hsh.generation, hst.generation j hj]

theorem liveCount (hp : Pushed b q b' i v) : b'.arena.liveCount = b.arena.liveCount + 1 := by
  obtain ⟨b1, hst, hsh, _⟩ := hp.shape
  rw [hsh.liveCount, hst.count]

theorem best (hp : Pushed b q b' i v) (t : Side) : b'.best t = b.best t := by
  obtain ⟨b1, hst, _, hrest, _⟩ := hp.shape
  rw [hrest.best, hst.best]

theorem rem_other (hp : Pushed b q b' i v) {j : Nat} (hj : j ≠ i) : b'.rem j = b.rem j :=
  (Order.view_eq (hp.frame hj)).2.1

theorem self_eq (hp : Pushed b q b' i v) :
    (b'.order i).orderRef = v.orderRef ∧ b'.rem i = v.qtyRemaining
      ∧ (b'.order i).priceTicks = v.priceTicks ∧ (b'.order i).side = v.side := by
  have := hp.self
  obtain ⟨r, qt, pr, sd⟩ := v
  simpa [Order.view, OrderBook.rem] using this

/-- The table side of the push. -/
theorem table (hp : Pushed b q b' i v) :
    TableInv b' ∧ b'.tableCap = b.tableCap ∧ b'.tableSize = b'.arena.liveCount
      ∧ ∀ r h, r ≠ 0 → (b'.holds r h ↔ b'.live h.index ∧ (b'.order h.index).orderRef = r
        ∧ (b'.arena.slots h.index).generation = h.generation) := by
  obtain ⟨b1, hst, hsh, hrest, hview⟩ := hp.shape
  have hshape := shape_congr hrest.tableCap hrest.tableShift
  refine ⟨⟨?_, ?_, ?_⟩, hrest.tableCap.trans hst.tableCap, ?_, ?_⟩
  · rw [hrest.tableCap, hrest.tableShift]; exact hst.table.pow
  · rw [hshape, hrest.entries]; exact hst.table.probing
  · rw [hshape, hrest.entries, hrest.tableCap]; exact hst.table.room
  · rw [hrest.tableSize, hst.tableSize, hsh.liveCount]
  · intro r h hr
    have hsame : b'.holds r h ↔ b1.holds r h := by
      unfold OrderBook.holds; rw [hrest.entries, hrest.tableCap]
    rw [hsame, hst.holds r h hr, (Order.view_eq (hview h.index)).1, hsh.generation, OrderBook.live,
      OrderBook.live, hsh.live]

theorem onLevel (h : BookInv b q) (hp : Pushed b q b' i v) (t : Side) (p : Int) :
    OnLevel b' (b'.levelAt t p)
      (setQueue q v.side v.priceTicks (q v.side v.priceTicks ++ [i]) t p) := by
  have hnot : ∀ t p, i ∉ q t p := fun t p hm => hp.fresh ((h.mem t p i).mp hm).1
  by_cases hsp : t = v.side ∧ p = v.priceTicks
  · obtain ⟨rfl, rfl⟩ := hsp
    rw [setQueue_self]
    refine ⟨hp.chain, ?_, ?_⟩
    · have hmap : (q v.side v.priceTicks).map b'.rem = (q v.side v.priceTicks).map b.rem :=
        List.map_congr_left (fun j hj => hp.rem_other (fun he => hnot _ _ (he ▸ hj)))
      rw [hp.total, List.map_append, List.sum_append, hmap, (h.level _ _).total]
      simp [hp.self_eq.2.1]
    · rw [hp.count, (h.level _ _).count, List.length_append]
      rfl
  · rw [setQueue_other hsp, hp.level t p hsp]
    refine (h.level t p).congr (fun j hj => hp.order j (fun he => hnot _ _ (he ▸ hj)) ?_)
    exact fun hm => hsp (h.mem_unique hj hm)

theorem mem (h : BookInv b q) (hp : Pushed b q b' i v) (t : Side) (p : Int) (j : Nat) :
    j ∈ setQueue q v.side v.priceTicks (q v.side v.priceTicks ++ [i]) t p
      ↔ b'.live j ∧ (b'.order j).side = t ∧ (b'.order j).priceTicks = p := by
  have hnot : ∀ t p, i ∉ q t p := fun t p hm => hp.fresh ((h.mem t p i).mp hm).1
  rw [hp.live]
  by_cases hj : j = i
  · subst hj
    rw [hp.self_eq.2.2.2, hp.self_eq.2.2.1]
    simp only [true_or, true_and]
    by_cases hsp : t = v.side ∧ p = v.priceTicks
    · rw [hsp.1, hsp.2, setQueue_self]; simp
    · rw [setQueue_other hsp]
      simp only [hnot t p, false_iff]
      exact fun hh => hsp ⟨hh.1.symm, hh.2.symm⟩
  · have hv := Order.view_eq (hp.frame hj)
    rw [hv.2.2.2, hv.2.2.1]
    simp only [hj, false_or]
    rw [← h.mem t p j]
    by_cases hsp : t = v.side ∧ p = v.priceTicks
    · rw [hsp.1, hsp.2, setQueue_self]; simp [hj]
    · rw [setQueue_other hsp]

theorem core (h : BookInv b q) (hp : Pushed b q b' i v) (hqty : 0 < v.qtyRemaining)
    (href : v.orderRef ≠ 0) :
    BookCore b' (setQueue q v.side v.priceTicks (q v.side v.priceTicks ++ [i])) where
  arena := by
    obtain ⟨b1, hst, hsh, _⟩ := hp.shape
    obtain ⟨fl, hfl⟩ := hst.arena
    exact ⟨fl, hfl.congr hsh⟩
  table := hp.table.1
  tableCap := by rw [hp.config.capacity, hp.table.2.1]; exact h.tableCap
  ladder := hp.ladder
  band := band_of_config h.band hp.config
  level := hp.onLevel h
  mem := hp.mem h
  pos := by
    intro j hj
    by_cases hji : j = i
    · rw [hji, hp.self_eq.2.1]; exact hqty
    · rw [hp.rem_other hji]; exact h.pos j (((hp.live j).mp hj).resolve_left hji)
  ref := by
    intro j hj
    by_cases hji : j = i
    · rw [hji, hp.self_eq.1]; exact href
    · rw [(Order.view_eq (hp.frame hji)).1]; exact h.ref j (((hp.live j).mp hj).resolve_left hji)
  holds := hp.table.2.2.2
  size := hp.table.2.2.1

/-- Raising the best price completes the rest. -/
theorem rested (h : BookInv b q) (hp : Pushed b q b' i v) (hqty : 0 < v.qtyRemaining)
    (href : v.orderRef ≠ 0) (hin : (b.ladderFor v.side).inBand v.priceTicks) :
    Rested b q (b'.raiseBest v.side v.priceTicks) i v := by
  obtain ⟨e1, e2, e3, e4, e5, e6, e7⟩ := raiseBest_same b' v.side v.priceTicks
  have hlad : ∀ t, (b'.raiseBest v.side v.priceTicks).ladderFor t = b'.ladderFor t := by
    intro t
    cases t
    · exact e6
    · exact e7
  have hord : ∀ j, (b'.raiseBest v.side v.priceTicks).order j = b'.order j := fun j => by
    rw [OrderBook.order, e1]; rfl
  refine
    { inv := ⟨(hp.core h hqty href).congr_best e1 e2 e3 e4 e5 e6 e7, ?_⟩, fresh := hp.fresh,
      live := fun j => by rw [OrderBook.live, e1]; exact hp.live j,
      self := by rw [hord]; exact hp.self, frame := fun j hj => by rw [hord]; exact hp.frame hj,
      generation := fun j hj => by rw [e1]; exact hp.generation hj,
      count := by rw [e1]; exact hp.liveCount,
      touched := fun t => by rw [hlad]; exact hp.touched t, config := ?_ }
  · intro t
    rw [raiseBest_best, hp.best, hp.best]
    by_cases ht : t = v.side
    · subst ht
      rw [if_pos rfl]
      have hne : v.priceTicks ≠ kNoTick := by
        have h1 := (h.ladder v.side).ceil
        have h2 := hin.2
        omega
      refine isBest_insert (h.best v.side) hne (fun x => ?_)
      by_cases hx : x = v.priceTicks
      · simp [hx]
      · rw [setQueue_other (fun hh => hx hh.2)]; simp [hx]
    · rw [if_neg ht]
      exact (h.best t).congr (fun x => by rw [setQueue_other (fun hh => ht hh.1)])
  · refine hp.config.trans ⟨by rw [e1], ?_, ?_, ?_⟩
    all_goals intro t; rw [hlad]

end Pushed

/-- **`add` rests its order** when nothing stands against it. -/
theorem add_rests (h : BookInv b q) {ref : Nat} {s : Side} {qty price : Int} (href : ref ≠ 0)
    (hqty : 0 < qty) (hband : b.inBand price) (hcl : (b.ladderFor s).claimable price)
    (hdup : ∀ i, b.live i → (b.order i).orderRef ≠ ref)
    (hroom : b.arena.liveCount < b.arena.capacity) :
    (∃ i, Rested b q (b.add ref s qty price).book i ⟨ref, qty, price, s⟩)
      ∧ (b.add ref s qty price).tick
        = { priceTicks := price, qty := toU32 qty, kind := .added, side := some s }
      ∧ (b.add ref s qty price).deltas
        = [{ priceTicks := price, qtyDelta := toI32 qty, side := s }] := by
  have hin : (b.ladderFor s).inBand price := (h.inBand_iff s price).mp hband
  obtain ⟨hnn, hst⟩ := store_spec h
    (o := { orderRef := ref, qtyRemaining := qty, priceTicks := price, side := s }) href hdup hroom
  have hnull := (h.idFindSlot_dead href hdup).1
  unfold add
  rw [if_neg href, if_neg (by omega), if_neg (not_not.mpr hband), if_neg (not_not.mpr hcl)]
  dsimp only
  rw [if_neg (by rw [hnull]; exact not_not.mpr rfl), if_neg hnn]
  have hres := Pushed.rested h (push_spec h hst hin hcl) hqty href hin
  exact ⟨⟨_, hres⟩, rfl, rfl⟩

/-! ## An order loses quantity -/

/-- The queues once order `i` has lost `qty`: it leaves when nothing remains. -/
def reducedQueue (b : OrderBook k) (q : Side → Int → List Nat) (i : Nat) (qty : Int) :
    Side → Int → List Nat :=
  if b.rem i = qty then
    setQueue q (b.order i).side (b.order i).priceTicks
      ((q (b.order i).side (b.order i).priceTicks).erase i)
  else q

/-- The order in slot `i` has lost `qty`, and has left if that was all it had. -/
structure Reduced (b : OrderBook k) (q : Side → Int → List Nat) (b' : OrderBook k) (i : Nat)
    (qty : Int) : Prop where
  inv : BookInv b' (b.reducedQueue q i qty)
  live : ∀ j, b'.live j ↔ b.live j ∧ ¬ (j = i ∧ b.rem i = qty)
  self : b.rem i ≠ qty →
    (b'.order i).view = { (b.order i).view with qtyRemaining := b.rem i - qty }
  frame : ∀ j, j ≠ i → (b'.order j).view = (b.order j).view
  generation : ∀ j, b'.live j → (b'.arena.slots j).generation = (b.arena.slots j).generation
  count : b'.arena.liveCount + (if b.rem i = qty then 1 else 0) = b.arena.liveCount
  touched : ∀ t, (b'.ladderFor t).touched = (b.ladderFor t).touched
  config : SameConfig b b'

/-- The order has lost `qty` in its slot and in its level's total, and nothing else has changed. -/
structure Lowered (b b' : OrderBook k) (i : Nat) (qty : Int) (lv : LevelPtr) : Prop where
  at' : At b' (b.order i).side (b.order i).priceTicks lv
  self : b'.order i = { b.order i with qtyRemaining := b.rem i - qty }
  order : ∀ j, j ≠ i → b'.order j = b.order j
  shape : Arena.SameShape b.arena b'.arena
  level : ∀ t p, b'.levelAt t p = if t = (b.order i).side ∧ p = (b.order i).priceTicks
    then { b.levelAt (b.order i).side (b.order i).priceTicks with
      qtyTotal := (b.levelAt (b.order i).side (b.order i).priceTicks).qtyTotal - qty }
    else b.levelAt t p
  ladder : ∀ t, LadderInv (b'.ladderFor t)
  rest : SameRest b b'
  config : SameConfig b b'
  touched : ∀ t, (b'.ladderFor t).touched = (b.ladderFor t).touched

/-- **An order is lowered** together with its level's total. -/
theorem lower_spec (h : BookInv b q) {i : Nat} (hi : b.live i) (qty : Int) {b1 : OrderBook k}
    (hb1 : b.modifyOrder i (fun o => { o with qtyRemaining := o.qtyRemaining - qty }) = b1) :
    Lowered b (b1.setLadder (b.order i).side
        ((b1.ladderFor (b.order i).side).apply (b.order i).priceTicks (-qty)).1) i qty
      ((b1.ladderFor (b.order i).side).apply (b.order i).priceTicks (-qty)).2 := by
  have hmem : i ∈ q (b.order i).side (b.order i).priceTicks := (h.mem _ _ i).mpr ⟨hi, rfl, rfl⟩
  have hne : q (b.order i).side (b.order i).priceTicks ≠ [] := List.ne_nil_of_mem hmem
  have hlad1 : ∀ t, b1.ladderFor t = b.ladderFor t := fun t => by
    rw [← hb1]
    exact ladderFor_modifyOrder b i _ t
  have hord1 := order_modifyOrder b i (fun o => { o with qtyRemaining := o.qtyRemaining - qty })
  have hsh1 := Arena.sameShape_modify b.arena i
    (fun o => { o with qtyRemaining := o.qtyRemaining - qty })
  have hrest1 : SameRest b b1 := by rw [← hb1]; exact ⟨rfl, rfl, rfl, rfl, rfl, rfl⟩
  have harena1 : b1.arena = b.arena.modify i
      (fun o => { o with qtyRemaining := o.qtyRemaining - qty }) := by rw [← hb1]; rfl
  rw [hb1] at hord1
  rw [← harena1] at hsh1
  clear hb1
  have hclaimed := h.claimed hne
  have htot := totalled_apply (b := b1) (fun t => by rw [hlad1]; exact h.ladder t)
    (s := (b.order i).side) (p := (b.order i).priceTicks) (by rw [hlad1]; exact h.inBand hne)
    (by rw [hlad1]; exact Or.inl hclaimed) (-qty)
  have hlev1 : ∀ t p, b1.levelAt t p = b.levelAt t p := fun t p => by
    rw [OrderBook.levelAt, hlad1]; rfl
  refine
    { at' := htot.at', self := ?_, order := ?_, shape := ?_, level := ?_, ladder := htot.ladder,
      rest := hrest1.trans htot.rest, config := ?_, touched := ?_ }
  · rw [htot.order]
    exact (hord1 i).trans (if_pos rfl)
  · intro j hj
    rw [htot.order]
    exact (hord1 j).trans (if_neg hj)
  · rw [htot.arena]
    exact hsh1
  · intro t p
    rw [htot.level, hlev1, hlev1]
    rfl
  · refine SameConfig.trans ⟨hsh1.capacity, ?_, ?_, ?_⟩ htot.config
    all_goals intro t; rw [hlad1]
  · intro t
    rw [htot.touched]
    by_cases ht : t = (b.order i).side
    · subst ht
      rw [if_pos rfl, hlad1, Finset.insert_eq_of_mem ((mem_touched (h.ladder _)).mpr hclaimed)]
    · rw [if_neg ht, hlad1]

/-- The links of the level are as they were. -/
theorem Lowered.chain (h : BookInv b q) {i : Nat} {qty : Int} {lv : LevelPtr}
    (hl : Lowered b b' i qty lv) :
    Chain (fun j => (b'.order j).next) (fun j => (b'.order j).prev) kNullIndex
      (b'.levelAt (b.order i).side (b.order i).priceTicks).head
      (b'.levelAt (b.order i).side (b.order i).priceTicks).tail
      (q (b.order i).side (b.order i).priceTicks) := by
  have hlinks : ∀ j, (b'.order j).next = (b.order j).next ∧ (b'.order j).prev = (b.order j).prev := by
    intro j
    by_cases hj : j = i
    · rw [hj, hl.self]; exact ⟨rfl, rfl⟩
    · rw [hl.order j hj]; exact ⟨rfl, rfl⟩
  rw [hl.level, if_pos ⟨rfl, rfl⟩]
  exact (h.level _ _).chain.congr (fun j _ => (hlinks j).1) (fun j _ => (hlinks j).2)

/-- Taking the order out of its queue then rewrites links only. -/
theorem Lowered.unlinked (h : BookInv b q) {i : Nat} (hi : b.live i) {qty : Int} {lv : LevelPtr}
    (hl : Lowered b b' i qty lv) :
    Relinked b' (b'.unlink (b.order i).side lv i) (b.order i).side (b.order i).priceTicks :=
  (unlink_spec hl.at' (hl.chain h) ((h.mem _ _ i).mpr ⟨hi, rfl, rfl⟩)).1

/-- A reduction that leaves something. -/
theorem Lowered.core (h : BookInv b q) {i : Nat} (hi : b.live i) {qty : Int} {lv : LevelPtr}
    (hl : Lowered b b' i qty lv) (hqty : qty < b.rem i) : BookCore b' q := by
  have hv : ∀ j, (b'.order j).orderRef = (b.order j).orderRef
      ∧ (b'.order j).priceTicks = (b.order j).priceTicks ∧ (b'.order j).side = (b.order j).side
      ∧ (b'.order j).next = (b.order j).next ∧ (b'.order j).prev = (b.order j).prev := by
    intro j
    by_cases hj : j = i
    · rw [hj, hl.self]; exact ⟨rfl, rfl, rfl, rfl, rfl⟩
    · rw [hl.order j hj]; exact ⟨rfl, rfl, rfl, rfl, rfl⟩
  have hself : b'.rem i = b.rem i - qty := by rw [OrderBook.rem, hl.self]
  have hother : ∀ j, j ≠ i → b'.rem j = b.rem j := fun j hj => by
    rw [OrderBook.rem, hl.order j hj]; rfl
  have hlive : ∀ j, b'.live j ↔ b.live j := fun j => by rw [OrderBook.live, hl.shape.live]; rfl
  obtain ⟨fl, hfl⟩ := h.arena
  refine
    { arena := ⟨fl, hfl.congr hl.shape⟩, table := ⟨?_, ?_, ?_⟩, tableCap := ?_,
      ladder := hl.ladder, band := band_of_config h.band hl.config, level := ?_, mem := ?_,
      pos := ?_, ref := ?_, holds := ?_, size := ?_ }
  · rw [hl.rest.tableCap, hl.rest.tableShift]; exact h.table.pow
  · rw [shape_congr hl.rest.tableCap hl.rest.tableShift, hl.rest.entries]; exact h.table.probing
  · rw [shape_congr hl.rest.tableCap hl.rest.tableShift, hl.rest.entries, hl.rest.tableCap]
    exact h.table.room
  · rw [hl.shape.capacity, hl.rest.tableCap]; exact h.tableCap
  · intro t p
    have hold := h.level t p
    have hc : ∀ {hd tl}, Chain (fun i => (b.order i).next) (fun i => (b.order i).prev) kNullIndex
        hd tl (q t p) → Chain (fun i => (b'.order i).next) (fun i => (b'.order i).prev) kNullIndex
        hd tl (q t p) := fun hh => hh.congr (fun j _ => (hv j).2.2.2.1) (fun j _ => (hv j).2.2.2.2)
    rw [hl.level]
    by_cases hsp : t = (b.order i).side ∧ p = (b.order i).priceTicks
    · obtain ⟨rfl, rfl⟩ := hsp
      rw [if_pos ⟨rfl, rfl⟩]
      refine ⟨hc hold.chain, ?_, hold.count⟩
      -- the queue's sum falls by what its member lost
      have hmem : i ∈ q (b.order i).side (b.order i).priceTicks := (h.mem _ _ i).mpr ⟨hi, rfl, rfl⟩
      have hnd := h.nodup (b.order i).side (b.order i).priceTicks
      have h1 := List.sum_map_erase b.rem hmem
      have h2 := List.sum_map_erase b'.rem hmem
      have hsame : (((q (b.order i).side (b.order i).priceTicks).erase i).map b'.rem)
          = (((q (b.order i).side (b.order i).priceTicks).erase i).map b.rem) :=
        List.map_congr_left (fun j hj => hother j (fun he => by
          rw [he] at hj
          exact hnd.not_mem_erase hj))
      rw [hsame, hself] at h2
      show (b.levelAt (b.order i).side (b.order i).priceTicks).qtyTotal - qty = _
      rw [hold.total]
      omega
    · rw [if_neg hsp]
      refine ⟨hc hold.chain, ?_, hold.count⟩
      rw [hold.total]
      congr 1
      refine (List.map_congr_left (fun j hj => hother j (fun he => hsp ?_))).symm
      have hm := (h.mem t p j).mp hj
      rw [he] at hm
      exact ⟨hm.2.1.symm, hm.2.2.symm⟩
  · intro t p j
    rw [hlive, (hv j).2.2.1, (hv j).2.1]
    exact h.mem t p j
  · intro j hj
    by_cases hji : j = i
    · rw [hji, hself]; omega
    · rw [hother j hji]; exact h.pos j ((hlive j).mp hj)
  · intro j hj
    rw [(hv j).1]
    exact h.ref j ((hlive j).mp hj)
  · intro r hh hr
    have hsame : b'.holds r hh ↔ b.holds r hh := by
      unfold OrderBook.holds; rw [hl.rest.entries, hl.rest.tableCap]
    rw [hsame, h.holds r hh hr, hlive, (hv _).1, hl.shape.generation]
  · rw [hl.rest.tableSize, hl.shape.liveCount, h.size]

/-- The emptied order has left its queue, its slot and its table cell. -/
structure Cut (b b' : OrderBook k) (q : Side → Int → List Nat) (i : Nat) : Prop where
  arena : ∃ fl, b'.arena.Inv fl
  live : ∀ j, b'.live j ↔ b.live j ∧ j ≠ i
  frame : ∀ j, j ≠ i → (b'.order j).view = (b.order j).view
  order : ∀ j, j ∉ q (b.order i).side (b.order i).priceTicks → b'.order j = b.order j
  generation : ∀ j, j ≠ i → (b'.arena.slots j).generation = (b.arena.slots j).generation
  liveCount : b'.arena.liveCount + 1 = b.arena.liveCount
  chain : Chain (fun j => (b'.order j).next) (fun j => (b'.order j).prev) kNullIndex
    (b'.levelAt (b.order i).side (b.order i).priceTicks).head
    (b'.levelAt (b.order i).side (b.order i).priceTicks).tail
    ((q (b.order i).side (b.order i).priceTicks).erase i)
  total : (b'.levelAt (b.order i).side (b.order i).priceTicks).qtyTotal
    = (b.levelAt (b.order i).side (b.order i).priceTicks).qtyTotal - b.rem i
  count : (b'.levelAt (b.order i).side (b.order i).priceTicks).count
    = (b.levelAt (b.order i).side (b.order i).priceTicks).count - 1
  level : ∀ t p, ¬ (t = (b.order i).side ∧ p = (b.order i).priceTicks) →
    b'.levelAt t p = b.levelAt t p
  ladder : ∀ t, LadderInv (b'.ladderFor t)
  table : TableInv b'
  tableCap : b'.tableCap = b.tableCap
  tableSize : b'.tableSize = b.tableSize - 1
  holds : ∀ r h, r ≠ 0 → (b'.holds r h ↔ r ≠ (b.order i).orderRef ∧ b.holds r h)
  best : ∀ t, b'.best t = b.best t
  config : SameConfig b b'
  touched : ∀ t, (b'.ladderFor t).touched = (b.ladderFor t).touched

/-- `reduce` erases the table cell of the order, whether or not it knows the cell. -/
theorem eraseOrder_eq (hent : b'.entries = b.entries) (hcap : b'.tableCap = b.tableCap)
    (hshift : b'.tableShift = b.tableShift) {ref slotHint : Nat}
    (hhint : slotHint = kNullIndex ∨ slotHint = (b.idFindSlot ref).slot) (hd : GenHandle) :
    b'.eraseOrder hd ref slotHint
      = ({ b' with arena := b'.arena.release hd } : OrderBook k).idEraseAt
          (b.idFindSlot ref).slot := by
  have hfind : ({ b' with arena := b'.arena.release hd } : OrderBook k).idFindSlot ref
      = b.idFindSlot ref :=
    @idFindSlot_congr _ b { b' with arena := b'.arena.release hd } hent hcap hshift _
  unfold eraseOrder
  dsimp only
  by_cases hn : slotHint ≠ kNullIndex
  · rw [if_pos hn, hhint.resolve_left hn]
  · rw [if_neg hn, idErase, hfind]

/-- **An order with nothing left is cut out** of its queue, its slot and the table. -/
theorem cut_spec (h : BookInv b q) {i : Nat} (hi : b.live i) {b1 : OrderBook k} {lv : LevelPtr}
    (hl : Lowered b b1 i (b.rem i) lv) (hd : GenHandle) (hdi : hd.index = i) {slotHint : Nat}
    (hhint : slotHint = kNullIndex ∨ slotHint = (b.idFindSlot (b.order i).orderRef).slot) :
    Cut b ((b1.unlink (b.order i).side lv i).eraseOrder hd (b.order i).orderRef slotHint) q i := by
  have hmem : i ∈ q (b.order i).side (b.order i).priceTicks := (h.mem _ _ i).mpr ⟨hi, rfl, rfl⟩
  have hr := h.ref i hi
  have hlev1 := hl.level (b.order i).side (b.order i).priceTicks
  rw [if_pos ⟨rfl, rfl⟩] at hlev1
  obtain ⟨hrel, hchain, hcount, hord⟩ := unlink_spec hl.at' (hl.chain h) hmem
  generalize b1.unlink (b.order i).side lv i = b2 at *
  have hrest2 : SameRest b b2 := hl.rest.trans hrel.rest
  have hshape2 : Arena.SameShape b.arena b2.arena := hl.shape.trans hrel.shape
  rw [eraseOrder_eq hrest2.entries hrest2.tableCap hrest2.tableShift hhint hd]
  obtain ⟨fl, hfl⟩ := h.arena
  have hrelse := Arena.release_spec hd (hfl.congr hshape2)
    (by rw [hdi, hshape2.live]; exact hi)
  rw [hdi] at hrelse
  generalize b2.arena.release hd = a3 at *
  -- the slot is back on the free list; the table still names it
  have hb3 : TableInv ({ b2 with arena := a3 } : OrderBook k) := by
    refine ⟨?_, ?_, ?_⟩
    · show ∃ e, b2.tableCap = 2 ^ e ∧ e ≤ 64 ∧ b2.tableShift = 64 - e
      rw [hrest2.tableCap, hrest2.tableShift]
      exact h.table.pow
    · show b2.shape.Inv b2.entries
      rw [shape_congr hrest2.tableCap hrest2.tableShift, hrest2.entries]
      exact h.table.probing
    · show ∃ e, e < b2.tableCap ∧ ¬ b2.shape.Occ b2.entries e
      rw [shape_congr hrest2.tableCap hrest2.tableShift, hrest2.entries, hrest2.tableCap]
      exact h.table.room
  obtain ⟨_, hslot, hcell⟩ := h.idFindSlot_live hi
  obtain ⟨htab, hholds⟩ := idEraseAt_spec hb3 (b.idFindSlot (b.order i).orderRef).slot
    ⟨i, (b.arena.slots i).generation⟩ hr
    (by show _ < b2.tableCap; rw [hrest2.tableCap]; exact hslot)
    (by show b2.entries _ = _; rw [hrest2.entries]; exact hcell)
  have hsl : ∀ j, j ≠ i → a3.slots j = b2.arena.slots j := hrelse.frame
  have hlad : ∀ t, (({ b2 with arena := a3 } : OrderBook k).idEraseAt
      (b.idFindSlot (b.order i).orderRef).slot).ladderFor t = b2.ladderFor t := by
    intro t; cases t <;> rfl
  have hlevel : ∀ t p, (({ b2 with arena := a3 } : OrderBook k).idEraseAt
      (b.idFindSlot (b.order i).orderRef).slot).levelAt t p = b2.levelAt t p := fun t p => by
    rw [OrderBook.levelAt, hlad]; rfl
  have hordj : ∀ j, j ≠ i → (({ b2 with arena := a3 } : OrderBook k).idEraseAt
      (b.idFindSlot (b.order i).orderRef).slot).order j = b2.order j := fun j hj => by
    show (a3.slots j).value = (b2.arena.slots j).value
    rw [hsl j hj]
  refine
    { arena := hrelse.inv, live := ?_, frame := ?_, order := ?_, generation := ?_, liveCount := ?_,
      chain := ?_, total := ?_, count := ?_, level := ?_, ladder := ?_, table := htab,
      tableCap := hrest2.tableCap, tableSize := ?_, holds := ?_, best := ?_, config := ?_,
      touched := ?_ }
  · intro j
    show (a3.slots j).live = true ↔ _
    by_cases hj : j = i
    · rw [hj, hrelse.dead]; simp
    · rw [hsl j hj, hshape2.live]; simp [hj, OrderBook.live]
  · intro j hj
    rw [hordj j hj, hrel.view, hl.order j hj]
  · intro j hj
    have hji : j ≠ i := fun he => hj (he ▸ hmem)
    rw [hordj j hji, hord j hj, hl.order j hji]
  · intro j hj
    show (a3.slots j).generation = _
    rw [hsl j hj, hshape2.generation]
  · show a3.liveCount + 1 = _
    rw [hrelse.count, hshape2.liveCount]
  · rw [hlevel]
    have hnd := h.nodup (b.order i).side (b.order i).priceTicks
    refine hchain.congr (fun j hj => ?_) (fun j hj => ?_)
    all_goals rw [hordj j (fun he => hnd.not_mem_erase (he ▸ hj))]
  · rw [hlevel, hrel.qty, hlev1]
  · rw [hlevel, hcount, hlev1]
  · intro t p hne
    rw [hlevel, hrel.levelAt_other hne, hl.level, if_neg hne]
  · intro t
    rw [hlad]
    exact hrel.ladder_all hl.ladder t
  · show b2.tableSize - 1 = _
    rw [hrest2.tableSize]
  · intro r hh hrne
    rw [hholds r hh hrne]
    have hsame : ({ b2 with arena := a3 } : OrderBook k).holds r hh ↔ b.holds r hh := by
      show (∃ x, x < b2.tableCap ∧ b2.entries x = _) ↔ ∃ x, x < b.tableCap ∧ b.entries x = _
      rw [hrest2.tableCap, hrest2.entries]
    rw [hsame]
  · intro t
    rw [← hrest2.best t]
    cases t <;> rfl
  · refine (hl.config.trans hrel.config).trans ⟨hrelse.capacity, ?_, ?_, ?_⟩
    all_goals intro t; rw [hlad]
  · intro t
    rw [hlad, hrel.touched_all, hl.touched]

namespace Cut

variable {i : Nat}

theorem rem_other (hc : Cut b b' q i) {j : Nat} (hj : j ≠ i) : b'.rem j = b.rem j :=
  (Order.view_eq (hc.frame j hj)).2.1

theorem onLevel (h : BookInv b q) (hi : b.live i) (hc : Cut b b' q i) (t : Side) (p : Int) :
    OnLevel b' (b'.levelAt t p) (setQueue q (b.order i).side (b.order i).priceTicks
      ((q (b.order i).side (b.order i).priceTicks).erase i) t p) := by
  have hmem : i ∈ q (b.order i).side (b.order i).priceTicks := (h.mem _ _ i).mpr ⟨hi, rfl, rfl⟩
  have hnd := h.nodup (b.order i).side (b.order i).priceTicks
  by_cases hsp : t = (b.order i).side ∧ p = (b.order i).priceTicks
  · obtain ⟨rfl, rfl⟩ := hsp
    rw [setQueue_self]
    refine ⟨hc.chain, ?_, ?_⟩
    · have hsame : (((q (b.order i).side (b.order i).priceTicks).erase i).map b'.rem)
          = (((q (b.order i).side (b.order i).priceTicks).erase i).map b.rem) :=
        List.map_congr_left (fun j hj => hc.rem_other (fun he => by
          rw [he] at hj
          exact hnd.not_mem_erase hj))
      have hsum := List.sum_map_erase b.rem hmem
      rw [hc.total, hsame, (h.level _ _).total]
      omega
    · rw [hc.count, (h.level _ _).count, List.length_erase_of_mem hmem]
  · rw [setQueue_other hsp, hc.level t p hsp]
    exact (h.level t p).congr (fun j hj => hc.order j (fun hm => hsp (h.mem_unique hj hm)))

theorem core (h : BookInv b q) (hi : b.live i) (hc : Cut b b' q i) :
    BookCore b' (setQueue q (b.order i).side (b.order i).priceTicks
      ((q (b.order i).side (b.order i).priceTicks).erase i)) where
  arena := hc.arena
  table := hc.table
  tableCap := by rw [hc.config.capacity, hc.tableCap]; exact h.tableCap
  ladder := hc.ladder
  band := band_of_config h.band hc.config
  level := hc.onLevel h hi
  mem := by
    intro t p j
    have hnd := h.nodup (b.order i).side (b.order i).priceTicks
    rw [hc.live]
    by_cases hj : j = i
    · subst hj
      simp only [ne_eq, not_true_eq_false, and_false, false_and, iff_false]
      by_cases hsp : t = (b.order j).side ∧ p = (b.order j).priceTicks
      · rw [hsp.1, hsp.2, setQueue_self]
        exact hnd.not_mem_erase
      · rw [setQueue_other hsp]
        intro hm
        have := (h.mem t p j).mp hm
        exact hsp ⟨this.2.1.symm, this.2.2.symm⟩
    · have hv := Order.view_eq (hc.frame j hj)
      rw [hv.2.2.2, hv.2.2.1]
      simp only [ne_eq, hj, not_false_eq_true, and_true]
      rw [← h.mem t p j]
      by_cases hsp : t = (b.order i).side ∧ p = (b.order i).priceTicks
      · rw [hsp.1, hsp.2, setQueue_self]
        exact List.mem_erase_of_ne hj
      · rw [setQueue_other hsp]
  pos := by
    intro j hj
    obtain ⟨hjl, hji⟩ := (hc.live j).mp hj
    rw [hc.rem_other hji]
    exact h.pos j hjl
  ref := by
    intro j hj
    obtain ⟨hjl, hji⟩ := (hc.live j).mp hj
    rw [(Order.view_eq (hc.frame j hji)).1]
    exact h.ref j hjl
  holds := by
    intro r hh hr
    rw [hc.holds r hh hr, h.holds r hh hr, hc.live]
    by_cases hj : hh.index = i
    · rw [hj]
      simp only [ne_eq, not_true_eq_false, and_false, false_and, iff_false]
      exact fun hcon => hcon.1 hcon.2.2.1.symm
    · rw [(Order.view_eq (hc.frame _ hj)).1, hc.generation _ hj]
      simp only [ne_eq, hj, not_false_eq_true, and_true]
      refine ⟨fun hcon => hcon.2, fun hcon => ⟨fun hre => hj ?_, hcon⟩⟩
      exact h.ref_inj hcon.1 hi (hcon.2.1.trans hre)
  size := by
    have := hc.liveCount
    rw [hc.tableSize, h.size]
    omega

end Cut

/-! ### The best price after a level may have drained -/

/-- Dropping the drained best price moves the best to the next occupied price. -/
theorem isBest_drain {s : Side} {occ occ' : Int → Prop} {r p r' : Int} (h : IsBest s occ r)
    (hocc : ∀ x, occ' x ↔ occ x ∧ x ≠ p) (hp : r = p)
    (hnext : match s with
      | .buy => NearestBelow occ' r r'
      | .sell => NearestAbove occ' r r') : IsBest s occ' r' := by
  have hbest : ∀ x, occ' x → x ≠ r ∧ atLeastAsGood s r x := by
    intro x hx
    obtain ⟨h1, h2⟩ := (hocc x).mp hx
    rcases h with ⟨_, hn⟩ | ⟨_, _, hg⟩
    · exact absurd h1 (hn x)
    · exact ⟨by rw [hp]; exact h2, hg x h1⟩
  cases s with
  | buy =>
      rcases hnext with ⟨h1, h2⟩ | ⟨h1, _, h3, h4⟩
      · refine Or.inl ⟨h1, fun x hx => h2 x ?_ hx⟩
        have := hbest x hx
        simp only [atLeastAsGood] at this
        omega
      · refine Or.inr ⟨h1, h3, fun x hx => ?_⟩
        have := hbest x hx
        simp only [atLeastAsGood] at this ⊢
        by_contra hlt
        exact h4 x (by omega) (by omega) hx
  | sell =>
      rcases hnext with ⟨h1, h2⟩ | ⟨h1, _, h3, h4⟩
      · refine Or.inl ⟨h1, fun x hx => h2 x ?_ hx⟩
        have := hbest x hx
        simp only [atLeastAsGood] at this
        omega
      · refine Or.inr ⟨h1, h3, fun x hx => ?_⟩
        have := hbest x hx
        simp only [atLeastAsGood] at this ⊢
        by_contra hlt
        exact h4 x (by omega) (by omega) hx

theorem refillBest_same (b : OrderBook k) (s : Side) (p : Int) (lv : LevelPtr) :
    (b.refillBest s p lv).arena = b.arena ∧ (b.refillBest s p lv).entries = b.entries
      ∧ (b.refillBest s p lv).tableCap = b.tableCap ∧ (b.refillBest s p lv).tableShift = b.tableShift
      ∧ (b.refillBest s p lv).tableSize = b.tableSize
      ∧ (b.refillBest s p lv).bidLadder = b.bidLadder
      ∧ (b.refillBest s p lv).askLadder = b.askLadder := by
  unfold refillBest
  split
  · cases s
    all_goals
      dsimp only
      refine ⟨?_, ?_, ?_, ?_, ?_, ?_, ?_⟩ <;> split <;> rfl
  · exact ⟨rfl, rfl, rfl, rfl, rfl, rfl, rfl⟩

/-- The cached prices after `refillBest`. -/
theorem refillBest_best (b : OrderBook k) (s t : Side) (p : Int) (lv : LevelPtr) :
    (b.refillBest s p lv).best t
      = if t = s ∧ (b.levelOf s lv).qtyTotal = 0 ∧ b.best s = p then
          match s with
          | .buy => b.bidLadder.firstBelow (b.best s)
          | .sell => b.askLadder.firstAbove (b.best s)
        else b.best t := by
  unfold refillBest
  by_cases hz : (b.levelOf s lv).qtyTotal = 0
  · rw [if_pos hz]
    cases s <;> cases t <;> simp only [best] <;> split <;> simp_all
  · rw [if_neg hz, if_neg (fun hh => hz hh.2.1)]

/-- **`refill_best` restores the best prices** once the queues are `q'`, which differ from
those the cached prices were right for at most in that level `p` of side `s` has drained. -/
theorem refillBest_inv {q' : Side → Int → List Nat} {s : Side} {p : Int} {lv : LevelPtr}
    (hc : BookCore b q') (hold : ∀ t, IsBest t (fun x => q t x ≠ []) (b.best t))
    (hlv : (b.levelOf s lv).qtyTotal = 0 ↔ q' s p = [])
    (hsame : ∀ t x, ¬ (t = s ∧ x = p) → (q' t x ≠ [] ↔ q t x ≠ []))
    (hwas : q s p ≠ []) : BookInv (b.refillBest s p lv) q' := by
  obtain ⟨e1, e2, e3, e4, e5, e6, e7⟩ := refillBest_same b s p lv
  refine ⟨hc.congr_best e1 e2 e3 e4 e5 e6 e7, fun t => ?_⟩
  rw [refillBest_best]
  by_cases ht : t = s ∧ (b.levelOf s lv).qtyTotal = 0 ∧ b.best s = p
  · rw [if_pos ht]
    obtain ⟨rfl, hz, hbp⟩ := ht
    have hemp := hlv.mp hz
    refine isBest_drain (hold t) (fun x => ?_) hbp ?_
    · by_cases hx : x = p
      · rw [hx, hemp]; simp
      · rw [hsame t x (fun hh => hx hh.2)]; simp [hx]
    · -- the ladder's scan sees the queues' occupancy
      have hocc : ∀ t', (b.ladderFor t').occ = fun x => q' t' x ≠ [] := fun t' =>
        funext fun x => propext (hc.occ_iff t' x)
      cases t with
      | buy =>
          have := firstBelow_spec (hc.ladder .buy) (b.best .buy)
          rw [hocc] at this
          exact this
      | sell =>
          have := firstAbove_spec (hc.ladder .sell) (b.best .sell)
          rw [hocc] at this
          exact this
  · rw [if_neg ht]
    by_cases hts : t = s
    · subst hts
      by_cases hemp : q' t p = []
      · -- the drained level was not the best one
        have hne : b.best t ≠ p := fun he => ht ⟨rfl, hlv.mpr hemp, he⟩
        rcases hold t with ⟨_, h2⟩ | ⟨h1, h2, h3⟩
        · exact absurd hwas (h2 p)
        · refine Or.inr ⟨h1, (hsame t _ (fun hh => hne hh.2)).mpr h2, fun x hx => h3 x ?_⟩
          have hxp : x ≠ p := fun he => hx (he ▸ hemp)
          exact (hsame t x (fun hh => hxp hh.2)).mp hx
      · refine (hold t).congr (fun x => ?_)
        by_cases hx : x = p
        · rw [hx]; simp [hemp, hwas]
        · exact hsame t x (fun hh => hx hh.2)
    · exact (hold t).congr (fun x => hsame t x (fun hh => hts hh.1))

/-- Finding the next best price changes no ladder. -/
theorem refillBest_ladder (b : OrderBook k) (s t : Side) (p : Int) (lv : LevelPtr) :
    (b.refillBest s p lv).ladderFor t = b.ladderFor t := by
  obtain ⟨_, _, _, _, _, e6, e7⟩ := refillBest_same b s p lv
  cases t
  · exact e6
  · exact e7

theorem refillBest_config (b : OrderBook k) (s : Side) (p : Int) (lv : LevelPtr) :
    SameConfig b (b.refillBest s p lv) := by
  refine ⟨by rw [(refillBest_same b s p lv).1], ?_, ?_, ?_⟩
  all_goals intro t; rw [refillBest_ladder]

/-- **`reduce` lowers one order**, and takes it out when nothing remains. -/
theorem reduce_spec (h : BookInv b q) {i : Nat} (hi : b.live i) {qty : Int} (hle : qty ≤ b.rem i)
    (hd : GenHandle) (hdi : hd.index = i) (kind : TickKind) {slotHint : Nat}
    (hhint : slotHint = kNullIndex ∨ slotHint = (b.idFindSlot (b.order i).orderRef).slot) :
    Reduced b q (b.reduce hd qty kind slotHint).book i qty
      ∧ (b.reduce hd qty kind slotHint).tick
        = { priceTicks := (b.order i).priceTicks, qty := toU32 qty
            kind := if b.rem i = qty then .removed else kind, side := some (b.order i).side }
      ∧ (b.reduce hd qty kind slotHint).deltas
        = [{ priceTicks := (b.order i).priceTicks, qtyDelta := toI32 (-qty)
             side := (b.order i).side }] := by
  subst hdi
  have hmem : hd.index ∈ q (b.order hd.index).side (b.order hd.index).priceTicks :=
    (h.mem _ _ _).mpr ⟨hi, rfl, rfl⟩
  have hwas := List.ne_nil_of_mem hmem
  have hl := lower_spec h hi qty rfl
  have hemp : (b.order hd.index).qtyRemaining - qty = 0 ↔ b.rem hd.index = qty := by
    rw [OrderBook.rem]; omega
  have hderef : b.arena.deref hd = b.order hd.index := rfl
  unfold reduce
  dsimp only
  rw [hderef]
  refine ⟨?_, by simp only [hemp], rfl⟩
  simp only [hemp]
  generalize ((b.modifyOrder hd.index (fun o => { o with qtyRemaining := o.qtyRemaining - qty })
    ).ladderFor (b.order hd.index).side).apply (b.order hd.index).priceTicks (-qty) = r at *
  generalize (b.modifyOrder hd.index (fun o => { o with qtyRemaining := o.qtyRemaining - qty })
    ).setLadder (b.order hd.index).side r.1 = b1 at *
  by_cases hz : b.rem hd.index = qty
  · -- the order leaves
    rw [if_pos hz]
    rw [← hz] at hl
    have hc := cut_spec h hi hl hd rfl hhint
    have hat : At ((b1.unlink (b.order hd.index).side r.2 hd.index).eraseOrder hd
        (b.order hd.index).orderRef slotHint) (b.order hd.index).side (b.order hd.index).priceTicks
        r.2 := by
      have hat2 := (hl.unlinked h hi).at hl.at'
      have hlad : ∀ t, ((b1.unlink (b.order hd.index).side r.2 hd.index).eraseOrder hd
          (b.order hd.index).orderRef slotHint).ladderFor t
          = (b1.unlink (b.order hd.index).side r.2 hd.index).ladderFor t := by
        intro t
        unfold eraseOrder
        dsimp only
        split <;> cases t <;> rfl
      exact ⟨by rw [hlad]; exact hat2.inv, by rw [hlad]; exact hat2.inBand,
        by rw [hlad]; exact hat2.claimed, by rw [hlad]; exact hat2.ptr⟩
    generalize (b1.unlink (b.order hd.index).side r.2 hd.index).eraseOrder hd
      (b.order hd.index).orderRef slotHint = b2 at *
    have hcore := hc.core h hi
    have hq : b.reducedQueue q hd.index qty = setQueue q (b.order hd.index).side
        (b.order hd.index).priceTicks
        ((q (b.order hd.index).side (b.order hd.index).priceTicks).erase hd.index) := by
      rw [reducedQueue, if_pos hz]
    have hinv : BookInv (b2.refillBest (b.order hd.index).side (b.order hd.index).priceTicks r.2)
        (b.reducedQueue q hd.index qty) := by
      rw [hq]
      refine refillBest_inv hcore (q := q) (fun t => by rw [hc.best]; exact h.best t) ?_ ?_ hwas
      · rw [hat.levelOf, (hcore.level _ _).total]
        exact not_iff_not.mp (hcore.sum_pos_iff _ _)
      · intro t x hne
        rw [setQueue_other hne]
    obtain ⟨e1, _⟩ := refillBest_same b2 (b.order hd.index).side (b.order hd.index).priceTicks r.2
    have hord : ∀ j, (b2.refillBest (b.order hd.index).side (b.order hd.index).priceTicks
        r.2).order j = b2.order j := fun j => by rw [OrderBook.order, e1]; rfl
    have hlive : ∀ j, (b2.refillBest (b.order hd.index).side (b.order hd.index).priceTicks
        r.2).live j ↔ b.live j ∧ j ≠ hd.index := fun j => by
      rw [OrderBook.live, e1]; exact hc.live j
    refine
      { inv := hinv, live := fun j => by rw [hlive]; simp [hz],
        self := fun hne => absurd hz hne, frame := fun j hj => by rw [hord]; exact hc.frame j hj,
        generation := fun j hj => by rw [e1]; exact hc.generation j ((hlive j).mp hj).2,
        count := by rw [e1, if_pos hz]; exact hc.liveCount,
        touched := fun t => by rw [refillBest_ladder]; exact hc.touched t,
        config := hc.config.trans (refillBest_config _ _ _ _) }
  · -- the order stays with what remains
    rw [if_neg hz]
    have hlt : qty < b.rem hd.index := by omega
    have hcore := hl.core h hi hlt
    have hq : b.reducedQueue q hd.index qty = q := by rw [reducedQueue, if_neg hz]
    obtain ⟨e1, _⟩ := refillBest_same b1 (b.order hd.index).side (b.order hd.index).priceTicks r.2
    have hord : ∀ j, (b1.refillBest (b.order hd.index).side (b.order hd.index).priceTicks
        r.2).order j = b1.order j := fun j => by rw [OrderBook.order, e1]; rfl
    have hlive : ∀ j, (b1.refillBest (b.order hd.index).side (b.order hd.index).priceTicks
        r.2).live j ↔ b.live j := fun j => by
      rw [OrderBook.live, e1, hl.shape.live]; rfl
    refine
      { inv := ?_, live := fun j => by rw [hlive]; simp [hz],
        self := fun _ => by rw [hord, hl.self]; rfl,
        frame := fun j hj => by rw [hord, hl.order j hj],
        generation := fun j _ => by rw [e1, hl.shape.generation],
        count := by rw [e1, if_neg hz, hl.shape.liveCount]; rfl,
        touched := fun t => by rw [refillBest_ladder]; exact hl.touched t,
        config := hl.config.trans (refillBest_config _ _ _ _) }
    rw [hq]
    refine refillBest_inv hcore (q := q) (fun t => by rw [hl.rest.best]; exact h.best t) ?_
      (fun _ _ _ => Iff.rfl) hwas
    rw [hl.at'.levelOf, (hcore.level _ _).total]
    exact not_iff_not.mp (hcore.sum_pos_iff _ _)

/-! ## The calls -/

/-- **Executing reduces one order**, and says so. -/
theorem execute_spec (h : BookInv b q) {i : Nat} (hi : b.live i) {qty : Int} (hpos : 0 < qty)
    (hle : qty ≤ b.rem i) :
    Reduced b q (b.execute (b.order i).orderRef qty).book i qty
      ∧ (b.execute (b.order i).orderRef qty).tick
        = { priceTicks := (b.order i).priceTicks, qty := toU32 qty
            kind := if b.rem i = qty then .removed else .reduced, side := some (b.order i).side }
      ∧ (b.execute (b.order i).orderRef qty).deltas
        = [{ priceTicks := (b.order i).priceTicks, qtyDelta := toI32 (-qty)
             side := (b.order i).side }] := by
  have hf := (h.idFindSlot_live hi).1
  have hexec : b.execute (b.order i).orderRef qty
      = b.reduce (b.idFindSlot (b.order i).orderRef).handle qty .reduced
          (b.idFindSlot (b.order i).orderRef).slot := by
    unfold execute
    rw [if_neg (by omega)]
    dsimp only
    rw [if_neg (by rw [hf]; exact h.ne_null hi), if_neg ?_]
    rw [hf]
    show ¬ b.rem i < qty
    omega
  rw [hexec]
  exact reduce_spec h hi hle _ (by rw [hf]) .reduced (Or.inr rfl)

/-- A queue's head, and what the walk from the level sees first. -/
theorem peek_head (h : BookInv b q) {s : Side} {p : Int} :
    (q s p = [] ∧ ((b.ladderFor s).peek p = none
        ∨ ∃ lv, (b.ladderFor s).peek p = some lv ∧ lv.head = kNullIndex))
      ∨ ∃ i l lv, q s p = i :: l ∧ (b.ladderFor s).peek p = some lv ∧ lv.head = i
        ∧ i ≠ kNullIndex := by
  have hc := (h.level s p).chain
  cases hp : (b.ladderFor s).peek p with
  | none =>
      rw [OrderBook.levelAt, peek_eq_none hp] at hc
      exact Or.inl ⟨hc.head_eq_null.mp rfl, Or.inl rfl⟩
  | some lv =>
      rw [OrderBook.levelAt, peek_eq_some hp] at hc
      cases hq : q s p with
      | nil =>
          rw [hq] at hc
          exact Or.inl ⟨rfl, Or.inr ⟨lv, rfl, hc.head_eq_null.mpr rfl⟩⟩
      | cons i l =>
          rw [hq] at hc
          have hi : i ∈ q s p := by rw [hq]; simp
          exact Or.inr ⟨i, l, lv, rfl, rfl, hc.head_cons, h.ne_null ((h.mem s p i).mp hi).1⟩

/-- **`execute_front`** lowers the head of the queue. -/
theorem executeFront_spec (h : BookInv b q) {s : Side} {p : Int} {i : Nat} {l : List Nat}
    (hq : q s p = i :: l) {qty : Int} (hpos : 0 < qty) (hle : qty ≤ b.rem i) :
    Reduced b q (b.executeFront s p qty).book i qty
      ∧ (b.executeFront s p qty).tick
        = { priceTicks := p, qty := toU32 qty
            kind := if b.rem i = qty then .removed else .reduced, side := some s }
      ∧ (b.executeFront s p qty).deltas
        = [{ priceTicks := p, qtyDelta := toI32 (-qty), side := s }]
      ∧ (b.executeFront s p qty).victim = some (b.order i).orderRef := by
  have hmem : i ∈ q s p := by rw [hq]; simp
  obtain ⟨hi, hs, hpr⟩ := (h.mem s p i).mp hmem
  have hexec : b.executeFront s p qty
      = { b.reduce { index := i, generation := (b.arena.slots i).generation } qty .reduced
            kNullIndex with victim := some (b.order i).orderRef } := by
    rcases peek_head h (s := s) (p := p) with ⟨hnil, _⟩ | ⟨j, l', lv, hq', hpk, hhead, hnn⟩
    · rw [hnil] at hq; exact absurd hq (by simp)
    · have hji : j = i := by rw [hq] at hq'; exact (List.cons.inj hq').1.symm
      subst hji
      unfold executeFront
      rw [if_neg (by omega), hpk]
      dsimp only
      rw [if_neg (by rw [hhead]; exact hnn), hhead]
      rfl
  rw [hexec]
  have hr := reduce_spec h hi hle
    { index := i, generation := (b.arena.slots i).generation } rfl .reduced (Or.inl rfl)
  rw [hs, hpr] at hr
  exact ⟨hr.1, hr.2.1, hr.2.2, rfl⟩

/-- **Removing reduces it to nothing.** -/
theorem remove_spec (h : BookInv b q) {i : Nat} (hi : b.live i) :
    Reduced b q (b.remove (b.order i).orderRef).book i (b.rem i)
      ∧ (b.remove (b.order i).orderRef).tick
        = { priceTicks := (b.order i).priceTicks, qty := toU32 (b.rem i), kind := .removed
            side := some (b.order i).side }
      ∧ (b.remove (b.order i).orderRef).deltas
        = [{ priceTicks := (b.order i).priceTicks, qtyDelta := toI32 (-b.rem i)
             side := (b.order i).side }] := by
  have hf := (h.idFindSlot_live hi).1
  have hrem : b.remove (b.order i).orderRef
      = b.reduce (b.idFindSlot (b.order i).orderRef).handle (b.rem i) .removed
          (b.idFindSlot (b.order i).orderRef).slot := by
    unfold remove
    dsimp only
    rw [if_neg (by rw [hf]; exact h.ne_null hi), hf]
    rfl
  rw [hrem]
  have hr := reduce_spec h hi (Int.le_refl _)
    (b.idFindSlot (b.order i).orderRef).handle (by rw [hf]) .removed (Or.inr rfl)
  rw [if_pos rfl] at hr
  exact hr

/-- Whether a page is left to claim depends on the pages claimed. -/
theorem claimable_congr (hl : ∀ t, LadderInv (b.ladderFor t)) (hl' : ∀ t, LadderInv (b'.ladderFor t))
    (hc : SameConfig b b') (ht : ∀ t, (b'.ladderFor t).touched = (b.ladderFor t).touched) (s : Side)
    (p : Int) : (b'.ladderFor s).claimable p ↔ (b.ladderFor s).claimable p := by
  rw [claimable_iff (hl' s), claimable_iff (hl s), ht, hc.dirIndex, hc.poolLen]

/-- **`replace`** removes the order and rests its replacement. -/
theorem replace_spec (h : BookInv b q) {i : Nat} (hi : b.live i) {newRef : Nat} {qty price : Int}
    (href : newRef ≠ 0) (hqty : 0 < qty) (hband : b.inBand price)
    (hcl : (b.ladderFor (b.order i).side).claimable price)
    (hdup : newRef = (b.order i).orderRef ∨ ∀ j, b.live j → (b.order j).orderRef ≠ newRef) :
    ∃ b1, Reduced b q b1 i (b.rem i)
      ∧ b1 = (b.remove (b.order i).orderRef).book
      ∧ (∃ j, Rested b1 (b.reducedQueue q i (b.rem i))
          (b.replace (b.order i).orderRef newRef qty price).book j
          ⟨newRef, qty, price, (b.order i).side⟩)
      ∧ (b.replace (b.order i).orderRef newRef qty price).tick
        = { priceTicks := price, qty := toU32 qty, kind := .replaced, side := some (b.order i).side }
      ∧ (b.replace (b.order i).orderRef newRef qty price).deltas
        = [{ priceTicks := (b.order i).priceTicks, qtyDelta := toI32 (-b.rem i)
             side := (b.order i).side },
           { priceTicks := price, qtyDelta := toI32 qty, side := (b.order i).side }] := by
  obtain ⟨hred, _, hdel⟩ := remove_spec h hi
  have hr := h.ref i hi
  have hf : (b.idFind (b.order i).orderRef).index = i :=
    (h.idFind_eq_iff hr (h.ne_null hi)).mpr ⟨hi, rfl⟩
  have hside : (b.arena.deref (b.idFind (b.order i).orderRef)).side = (b.order i).side := by
    rw [Arena.deref, hf]; rfl
  have hguard : ¬ ((b.order i).orderRef ≠ newRef ∧ (b.idFind newRef).index ≠ kNullIndex) := by
    rintro ⟨h1, h2⟩
    have hd := hdup.resolve_left (Ne.symm h1)
    exact h2 ((h.idFind_null_iff href).mpr hd)
  have hrep : b.replace (b.order i).orderRef newRef qty price =
      { tick :=
          { priceTicks := ((b.remove (b.order i).orderRef).book.add newRef (b.order i).side qty
              price).tick.priceTicks
            qty := ((b.remove (b.order i).orderRef).book.add newRef (b.order i).side qty price).tick.qty
            kind := .replaced
            side := ((b.remove (b.order i).orderRef).book.add newRef (b.order i).side qty
              price).tick.side }
        book := ((b.remove (b.order i).orderRef).book.add newRef (b.order i).side qty price).book
        deltas := (b.remove (b.order i).orderRef).deltas
          ++ ((b.remove (b.order i).orderRef).book.add newRef (b.order i).side qty price).deltas } := by
    unfold replace
    rw [if_neg (by omega), if_neg (not_not.mpr hband)]
    dsimp only
    rw [if_neg (by rw [hf]; exact h.ne_null hi), hside, if_neg (not_not.mpr hcl), if_neg hguard]
  rw [hrep, hdel]
  generalize (b.remove (b.order i).orderRef).book = b1 at *
  -- the removal frees the reference, the slot and no page
  have hdup1 : ∀ j, b1.live j → (b1.order j).orderRef ≠ newRef := by
    intro j hj
    obtain ⟨hjl, hji⟩ := (hred.live j).mp hj
    have hne : j ≠ i := fun he => hji ⟨he, rfl⟩
    rw [(Order.view_eq (hred.frame j hne)).1]
    rcases hdup with heq | hall
    · rw [heq]
      exact fun hc => hne (h.ref_inj hjl hi hc)
    · exact hall j hjl
  have hroom : b1.arena.liveCount < b1.arena.capacity := by
    have hcount := hred.count
    rw [if_pos rfl] at hcount
    obtain ⟨fl, hfl⟩ := h.arena
    have := hfl.liveCount_le
    rw [hred.config.capacity]
    omega
  obtain ⟨hrest, htick, hdel1⟩ := add_rests hred.inv href hqty
    ((hred.config.inBand_iff price).mpr hband)
    ((claimable_congr h.ladder hred.inv.ladder hred.config hred.touched _ _).mpr hcl) hdup1 hroom
  refine ⟨b1, hred, rfl, hrest, ?_, ?_⟩
  · rw [htick]
  · rw [hdel1]; rfl

end OrderBook

end Mog
