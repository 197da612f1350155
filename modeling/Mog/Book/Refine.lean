import Mog.Book.Fifo
import Mog.Book.Ops

/-!
# The order book refines the price-time book

`Refines cfg b q m`: the book `b`, whose queues of slots are `q`, stands for the
abstract book `m`: reading the orders of each slot queue off the arena gives the
abstract queue, and both have touched the same pages. Every legal call keeps the
relation and reports the same on both sides; the queries agree whenever the
relation holds.

The relation is a function of the concrete side but for the queues, so the abstract book after a
call is computed from the abstract book before it, and what is to be shown is that both sides
end up with the same lists. The effects of `Mog.Book.Ops` are matched once, and the calls by
going through their checks in order, since the two books check in the same order.
-/

namespace Mog

open PriceLadder

/-- What `find?` finds in a sorted list is the first element that passes. -/
theorem find?_sorted {l : List Int} {r : Int → Int → Prop} (hl : l.Pairwise r) {p : Int → Bool} :
    match l.find? p with
    | some x => p x = true ∧ x ∈ l ∧ ∀ y ∈ l, p y = true → y = x ∨ r x y
    | none => ∀ y ∈ l, p y = false := by
  induction l with
  | nil => simp
  | cons a l ih =>
      obtain ⟨ha, hl⟩ := List.pairwise_cons.mp hl
      rw [List.find?_cons]
      by_cases hp : p a = true
      · rw [hp]
        refine ⟨hp, by simp, fun y hy hpy => ?_⟩
        rcases List.mem_cons.mp hy with he | hm
        · exact Or.inl he
        · exact Or.inr (ha y hm)
      · rw [Bool.not_eq_true] at hp
        rw [hp]
        have hrest := ih hl
        dsimp only at hrest ⊢
        cases hf : l.find? p with
        | none =>
            rw [hf] at hrest
            intro y hy
            rcases List.mem_cons.mp hy with he | hm
            · rw [he]; exact hp
            · exact hrest y hm
        | some x =>
            rw [hf] at hrest
            obtain ⟨h1, h2, h3⟩ := hrest
            refine ⟨h1, by simp [h2], fun y hy hpy => ?_⟩
            rcases List.mem_cons.mp hy with he | hm
            · rw [he, hp] at hpy
              exact Bool.noConfusion hpy
            · exact h3 y hm hpy

namespace FifoBook

variable {cfg : BookConfig} {m : FifoBook}

/-- The prices of a configuration are those of its band. -/
theorem mem_prices {p : Int} : p ∈ prices cfg ↔ inBand cfg p := by
  simp only [prices, List.mem_map, List.mem_range, inBand]
  constructor
  · rintro ⟨n, hn, rfl⟩
    omega
  · rintro ⟨h1, h2⟩
    exact ⟨(p - cfg.ladder.loTick).toNat, by omega, by omega⟩

theorem prices_sorted : (prices cfg).Pairwise (· < ·) := by
  rw [prices, List.pairwise_map]
  refine List.pairwise_lt_range.imp ?_
  intro a b hab
  omega

theorem mem_orders {s : Side} {p : Int} {r : Resting} :
    (s, p, r) ∈ m.orders cfg ↔ inBand cfg p ∧ r ∈ m.queue s p := by
  simp only [orders, List.mem_flatMap, mem_prices, List.mem_map, Prod.mk.injEq]
  constructor
  · rintro ⟨s', _, p', hp, r', hr, rfl, rfl, rfl⟩
    exact ⟨hp, hr⟩
  · rintro ⟨hp, hr⟩
    exact ⟨s, by cases s <;> simp, p, hp, r, hr, rfl, rfl, rfl⟩

/-- The walk upwards ends at the nearest occupied price. -/
theorem nextAbove_spec (hceil : cfg.ladder.hiTick ≤ kNoTick)
    (hband : ∀ s p, m.queue s p ≠ [] → inBand cfg p) (s : Side) (t : Int) :
    NearestAbove (fun p => m.queue s p ≠ []) t (m.nextAbove cfg s t) := by
  have hf := find?_sorted (@prices_sorted cfg) (p := fun p => t < p ∧ m.queue s p ≠ [])
  unfold nextAbove
  cases hx : (prices cfg).find? (fun p => t < p ∧ m.queue s p ≠ []) with
  | none =>
      rw [hx] at hf
      refine Or.inl ⟨rfl, fun p hp hq => ?_⟩
      have := hf p (mem_prices.mpr (hband s p hq))
      simp only [decide_eq_false_iff_not] at this
      exact this ⟨hp, hq⟩
  | some x =>
      rw [hx] at hf
      obtain ⟨h1, h2, h3⟩ := hf
      simp only [decide_eq_true_iff] at h1
      have hin := mem_prices.mp h2
      refine Or.inr ⟨?_, h1.1, h1.2, fun y hy hyx hq => ?_⟩
      · show x ≠ kNoTick
        have := hin.2
        omega
      · have hyx' : y < x := hyx
        rcases h3 y (mem_prices.mpr (hband s y hq)) (decide_eq_true ⟨hy, hq⟩) with he | hlt
        · omega
        · omega

/-- The walk downwards does, too. -/
theorem nextBelow_spec (hceil : cfg.ladder.hiTick ≤ kNoTick)
    (hband : ∀ s p, m.queue s p ≠ [] → inBand cfg p) (s : Side) (t : Int) :
    NearestBelow (fun p => m.queue s p ≠ []) t (m.nextBelow cfg s t) := by
  have hsorted : (prices cfg).reverse.Pairwise (fun a b => b < a) :=
    List.pairwise_reverse.mpr prices_sorted
  have hf := find?_sorted hsorted (p := fun p => p < t ∧ m.queue s p ≠ [])
  unfold nextBelow
  cases hx : (prices cfg).reverse.find? (fun p => p < t ∧ m.queue s p ≠ []) with
  | none =>
      rw [hx] at hf
      refine Or.inl ⟨rfl, fun p hp hq => ?_⟩
      have := hf p (List.mem_reverse.mpr (mem_prices.mpr (hband s p hq)))
      simp only [decide_eq_false_iff_not] at this
      exact this ⟨hp, hq⟩
  | some x =>
      rw [hx] at hf
      obtain ⟨h1, h2, h3⟩ := hf
      simp only [decide_eq_true_iff] at h1
      have hin := mem_prices.mp (List.mem_reverse.mp h2)
      refine Or.inr ⟨?_, h1.1, h1.2, fun y hy hyx hq => ?_⟩
      · show x ≠ kNoTick
        have := hin.2
        omega
      · have hyx' : x < y := hyx
        rcases h3 y (List.mem_reverse.mpr (mem_prices.mpr (hband s y hq)))
          (decide_eq_true ⟨hy, hq⟩) with he | hlt
        · omega
        · omega

end FifoBook

theorem PriceLadder.NearestAbove.unique {occ : Int → Prop} {t r r' : Int} (h : NearestAbove occ t r)
    (h' : NearestAbove occ t r') : r = r' := by
  rcases h with ⟨h1, h2⟩ | ⟨_, h2, h3, h4⟩ <;> rcases h' with ⟨h5, h6⟩ | ⟨_, h6, h7, h8⟩
  · rw [h1, h5]
  · exact absurd h7 (h2 _ h6)
  · exact absurd h3 (h6 _ h2)
  · rcases Int.lt_trichotomy r r' with h | h | h
    · exact absurd h3 (h8 _ h2 h)
    · exact h
    · exact absurd h7 (h4 _ h6 h)

theorem PriceLadder.NearestBelow.unique {occ : Int → Prop} {t r r' : Int} (h : NearestBelow occ t r)
    (h' : NearestBelow occ t r') : r = r' := by
  rcases h with ⟨h1, h2⟩ | ⟨_, h2, h3, h4⟩ <;> rcases h' with ⟨h5, h6⟩ | ⟨_, h6, h7, h8⟩
  · rw [h1, h5]
  · exact absurd h7 (h2 _ h6)
  · exact absurd h3 (h6 _ h2)
  · rcases Int.lt_trichotomy r r' with h | h | h
    · exact absurd h7 (h4 _ h6 h)
    · exact h
    · exact absurd h3 (h8 _ h2 h)

namespace OrderBook

variable {k : Nat} {cfg : BookConfig} {b b' : OrderBook k} {q : Side → Int → List Nat}
  {m : FifoBook}

/-- The order in a slot, as the abstract book has it. -/
def resting (b : OrderBook k) (i : Nat) : Resting := ⟨(b.order i).orderRef, b.rem i⟩

/-- The book `b` with queues `q` stands for the abstract book `m`. -/
structure Refines (cfg : BookConfig) (b : OrderBook k) (q : Side → Int → List Nat)
    (m : FifoBook) : Prop where
  inv : BookInv b q
  queue : ∀ s p, m.queue s p = (q s p).map b.resting
  touched : ∀ s, m.touched s = (b.ladderFor s).touched
  capacity : b.arena.capacity = cfg.arenaCapacity
  lo : ∀ s, (b.ladderFor s).lo = cfg.ladder.loTick
  hi : ∀ s, (b.ladderFor s).hi = cfg.ladder.hiTick
  poolLen : ∀ s, (b.ladderFor s).poolLen = cfg.ladder.pagePool
  small : ∀ i, b.live i → b.rem i < 2 ^ 32

/-- An empty book refines empty queues. -/
theorem refines_init (h : ConfigOk k cfg) :
    Refines cfg (init cfg : OrderBook k) (fun _ _ => []) {} where
  inv := init_inv h
  queue := fun _ _ => rfl
  touched := by
    intro s
    cases s <;> simp [ladderFor, init, PriceLadder.init, PriceLadder.touched]
  capacity := rfl
  lo := by intro s; cases s <;> rfl
  hi := by intro s; cases s <;> rfl
  poolLen := by intro s; cases s <;> rfl
  small := fun _ hi => Bool.noConfusion hi

namespace Refines

/-! ## The queries agree -/

/-- The same levels are occupied. -/
theorem queue_ne_nil (h : Refines cfg b q m) (s : Side) (p : Int) :
    m.queue s p ≠ [] ↔ q s p ≠ [] := by
  rw [h.queue, ne_eq, List.map_eq_nil_iff]

theorem inBand_iff (h : Refines cfg b q m) (p : Int) : b.inBand p ↔ FifoBook.inBand cfg p := by
  have h1 := h.lo .buy
  have h2 := h.hi .buy
  simp only [ladderFor] at h1 h2
  simp only [OrderBook.inBand, PriceLadder.inBand, FifoBook.inBand, h1, h2]

theorem queue_inBand (h : Refines cfg b q m) (s : Side) (p : Int) (hne : m.queue s p ≠ []) :
    FifoBook.inBand cfg p :=
  (h.inBand_iff p).mp ((h.inv.inBand_iff s p).mpr (h.inv.inBand ((h.queue_ne_nil s p).mp hne)))

/-- A slot of a queue is one of the abstract orders. -/
theorem mem_orders (h : Refines cfg b q m) {i : Nat} (hi : b.live i) :
    ((b.order i).side, (b.order i).priceTicks, b.resting i) ∈ m.orders cfg := by
  have hmem : i ∈ q (b.order i).side (b.order i).priceTicks := (h.inv.mem _ _ i).mpr ⟨hi, rfl, rfl⟩
  refine FifoBook.mem_orders.mpr ⟨?_, ?_⟩
  · refine h.queue_inBand (b.order i).side _ ?_
    rw [h.queue_ne_nil]
    exact List.ne_nil_of_mem hmem
  · rw [h.queue]
    exact List.mem_map.mpr ⟨i, hmem, rfl⟩

/-- An abstract order is in a slot. -/
theorem of_mem_orders (h : Refines cfg b q m) {o : Side × Int × Resting}
    (ho : o ∈ m.orders cfg) :
    ∃ i, b.live i ∧ o = ((b.order i).side, (b.order i).priceTicks, b.resting i) := by
  obtain ⟨s, p, r⟩ := o
  have hr := (FifoBook.mem_orders.mp ho).2
  rw [h.queue] at hr
  obtain ⟨i, hi, rfl⟩ := List.mem_map.mp hr
  obtain ⟨h1, h2, h3⟩ := (h.inv.mem s p i).mp hi
  exact ⟨i, h1, by rw [h2, h3]⟩

/-- **Searching the queues finds what the table finds**: a live reference. -/
theorem find_live (h : Refines cfg b q m) {i : Nat} (hi : b.live i) :
    m.find cfg (b.order i).orderRef
      = some ((b.order i).side, (b.order i).priceTicks, b.resting i) := by
  unfold FifoBook.find
  cases hf : (m.orders cfg).find? (fun o => o.2.2.ref = (b.order i).orderRef) with
  | none =>
      have := List.find?_eq_none.mp hf _ (h.mem_orders hi)
      exact absurd (decide_eq_true rfl) this
  | some o =>
      have hp := List.find?_some hf
      obtain ⟨j, hj, hoj⟩ := h.of_mem_orders (List.mem_of_find?_eq_some hf)
      rw [decide_eq_true_iff, hoj] at hp
      rw [hoj, h.inv.ref_inj hj hi hp]

/-- Searching the queues for a reference that is not live finds nothing. -/
theorem find_dead (h : Refines cfg b q m) {ref : Nat}
    (hdead : ∀ i, b.live i → (b.order i).orderRef ≠ ref) : m.find cfg ref = none := by
  refine List.find?_eq_none.mpr (fun o ho => ?_)
  obtain ⟨i, hi, rfl⟩ := h.of_mem_orders ho
  exact fun hc => hdead i hi (of_decide_eq_true hc)

/-- A reference names a live order or none. -/
theorem live_or_dead (b : OrderBook k) (ref : Nat) :
    (∃ i, b.live i ∧ (b.order i).orderRef = ref) ∨ ∀ i, b.live i → (b.order i).orderRef ≠ ref := by
  by_cases h : ∃ i, b.live i ∧ (b.order i).orderRef = ref
  · exact Or.inl h
  · exact Or.inr (fun i hi he => h ⟨i, hi, he⟩)

/-- The live count is the number of abstract orders. -/
theorem liveOrders_eq (h : Refines cfg b q m) : b.liveOrders = m.liveOrders cfg := by
  obtain ⟨fl, hfl⟩ := h.inv.arena
  -- the slots behind the abstract orders, level by level
  have hlen : m.liveOrders cfg
      = ([Side.buy, Side.sell].flatMap fun s => (FifoBook.prices cfg).flatMap fun p => q s p).length := by
    unfold FifoBook.liveOrders FifoBook.orders
    simp only [List.length_flatMap, h.queue, List.length_map]
  have hmem : ∀ i, i ∈ ([Side.buy, Side.sell].flatMap fun s =>
      (FifoBook.prices cfg).flatMap fun p => q s p) ↔ i ∈ b.arena.liveSlots := by
    intro i
    rw [hfl.mem_liveSlots]
    simp only [List.mem_flatMap, FifoBook.mem_prices]
    constructor
    · rintro ⟨s, _, p, _, hi⟩
      exact ((h.inv.mem s p i).mp hi).1
    · intro hi
      have hm := FifoBook.mem_orders.mp (h.mem_orders hi)
      exact ⟨(b.order i).side, by cases (b.order i).side <;> simp, _, hm.1,
        (h.inv.mem _ _ i).mpr ⟨hi, rfl, rfl⟩⟩
  have hnd : ([Side.buy, Side.sell].flatMap fun s =>
      (FifoBook.prices cfg).flatMap fun p => q s p).Nodup := by
    have hside : ∀ s, ((FifoBook.prices cfg).flatMap fun p => q s p).Nodup := by
      intro s
      refine List.nodup_flatMap.mpr ⟨fun p _ => h.inv.nodup s p, ?_⟩
      refine FifoBook.prices_sorted.imp ?_
      intro p p' hlt i hi hi'
      have := (h.inv.mem_unique hi hi').2
      omega
    refine List.nodup_flatMap.mpr ⟨fun s _ => hside s, ?_⟩
    simp only [List.pairwise_cons, List.mem_singleton, forall_eq, List.not_mem_nil,
      false_implies, implies_true, List.Pairwise.nil, and_true]
    intro i hi hi'
    obtain ⟨p, _, hp⟩ := List.mem_flatMap.mp hi
    obtain ⟨p', _, hp'⟩ := List.mem_flatMap.mp hi'
    exact absurd (h.inv.mem_unique hp hp').1 (by decide)
  have hset : ([Side.buy, Side.sell].flatMap fun s =>
      (FifoBook.prices cfg).flatMap fun p => q s p).toFinset = b.arena.liveSlots := by
    ext i
    rw [List.mem_toFinset, hmem]
  rw [hlen, ← List.toFinset_card_of_nodup hnd, hset, hfl.card_liveSlots]
  rfl

/-- What is left of an order is read off its queue. -/
theorem remainingOf_eq (h : Refines cfg b q m) (ref : Nat) :
    b.remainingOf ref = m.remainingOf cfg ref := by
  by_cases hz : ref = 0
  · subst hz
    have hd : ∀ i, b.live i → (b.order i).orderRef ≠ 0 := h.inv.ref
    rw [OrderBook.remainingOf, idFind_zero, if_pos (Or.inl rfl), FifoBook.remainingOf, h.find_dead hd]
  · rcases live_or_dead b ref with ⟨i, hi, rfl⟩ | hd
    · rw [h.inv.remainingOf_live hi, FifoBook.remainingOf, h.find_live hi]
      rfl
    · rw [h.inv.remainingOf_dead hz hd, FifoBook.remainingOf, h.find_dead hd]

/-- Its side is the queue's. -/
theorem sideOf_eq (h : Refines cfg b q m) (ref : Nat) : b.sideOf ref = m.sideOf cfg ref := by
  by_cases hz : ref = 0
  · subst hz
    have hd : ∀ i, b.live i → (b.order i).orderRef ≠ 0 := h.inv.ref
    rw [OrderBook.sideOf, idFind_zero, if_pos (Or.inl rfl), FifoBook.sideOf, h.find_dead hd]
    rfl
  · rcases live_or_dead b ref with ⟨i, hi, rfl⟩ | hd
    · rw [h.inv.sideOf_live hi, FifoBook.sideOf, h.find_live hi]
      rfl
    · rw [h.inv.sideOf_dead hz hd, FifoBook.sideOf, h.find_dead hd]
      rfl

/-- A level's total is its queue's. -/
theorem qtyAt_eq (h : Refines cfg b q m) (s : Side) (p : Int) :
    b.qtyAt s p = totalOf (m.queue s p) := by
  rw [h.inv.qtyAt_eq, totalOf, h.queue, List.map_map]
  rfl

/-- Its front is the queue's first. -/
theorem frontRef_eq (h : Refines cfg b q m) (s : Side) (p : Int) :
    b.frontRef s p = m.frontRef s p := by
  rw [h.inv.frontRef_eq, FifoBook.frontRef, h.queue]
  cases q s p <;> rfl

/-- Its orders are the queue's, in turn. -/
theorem levelSlots_eq (h : Refines cfg b q m) (s : Side) (p : Int) :
    (b.levelSlots s p).map b.resting = m.queue s p := by
  rw [h.inv.levelSlots_eq, h.queue]

theorem occ_eq (h : Refines cfg b q m) (s : Side) :
    (b.ladderFor s).occ = fun p => m.queue s p ≠ [] :=
  funext fun p => propext ((h.inv.occ_iff s p).trans (h.queue_ne_nil s p).symm)

theorem ceil (h : Refines cfg b q m) : cfg.ladder.hiTick ≤ kNoTick := by
  rw [← h.hi .buy]
  exact (h.inv.ladder .buy).ceil

/-- Both find the same price above. -/
theorem nextPriceAbove_eq (h : Refines cfg b q m) (s : Side) (t : Int) :
    b.nextPriceAbove s t = m.nextAbove cfg s t := by
  have h1 := firstAbove_spec (h.inv.ladder s) t
  rw [h.occ_eq] at h1
  exact h1.unique (FifoBook.nextAbove_spec h.ceil h.queue_inBand s t)

/-- Both find the same price below. -/
theorem nextPriceBelow_eq (h : Refines cfg b q m) (s : Side) (t : Int) :
    b.nextPriceBelow s t = m.nextBelow cfg s t := by
  have h1 := firstBelow_spec (h.inv.ladder s) t
  rw [h.occ_eq] at h1
  exact h1.unique (FifoBook.nextBelow_spec h.ceil h.queue_inBand s t)

/-- Both have the same best price. -/
theorem best_eq (h : Refines cfg b q m) (s : Side) : b.best s = m.best cfg s := by
  have hb := (h.inv.best s).congr (fun p => h.queue_ne_nil s p)
  refine hb.unique ?_
  cases s with
  | buy =>
      rcases FifoBook.nextBelow_spec h.ceil h.queue_inBand .buy cfg.ladder.hiTick with
        ⟨h1, h2⟩ | ⟨h1, _, h3, h4⟩
      · exact Or.inl ⟨h1, fun p hq => h2 p (h.queue_inBand .buy p hq).2 hq⟩
      · refine Or.inr ⟨h1, h3, fun p hq => ?_⟩
        by_contra hlt
        simp only [atLeastAsGood, Int.not_le] at hlt
        exact h4 p (h.queue_inBand .buy p hq).2 hlt hq
  | sell =>
      have hlo : ∀ p, m.queue .sell p ≠ [] → cfg.ladder.loTick - 1 < p := fun p hq => by
        have := (h.queue_inBand .sell p hq).1
        omega
      rcases FifoBook.nextAbove_spec h.ceil h.queue_inBand .sell (cfg.ladder.loTick - 1) with
        ⟨h1, h2⟩ | ⟨h1, _, h3, h4⟩
      · exact Or.inl ⟨h1, fun p hq => h2 p (hlo p hq) hq⟩
      · refine Or.inr ⟨h1, h3, fun p hq => ?_⟩
        by_contra hlt
        simp only [atLeastAsGood, Int.not_le] at hlt
        exact h4 p (hlo p hq) hlt hq

/-- A page is left for the same prices. -/
theorem claimable_iff (h : Refines cfg b q m) (s : Side) (p : Int) :
    (b.ladderFor s).claimable p ↔ m.hasPage k cfg s p := by
  rw [PriceLadder.claimable_iff (h.inv.ladder s), ← h.touched, h.poolLen]
  simp only [FifoBook.hasPage, FifoBook.pageOf, PriceLadder.dirIndex, h.lo]

/-! ## The effects agree -/

/-- The configuration side of the relation. -/
theorem config (h : Refines cfg b q m) (hc : SameConfig b b') :
    b'.arena.capacity = cfg.arenaCapacity ∧ (∀ s, (b'.ladderFor s).lo = cfg.ladder.loTick)
      ∧ (∀ s, (b'.ladderFor s).hi = cfg.ladder.hiTick)
      ∧ ∀ s, (b'.ladderFor s).poolLen = cfg.ladder.pagePool :=
  ⟨hc.capacity.trans h.capacity, fun s => (hc.lo s).trans (h.lo s), fun s => (hc.hi s).trans (h.hi s),
    fun s => (hc.poolLen s).trans (h.poolLen s)⟩

theorem resting_of_view {i j : Nat} (h : (b'.order i).view = (b.order j).view) :
    b'.resting i = b.resting j := by
  obtain ⟨h1, h2, _, _⟩ := Order.view_eq h
  rw [resting, resting, h1]
  congr 1

/-- **Coming to rest** is joining the tail of the queue. -/
theorem rested (h : Refines cfg b q m) {i : Nat} {v : OrderView} (hr : Rested b q b' i v)
    (hsmall : v.qtyRemaining < 2 ^ 32) :
    Refines cfg b' (setQueue q v.side v.priceTicks (q v.side v.priceTicks ++ [i]))
      (m.pushed k cfg v.side v.priceTicks ⟨v.orderRef, v.qtyRemaining⟩) := by
  obtain ⟨hcap, hlo, hhi, hpool⟩ := h.config hr.config
  have hself : b'.resting i = ⟨v.orderRef, v.qtyRemaining⟩ := by
    have hs := hr.self
    obtain ⟨r, qt, pr, sd⟩ := v
    simp only [Order.view, OrderView.mk.injEq] at hs
    rw [resting, hs.1, OrderBook.rem, hs.2.1]
  have hother : ∀ s p, (q s p).map b'.resting = (q s p).map b.resting := by
    intro s p
    refine List.map_congr_left (fun j hj => resting_of_view (hr.frame j ?_))
    exact fun he => hr.fresh (he ▸ ((h.inv.mem s p j).mp hj).1)
  refine ⟨hr.inv, ?_, ?_, hcap, hlo, hhi, hpool, ?_⟩
  · intro s p
    by_cases hsp : s = v.side ∧ p = v.priceTicks
    · obtain ⟨rfl, rfl⟩ := hsp
      rw [setQueue_self, List.map_append, hother, ← h.queue]
      simp [FifoBook.pushed, FifoBook.setLevel, hself]
    · rw [setQueue_other hsp, hother, ← h.queue]
      simp only [FifoBook.pushed, FifoBook.setLevel, if_neg hsp]
  · intro s
    rw [hr.touched, ← h.touched]
    simp only [FifoBook.pushed, FifoBook.pageOf, PriceLadder.dirIndex, h.lo]
  · intro j hj
    by_cases hji : j = i
    · have := congrArg Resting.remaining hself
      rw [hji]
      exact lt_of_eq_of_lt this hsmall
    · rw [OrderBook.rem, (Order.view_eq (hr.frame j hji)).2.1]
      exact h.small j (((hr.live j).mp hj).resolve_left hji)

/-- Taking from a queue of slots is taking from the abstract queue. -/
theorem takeFrom_map {l : List Nat} {i : Nat} (qty : Int) (hnd : l.Nodup) (hi : i ∈ l)
    (hinj : ∀ j ∈ l, (b.order j).orderRef = (b.order i).orderRef → j = i)
    (hother : ∀ j ∈ l, j ≠ i → b'.resting j = b.resting j)
    (hself : b.rem i ≠ qty → b'.resting i = ⟨(b.order i).orderRef, b.rem i - qty⟩) :
    takeFrom (b.order i).orderRef qty (l.map b.resting)
      = (if b.rem i = qty then l.erase i else l).map b'.resting := by
  induction l with
  | nil => simp at hi
  | cons a l ih =>
      obtain ⟨hal, hndl⟩ := List.nodup_cons.mp hnd
      rw [List.map_cons, takeFrom]
      by_cases hai : a = i
      · subst hai
        have hrest : l.map b.resting = l.map b'.resting :=
          List.map_congr_left (fun j hj =>
            (hother j (by simp [hj]) (fun he => hal (he ▸ hj))).symm)
        have href : (b.resting a).ref = (b.order a).orderRef := rfl
        have hrem : (b.resting a).remaining = b.rem a := rfl
        rw [if_pos href, hrem]
        by_cases hz : b.rem a = qty
        · rw [if_pos hz, if_pos hz, List.erase_cons_head, hrest]
        · rw [if_neg hz, if_neg hz, List.map_cons, hself hz, hrest]
          rfl
      · have hil : i ∈ l := (List.mem_cons.mp hi).resolve_left (Ne.symm hai)
        have hne : (b.resting a).ref ≠ (b.order i).orderRef := fun he =>
          hai (hinj a (by simp) he)
        rw [if_neg hne, ih hndl hil (fun j hj => hinj j (by simp [hj]))
          (fun j hj => hother j (by simp [hj])), ← hother a (by simp) hai]
        by_cases hz : b.rem i = qty
        · rw [if_pos hz, if_pos hz, List.erase_cons_tail (by simpa using hai), List.map_cons]
        · rw [if_neg hz, if_neg hz, List.map_cons]

/-- **Losing quantity** is taking from the queue. -/
theorem reduced (h : Refines cfg b q m) {i : Nat} (hi : b.live i) {qty : Int} (hpos : 0 < qty)
    (hr : Reduced b q b' i qty) :
    Refines cfg b' (b.reducedQueue q i qty)
      (m.setLevel (b.order i).side (b.order i).priceTicks
        (takeFrom (b.order i).orderRef qty (m.queue (b.order i).side (b.order i).priceTicks))) := by
  obtain ⟨hcap, hlo, hhi, hpool⟩ := h.config hr.config
  have hmem : i ∈ q (b.order i).side (b.order i).priceTicks := (h.inv.mem _ _ i).mpr ⟨hi, rfl, rfl⟩
  have hself : b.rem i ≠ qty → b'.resting i = ⟨(b.order i).orderRef, b.rem i - qty⟩ := by
    intro hne
    have := hr.self hne
    simp only [Order.view, OrderView.mk.injEq] at this
    rw [resting, this.1, OrderBook.rem, this.2.1]
  refine ⟨hr.inv, ?_, ?_, hcap, hlo, hhi, hpool, ?_⟩
  -- The queue of the order's level, and then every other one, which the order is not in.
  · intro s p
    by_cases hsp : s = (b.order i).side ∧ p = (b.order i).priceTicks
    · obtain ⟨rfl, rfl⟩ := hsp
      have htake := takeFrom_map qty
        (h.inv.nodup (b.order i).side (b.order i).priceTicks) hmem
        (fun j hj he => h.inv.ref_inj ((h.inv.mem _ _ j).mp hj).1 hi he)
        (fun j _ hji => resting_of_view (hr.frame j hji)) hself
      have hq : b.reducedQueue q i qty (b.order i).side (b.order i).priceTicks
          = if b.rem i = qty then (q (b.order i).side (b.order i).priceTicks).erase i
            else q (b.order i).side (b.order i).priceTicks := by
        unfold reducedQueue
        split
        · rw [setQueue_self]
        · rfl
      simp only [FifoBook.setLevel, and_self, if_true]
      rw [hq, ← htake, h.queue]
    · have hq : b.reducedQueue q i qty s p = q s p := by
        unfold reducedQueue
        split
        · rw [setQueue_other hsp]
        · rfl
      simp only [FifoBook.setLevel, if_neg hsp]
      rw [hq, h.queue]
      refine List.map_congr_left (fun j hj => (resting_of_view (hr.frame j ?_)).symm)
      intro he
      have := (h.inv.mem s p j).mp hj
      rw [he] at this
      exact hsp ⟨this.2.1.symm, this.2.2.symm⟩
  · intro s
    rw [hr.touched, ← h.touched]
    rfl
  -- Quantities fit 32 bits, one of them having become smaller.
  · intro j hj
    obtain ⟨hjl, hjne⟩ := (hr.live j).mp hj
    by_cases hji : j = i
    · have hz : b.rem i ≠ qty := fun he => hjne ⟨hji, he⟩
      have := congrArg Resting.remaining (hself hz)
      have hrem : b'.rem i = b.rem i - qty := this
      have := h.small i hi
      rw [hji, hrem]
      omega
    · rw [OrderBook.rem, (Order.view_eq (hr.frame j hji)).2.1]
      exact h.small j hjl

/-! ## The calls agree -/

/-- What the implementation reports for an abstract outcome. -/
def tickOf : Except BookError FifoTick → BookTick
  | .error e => tickError e
  | .ok t => { priceTicks := t.price, qty := t.qty.toNat, kind := t.kind, side := some t.side }

/-- The result of a call agrees with the abstract one, and the books after it correspond. -/
structure Agrees (cfg : BookConfig) (r : BookResult k) (f : FifoResult) : Prop where
  tick : r.tick = tickOf f.outcome
  victim : r.victim = f.victim
  book : ∃ q', Refines cfg r.book q' f.book

theorem toU32_of_small {x : Int} (h0 : 0 < x) (h1 : x < 2 ^ 32) : toU32 x = x.toNat := by
  rw [toU32, Int.emod_eq_of_lt (by omega) (by omega)]

/-- Both refuse alike. -/
theorem agrees_fail (h : Refines cfg b q m) (e : BookError) :
    Agrees cfg (b.fail e) (m.reject e) := ⟨rfl, rfl, q, h⟩

theorem find_ne_none_iff (h : Refines cfg b q m) {ref : Nat} (href : ref ≠ 0) :
    m.find cfg ref ≠ none ↔ (b.idFind ref).index ≠ kNullIndex := by
  rw [ne_eq, ne_eq, h.inv.idFind_null_iff href, not_iff_not]
  rcases live_or_dead b ref with ⟨i, hi, rfl⟩ | hd
  · rw [h.find_live hi]
    simp only [reduceCtorEq, false_iff, not_forall]
    exact ⟨i, hi, fun hc => hc rfl⟩
  · rw [h.find_dead hd]
    simp only [true_iff]
    exact hd

/-- **Adding agrees**, error for error. -/
theorem add_agrees (h : Refines cfg b q m) {ref : Nat} {s : Side} {qty p : Int}
    (hq : qty < 2 ^ 32) : Agrees cfg (b.add ref s qty p) (m.add k cfg ref s qty p) := by
  unfold FifoBook.add
  by_cases h1 : ref = 0
  · rw [if_pos h1, OrderBook.add, if_pos h1]
    exact h.agrees_fail _
  rw [if_neg h1]
  by_cases h2 : qty ≤ 0
  · rw [if_pos h2, OrderBook.add, if_neg h1, if_pos h2]
    exact h.agrees_fail _
  rw [if_neg h2]
  by_cases h3 : b.inBand p
  swap
  · rw [if_pos (fun hh => h3 ((h.inBand_iff p).mpr hh)), OrderBook.add, if_neg h1, if_neg h2,
      if_pos h3]
    exact h.agrees_fail _
  rw [if_neg (not_not.mpr ((h.inBand_iff p).mp h3))]
  by_cases h4 : (b.ladderFor s).claimable p
  swap
  · rw [if_pos (fun hh => h4 ((h.claimable_iff s p).mpr hh)), OrderBook.add, if_neg h1, if_neg h2,
      if_neg (not_not.mpr h3), if_pos h4]
    exact h.agrees_fail _
  rw [if_neg (not_not.mpr ((h.claimable_iff s p).mp h4))]
  by_cases h5 : (b.idFindSlot ref).handle.index ≠ kNullIndex
  · rw [if_pos ((h.find_ne_none_iff h1).mpr h5), OrderBook.add, if_neg h1, if_neg h2,
      if_neg (not_not.mpr h3), if_neg (not_not.mpr h4)]
    dsimp only
    rw [if_pos h5]
    exact h.agrees_fail _
  rw [if_neg (fun hh => h5 ((h.find_ne_none_iff h1).mp hh))]
  have hdup := (h.inv.idFind_null_iff h1).mp (not_not.mp h5)
  by_cases h6 : cfg.arenaCapacity ≤ m.liveOrders cfg
  · -- every slot is live
    rw [if_pos h6]
    obtain ⟨fl, hfl⟩ := h.inv.arena
    have hfull : b.arena.liveCount = b.arena.capacity := by
      have hle := hfl.liveCount_le
      have heq : b.arena.liveCount = m.liveOrders cfg := h.liveOrders_eq
      have hcap := h.capacity
      omega
    have hnull := Arena.acquire_full hfl hfull
      ({ orderRef := ref, qtyRemaining := qty, priceTicks := p, side := s } : Order)
    rw [OrderBook.add, if_neg h1, if_neg h2, if_neg (not_not.mpr h3), if_neg (not_not.mpr h4)]
    dsimp only
    have hisNull : (({} : GenHandle), b.arena).1.isNull := rfl
    rw [if_neg h5, hnull, if_pos hisNull]
    exact h.agrees_fail _
  · rw [if_neg h6]
    have hroom : b.arena.liveCount < b.arena.capacity := by
      have heq : b.arena.liveCount = m.liveOrders cfg := h.liveOrders_eq
      have hcap := h.capacity
      omega
    have hpos : 0 < qty := by omega
    obtain ⟨⟨i, hrest⟩, htick, _⟩ := add_rests h.inv h1 hpos h3 h4 hdup hroom
    refine ⟨?_, ?_, _, h.rested hrest hq⟩
    · rw [htick, toU32_of_small hpos hq]
      rfl
    · rw [OrderBook.add, if_neg h1, if_neg h2, if_neg (not_not.mpr h3), if_neg (not_not.mpr h4)]
      dsimp only
      rw [if_neg h5]
      split <;> rfl

/-- A reduction of the order in slot `i`, on both sides. -/
theorem agrees_reduced (h : Refines cfg b q m) {i : Nat} (hi : b.live i) {qty : Int}
    (hpos : 0 < qty) (hle : qty ≤ b.rem i) {r : BookResult k} {kind : TickKind}
    (hr : Reduced b q r.book i qty)
    (htick : r.tick = { priceTicks := (b.order i).priceTicks, qty := toU32 qty
                        kind := if b.rem i = qty then .removed else kind
                        side := some (b.order i).side })
    (hvictim : r.victim = none) :
    Agrees cfg r
      (m.reduced ((b.order i).side, (b.order i).priceTicks, b.resting i) qty kind) := by
  refine ⟨?_, hvictim, _, h.reduced hi hpos hr⟩
  have hsmall := h.small i hi
  rw [htick, toU32_of_small hpos (by omega)]
  rfl

/-- Executing agrees. -/
theorem execute_agrees (h : Refines cfg b q m) {ref : Nat} {qty : Int} (href : ref ≠ 0) :
    Agrees cfg (b.execute ref qty) (m.execute cfg ref qty) := by
  unfold FifoBook.execute
  by_cases h1 : qty ≤ 0
  · rw [if_pos h1, OrderBook.execute, if_pos h1]
    exact h.agrees_fail _
  rw [if_neg h1]
  rcases live_or_dead b ref with ⟨i, hi, rfl⟩ | hd
  · rw [h.find_live hi]
    dsimp only
    have hf := (h.inv.idFindSlot_live hi).1
    by_cases h2 : (b.resting i).remaining < qty
    · rw [if_pos h2, OrderBook.execute, if_neg h1]
      dsimp only
      rw [if_neg (by rw [hf]; exact h.inv.ne_null hi), if_pos (by rw [hf]; exact h2)]
      exact h.agrees_fail _
    · rw [if_neg h2]
      have hle : qty ≤ b.rem i := Int.not_lt.mp h2
      obtain ⟨hr, htick, _⟩ := execute_spec h.inv hi (by omega) hle
      refine h.agrees_reduced hi (by omega) hle hr htick ?_
      rw [OrderBook.execute, if_neg h1]
      dsimp only
      split
      · rfl
      · split <;> rfl
  · rw [h.find_dead hd]
    dsimp only
    rw [OrderBook.execute, if_neg h1]
    dsimp only
    have hnull := (h.inv.idFind_null_iff href).mpr hd
    rw [idFind] at hnull
    rw [if_pos hnull]
    exact h.agrees_fail _

/-- Executing the front agrees, within what is left of it. -/
theorem executeFront_agrees (h : Refines cfg b q m) {s : Side} {p qty : Int}
    (hle : ∀ r l, m.queue s p = r :: l → qty ≤ r.remaining) :
    Agrees cfg (b.executeFront s p qty) (m.executeFront s p qty) := by
  unfold FifoBook.executeFront
  by_cases h1 : qty ≤ 0
  · rw [if_pos h1, OrderBook.executeFront, if_pos h1]
    exact h.agrees_fail _
  rw [if_neg h1]
  rcases peek_head h.inv (s := s) (p := p) with ⟨hnil, hpk⟩ | ⟨i, l, lv, hq, _⟩
  · have hm : m.queue s p = [] := by rw [h.queue, hnil]; rfl
    rw [hm]
    dsimp only
    rw [OrderBook.executeFront, if_neg h1]
    rcases hpk with hnone | ⟨lv, hsome, hhead⟩
    · rw [hnone]
      exact h.agrees_fail _
    · rw [hsome]
      dsimp only
      rw [if_pos hhead]
      exact h.agrees_fail _
  · have hm : m.queue s p = b.resting i :: l.map b.resting := by rw [h.queue, hq]; rfl
    have hmem : i ∈ q s p := by rw [hq]; simp
    obtain ⟨hi, hs, hp⟩ := (h.inv.mem s p i).mp hmem
    have hle' : qty ≤ b.rem i := hle _ _ hm
    obtain ⟨hr, htick, _, hvic⟩ := executeFront_spec h.inv hq (by omega) hle'
    rw [hm]
    dsimp only
    have hsmall := h.small i hi
    have hbook := h.reduced hi (by omega) hr
    rw [hs, hp] at hbook
    refine ⟨?_, hvic, _, hbook⟩
    rw [htick, toU32_of_small (by omega) (by omega)]
    rfl

/-- Removing agrees. -/
theorem remove_agrees (h : Refines cfg b q m) {ref : Nat} (href : ref ≠ 0) :
    Agrees cfg (b.remove ref) (m.remove cfg ref) := by
  unfold FifoBook.remove
  rcases live_or_dead b ref with ⟨i, hi, rfl⟩ | hd
  · rw [h.find_live hi]
    obtain ⟨hr, htick, _⟩ := remove_spec h.inv hi
    refine h.agrees_reduced hi (h.inv.pos i hi) (Int.le_refl _) hr ?_ ?_
    · rw [htick, if_pos rfl]
    · unfold OrderBook.remove
      dsimp only
      split <;> rfl
  · rw [h.find_dead hd]
    have hnull := (h.inv.idFind_null_iff href).mpr hd
    rw [idFind] at hnull
    unfold OrderBook.remove
    dsimp only
    rw [if_pos hnull]
    exact h.agrees_fail _

/-- Replacing agrees. -/
theorem replace_agrees (h : Refines cfg b q m) {origRef newRef : Nat} {qty p : Int}
    (horig : origRef ≠ 0) (hnew : newRef ≠ 0) (hq : qty < 2 ^ 32) :
    Agrees cfg (b.replace origRef newRef qty p) (m.replace k cfg origRef newRef qty p) := by
  unfold FifoBook.replace
  -- Both sides check in the same order: the quantity, the band, the order, the page, the new
  -- reference; each refusal leaves both books as they were.
  by_cases h1 : qty ≤ 0
  · rw [if_pos h1, OrderBook.replace, if_pos h1]
    exact h.agrees_fail _
  rw [if_neg h1]
  by_cases h2 : b.inBand p
  swap
  · rw [if_pos (fun hh => h2 ((h.inBand_iff p).mpr hh)), OrderBook.replace, if_neg h1, if_pos h2]
    exact h.agrees_fail _
  rw [if_neg (not_not.mpr ((h.inBand_iff p).mp h2))]
  rcases live_or_dead b origRef with ⟨i, hi, rfl⟩ | hd
  swap
  · rw [h.find_dead hd]
    rw [OrderBook.replace, if_neg h1, if_neg (not_not.mpr h2)]
    dsimp only
    rw [if_pos ((h.inv.idFind_null_iff horig).mpr hd)]
    exact h.agrees_fail _
  rw [h.find_live hi]
  dsimp only
  have hf : (b.idFind (b.order i).orderRef).index = i :=
    (h.inv.idFind_eq_iff horig (h.inv.ne_null hi)).mpr ⟨hi, rfl⟩
  have hside : (b.arena.deref (b.idFind (b.order i).orderRef)).side = (b.order i).side := by
    rw [Arena.deref, hf]; rfl
  have hnn : (b.idFind (b.order i).orderRef).index ≠ kNullIndex := by
    rw [hf]; exact h.inv.ne_null hi
  by_cases h3 : (b.ladderFor (b.order i).side).claimable p
  swap
  · rw [if_pos (fun hh => h3 ((h.claimable_iff _ p).mpr hh)), OrderBook.replace, if_neg h1,
      if_neg (not_not.mpr h2)]
    dsimp only
    rw [if_neg hnn, hside, if_pos h3]
    exact h.agrees_fail _
  rw [if_neg (not_not.mpr ((h.claimable_iff _ p).mp h3))]
  by_cases h4 : (b.order i).orderRef ≠ newRef ∧ (b.idFind newRef).index ≠ kNullIndex
  · rw [if_pos ⟨h4.1, (h.find_ne_none_iff hnew).mpr h4.2⟩, OrderBook.replace, if_neg h1,
      if_neg (not_not.mpr h2)]
    dsimp only
    rw [if_neg hnn, hside, if_neg (not_not.mpr h3), if_pos h4]
    exact h.agrees_fail _
  rw [if_neg (fun hh => h4 ⟨hh.1, (h.find_ne_none_iff hnew).mp hh.2⟩)]
  have hdup : newRef = (b.order i).orderRef ∨ ∀ j, b.live j → (b.order j).orderRef ≠ newRef := by
    by_cases he : newRef = (b.order i).orderRef
    · exact Or.inl he
    · refine Or.inr ((h.inv.idFind_null_iff hnew).mp ?_)
      by_contra hc
      exact h4 ⟨fun hh => he hh.symm, hc⟩
  -- What is left is a replace that succeeds: the order is taken out and the new one rests.
  have hpos : 0 < qty := by omega
  obtain ⟨b1, hred, _, ⟨j, hrest⟩, htick, _⟩ := replace_spec h.inv hi hnew hpos h2 h3 hdup
  refine ⟨?_, ?_, _, (h.reduced hi (h.inv.pos i hi) hred).rested hrest hq⟩
  · rw [htick, toU32_of_small hpos hq]
    rfl
  · rw [OrderBook.replace, if_neg h1, if_neg (not_not.mpr h2)]
    dsimp only
    rw [if_neg hnn, hside, if_neg (not_not.mpr h3), if_neg h4]

/-- **One call**: a legal call reports the same on both sides and keeps the books in step. -/
theorem call_agrees (h : Refines cfg b q m) {c : BookCall} (hc : m.Legal c) :
    Agrees cfg (b.call c) (m.call k cfg c) := by
  cases c with
  | add ref s qty p => exact h.add_agrees hc
  | execute ref qty => exact h.execute_agrees hc.1
  | cancel ref qty => exact h.execute_agrees hc.1
  | executeFront s p qty => exact h.executeFront_agrees hc
  | remove ref => exact h.remove_agrees hc
  | replace origRef newRef qty p => exact h.replace_agrees hc.1 hc.2.1 hc.2.2

end Refines

/-! ## Whole runs -/

/-- Everything the book's interface shows of its state is what the abstract book shows. -/
structure Observes (cfg : BookConfig) (b : OrderBook k) (m : FifoBook) : Prop where
  liveOrders : b.liveOrders = m.liveOrders cfg
  remainingOf : ∀ ref, b.remainingOf ref = m.remainingOf cfg ref
  sideOf : ∀ ref, b.sideOf ref = m.sideOf cfg ref
  qtyAt : ∀ s p, b.qtyAt s p = totalOf (m.queue s p)
  frontRef : ∀ s p, b.frontRef s p = m.frontRef s p
  level : ∀ s p, (b.levelSlots s p).map b.resting = m.queue s p
  best : ∀ s, b.best s = m.best cfg s
  nextPriceAbove : ∀ s t, b.nextPriceAbove s t = m.nextAbove cfg s t
  nextPriceBelow : ∀ s t, b.nextPriceBelow s t = m.nextBelow cfg s t

theorem Refines.observes (h : Refines cfg b q m) : Observes cfg b m where
  liveOrders := h.liveOrders_eq
  remainingOf := h.remainingOf_eq
  sideOf := h.sideOf_eq
  qtyAt := h.qtyAt_eq
  frontRef := h.frontRef_eq
  level := h.levelSlots_eq
  best := h.best_eq
  nextPriceAbove := h.nextPriceAbove_eq
  nextPriceBelow := h.nextPriceBelow_eq

/-- A result of the implementation and one of the abstract book that cannot be told apart. -/
structure SameResult (cfg : BookConfig) (r : BookResult k) (f : FifoResult) : Prop where
  tick : r.tick = Refines.tickOf f.outcome
  victim : r.victim = f.victim
  book : Observes cfg r.book f.book

/-- **Runs agree**, call by call. -/
theorem run_same {calls : List BookCall} :
    ∀ {b : OrderBook k} {q : Side → Int → List Nat} {m : FifoBook}, Refines cfg b q m →
      m.LegalRun k cfg calls →
      List.Forall₂ (SameResult cfg) (b.run calls) (m.run k cfg calls) := by
  induction calls with
  | nil => intro b q m _ _; exact .nil
  | cons c calls ih =>
      intro b q m h hl
      obtain ⟨htick, hvic, q', hbook⟩ := h.call_agrees hl.1
      exact .cons ⟨htick, hvic, hbook.observes⟩ (ih hbook hl.2)

/--
**The order book refines the price-time book.**

From a fresh book and over any sequence of legal calls, every call accepts or
rejects alike, with the same error or the same price, quantity, kind, side and
victim, and after every call the two books answer every query alike.
-/
theorem orderBook_refines_fifo (h : ConfigOk k cfg) (calls : List BookCall)
    (hl : ({} : FifoBook).LegalRun k cfg calls) :
    Observes cfg (init cfg : OrderBook k) {}
      ∧ List.Forall₂ (SameResult cfg) ((init cfg : OrderBook k).run calls)
        (({} : FifoBook).run k cfg calls) :=
  ⟨(refines_init h).observes, run_same (refines_init h) hl⟩

/-- A band of one page, two slots: a bid rests and its head is hit. -/
theorem orderBook_refines_fifo_hit :
    List.Forall₂ (SameResult ⟨2, ⟨0, 16, 1⟩⟩)
      ((init ⟨2, ⟨0, 16, 1⟩⟩ : OrderBook 4).run [.add 1 .buy 5 3, .executeFront .buy 3 2])
      (({} : FifoBook).run 4 ⟨2, ⟨0, 16, 1⟩⟩ [.add 1 .buy 5 3, .executeFront .buy 3 2]) := by
  refine (@orderBook_refines_fifo 4 ⟨2, ⟨0, 16, 1⟩⟩ ?_ _ ?_).2
  · exact ⟨by decide, by decide, by decide, by decide, by decide⟩
  · refine ⟨show (5 : Int) < 2 ^ 32 by decide, ?_, trivial⟩
    intro r l hq
    have hqueue : (({} : FifoBook).call 4 ⟨2, ⟨0, 16, 1⟩⟩ (.add 1 .buy 5 3)).book.queue .buy 3
        = [⟨1, 5⟩] := by decide +kernel
    rw [hqueue] at hq
    rw [← (List.cons.inj hq).1]
    decide

end OrderBook

end Mog
