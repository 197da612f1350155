import Mog.Book.Contracts

/-!
# Level deltas, and the ring that keeps them

A successful call appends one signed delta for each level total it has changed, in a
32-bit field; a `DeltaRing` keeps the last of them with sequence numbers.

* `apply_moves`: what one message does to the level totals, with the exact changes
  that its deltas narrow.
* `DeltaRing.fed_transitions`: a ring that has dropped nothing hands back what it
  was fed, numbered from zero.
* `reconstructs_iff`: folding the deltas gives the level totals all along a feed
  exactly when no order of `2 ^ 31` or more comes to rest.
-/

namespace Mog

/-- The sum of the deltas of one side and price. -/
def foldL2 (ds : List LevelDelta) (s : Side) (p : Int) : Int :=
  ((ds.filter (fun d => d.side = s ∧ d.priceTicks = p)).map LevelDelta.qtyDelta).sum

theorem foldL2_nil (s : Side) (p : Int) : foldL2 [] s p = 0 := rfl

theorem foldL2_append (ds es : List LevelDelta) (s : Side) (p : Int) :
    foldL2 (ds ++ es) s p = foldL2 ds s p + foldL2 es s p := by
  unfold foldL2
  rw [List.filter_append, List.map_append, List.sum_append]

theorem foldL2_singleton (d : LevelDelta) (s : Side) (p : Int) :
    foldL2 [d] s p = if s = d.side ∧ p = d.priceTicks then d.qtyDelta else 0 := by
  unfold foldL2
  by_cases hd : s = d.side ∧ p = d.priceTicks
  · rw [if_pos hd]
    simp [hd.1, hd.2]
  · have hd' : ¬ (d.side = s ∧ d.priceTicks = p) := fun hh => hd ⟨hh.1.symm, hh.2.symm⟩
    rw [if_neg hd]
    simp [hd']

/-- The delta as it is stored, in 32 bits. -/
def LevelDelta.narrow (d : LevelDelta) : LevelDelta := { d with qtyDelta := toI32 d.qtyDelta }

/-- A quantity survives the narrowing exactly when it fits. -/
theorem toI32_eq_iff (q : Int) : toI32 q = q ↔ -2 ^ 31 ≤ q ∧ q < 2 ^ 31 := by
  unfold toI32
  omega

/-! ## The ring -/

structure Transition where
  seq : Nat := 0
  delta : LevelDelta := { priceTicks := 0, qtyDelta := 0, side := .buy }
deriving DecidableEq, Repr

structure DeltaRing (kCapacity : Nat) where
  slots : Nat → Transition := fun _ => {}
  head : Nat := 0
  size : Nat := 0
  nextSeq : Nat := 0
  dropped : Nat := 0

namespace DeltaRing

variable {kCapacity : Nat}

/-- Overwrites the oldest entry when full. -/
def push (r : DeltaRing kCapacity) (d : LevelDelta) : DeltaRing kCapacity :=
  { slots := Function.update r.slots r.head { seq := r.nextSeq, delta := d }
    head := (r.head + 1) &&& (kCapacity - 1)
    size := if r.size < kCapacity then r.size + 1 else r.size
    dropped := if r.size < kCapacity then r.dropped else r.dropped + 1
    nextSeq := r.nextSeq + 1 }

/-- What `for_each` visits, oldest first. -/
def transitions (r : DeltaRing kCapacity) : List Transition :=
  let base := if r.size < kCapacity then 0 else r.head
  (List.range r.size).map (fun i => r.slots ((base + i) &&& (kCapacity - 1)))

/-- A ring fed with a list of deltas. -/
def fed (kCapacity : Nat) (ds : List LevelDelta) : DeltaRing kCapacity := ds.foldl push {}

theorem fed_concat (ds : List LevelDelta) (d : LevelDelta) :
    fed kCapacity (ds ++ [d]) = (fed kCapacity ds).push d := by
  unfold fed
  rw [List.foldl_append]
  rfl

/-- Every push is kept or counted as dropped. -/
theorem fed_size (kCapacity : Nat) (ds : List LevelDelta) :
    (fed kCapacity ds).size ≤ kCapacity
      ∧ (fed kCapacity ds).size + (fed kCapacity ds).dropped = ds.length := by
  induction ds using List.reverseRecOn with
  | nil => exact ⟨Nat.zero_le _, rfl⟩
  | append_singleton ds d ih =>
      rw [fed_concat, List.length_append, List.length_singleton]
      unfold push
      dsimp only
      split <;> omega

/-- While there is room, a ring is an array. -/
theorem fed_slots {e : Nat} (ds : List LevelDelta) (hlen : ds.length ≤ 2 ^ e) :
    (fed (2 ^ e) ds).nextSeq = ds.length ∧ (fed (2 ^ e) ds).head = ds.length % 2 ^ e
      ∧ (fed (2 ^ e) ds).size = ds.length
      ∧ ∀ i d, ds[i]? = some d → (fed (2 ^ e) ds).slots i = { seq := i, delta := d } := by
  induction ds using List.reverseRecOn with
  | nil => exact ⟨rfl, (Nat.zero_mod _).symm, rfl, fun i d hd => by simp at hd⟩
  | append_singleton ds d ih =>
      rw [List.length_append, List.length_singleton] at hlen ⊢
      obtain ⟨hseq, hhead, hsize, hslots⟩ := ih (by omega)
      have hlt : ds.length < 2 ^ e := by omega
      rw [Nat.mod_eq_of_lt hlt] at hhead
      rw [fed_concat]
      unfold push
      dsimp only
      refine ⟨by rw [hseq], ?_, by rw [hsize, if_pos hlt], fun i d' hd' => ?_⟩
      · rw [hhead, Nat.and_two_pow_sub_one_eq_mod]
      · rw [hhead, hseq, Function.update_apply]
        by_cases hi : i = ds.length
        · rw [if_pos hi]
          rw [hi, List.getElem?_concat_length] at hd'
          rw [hi, Option.some.inj hd']
        · rw [if_neg hi]
          refine hslots i d' ?_
          rw [← hd', List.getElem?_append_left]
          have hlt' := (List.getElem?_eq_some_iff.mp hd').1
          rw [List.length_append, List.length_singleton] at hlt'
          omega

/-- **A ring that has dropped nothing** holds all it was fed, in order, numbered from zero. -/
theorem fed_transitions {e : Nat} (ds : List LevelDelta) (hd : (fed (2 ^ e) ds).dropped = 0) :
    (fed (2 ^ e) ds).transitions.map Transition.delta = ds
      ∧ (fed (2 ^ e) ds).transitions.map Transition.seq = List.range ds.length := by
  obtain ⟨hle, hsum⟩ := fed_size (2 ^ e) ds
  obtain ⟨_, hhead, hsize, hslots⟩ := fed_slots (e := e) ds (by omega)
  -- a full ring has come round to its first slot
  have hbase : (if (fed (2 ^ e) ds).size < 2 ^ e then 0 else (fed (2 ^ e) ds).head) = 0 := by
    split
    · rfl
    · rw [hhead, show ds.length = 2 ^ e by omega, Nat.mod_self]
  have hentry : (fed (2 ^ e) ds).transitions
      = (List.range ds.length).map (fun i => (fed (2 ^ e) ds).slots i) := by
    unfold transitions
    dsimp only
    rw [hbase, hsize]
    refine List.map_congr_left (fun i hi => ?_)
    rw [List.mem_range] at hi
    rw [Nat.zero_add, Nat.and_two_pow_sub_one_eq_mod, Nat.mod_eq_of_lt (by omega)]
  have hkept : ∀ i (hi : i < ds.length), (fed (2 ^ e) ds).slots i = { seq := i, delta := ds[i] } :=
    fun i hi => hslots i ds[i] (List.getElem?_eq_getElem hi)
  rw [hentry, List.map_map, List.map_map]
  constructor
  · refine List.ext_getElem (by simp) (fun i h1 h2 => ?_)
    simp [hkept i h2]
  · refine (List.map_congr_left (fun i hi => ?_)).trans (List.map_id _)
    simp [hkept i (List.mem_range.mp hi)]

end DeltaRing

/-! ## What one message does to the level totals -/

/-- The references of a message are not zero. -/
def Message.Named : Message → Prop
  | .addOrder m => m.orderRef ≠ 0
  | .addOrderAttribution m => m.orderRef ≠ 0
  | .orderExecuted m => m.orderRef ≠ 0
  | .orderExecutedWithPrice m => m.orderRef ≠ 0
  | .orderCancel m => m.orderRef ≠ 0
  | .orderDelete m => m.orderRef ≠ 0
  | .orderReplace m => m.originalOrderRef ≠ 0 ∧ m.newOrderRef ≠ 0

namespace OrderBook

variable {k : Nat} {b b' : OrderBook k}

/-- The message brings an order of `q` shares to rest. -/
def Lands (b : OrderBook k) (q : Int) : Message → Prop
  | .addOrder m => b.Addable m.orderRef m.side m.shares m.price ∧ m.shares = q
  | .addOrderAttribution m => b.Addable m.orderRef m.side m.shares m.price ∧ m.shares = q
  | .orderReplace m => ∃ i, b.live i ∧ (b.order i).orderRef = m.originalOrderRef
      ∧ b.Replaceable i m.newOrderRef m.shares m.price ∧ m.shares = q
  | _ => False

/-- A call has taken `reds` off the level totals and brought `add` to rest. -/
structure Moves (b : OrderBook k) (r : BookResult k) (reds : List LevelDelta)
    (add : Option LevelDelta) : Prop where
  deltas : r.deltas = (reds ++ add.toList).map LevelDelta.narrow
  qtyAt : ∀ s p, r.book.qtyAt s p = b.qtyAt s p + foldL2 (reds ++ add.toList) s p
  refused : ¬ r.tick.ok → r.deltas = []
  lost : ∀ c ∈ reds, ∃ i, b.live i ∧ 0 < -c.qtyDelta ∧ -c.qtyDelta ≤ b.rem i
  placed : ∀ c, add = some c → 0 < c.qtyDelta
  rem : ∀ j, r.book.live j → (b.live j ∧ r.book.rem j ≤ b.rem j)
    ∨ ∃ c, add = some c ∧ r.book.rem j = c.qtyDelta

/-- A call that is refused moves nothing. -/
theorem moves_refused {r : BookResult k} (ht : b.Told r) (hno : ¬ r.tick.ok) :
    Moves b r [] none := by
  obtain ⟨e, rfl⟩ := ht.resolve_left hno
  refine ⟨rfl, fun s p => ?_, fun _ => rfl, fun c hc => absurd hc List.not_mem_nil,
    fun c hc => absurd hc (Option.some_ne_none c).symm,
    fun j hj => Or.inl ⟨hj, Int.le_refl _⟩⟩
  show _ = _ + foldL2 [] s p
  rw [foldL2_nil, Int.add_zero]
  rfl

/-- An order has come to rest. -/
theorem moves_rested (h : b.Valid) {r : BookResult k} {i : Nat} {v : OrderView}
    (hrest : Rested b b.levelSlots r.book i v) (hqty : 0 < v.qtyRemaining) (hok : r.tick.ok)
    (hdeltas : r.deltas = [(⟨v.priceTicks, v.qtyRemaining, v.side⟩ : LevelDelta).narrow]) :
    Moves b r [] (some ⟨v.priceTicks, v.qtyRemaining, v.side⟩) := by
  refine ⟨hdeltas, fun s p => ?_, fun hno => absurd hok hno,
    fun c hc => absurd hc List.not_mem_nil, fun c hc => ?_, fun j hj => ?_⟩
  · rw [hrest.qtyAt h]
    show _ = _ + foldL2 [_] s p
    rw [foldL2_singleton]
  · obtain rfl := Option.some.inj hc
    exact hqty
  · by_cases hji : j = i
    · refine Or.inr ⟨_, rfl, ?_⟩
      rw [hji, hrest.rem_self]
    · have hl := ((hrest.live j).mp hj).resolve_left hji
      exact Or.inl ⟨hl, Int.le_of_eq (hrest.rem_other hji)⟩

/-- An order has lost quantity. -/
theorem moves_reduced (h : b.Valid) {r : BookResult k} {i : Nat} (hi : b.live i) {qty : Int}
    (hred : Reduced b b.levelSlots r.book i qty) (hpos : 0 < qty) (hle : qty ≤ b.rem i)
    (hok : r.tick.ok)
    (hdeltas : r.deltas = [(⟨(b.order i).priceTicks, -qty, (b.order i).side⟩ : LevelDelta).narrow]) :
    Moves b r [⟨(b.order i).priceTicks, -qty, (b.order i).side⟩] none := by
  refine ⟨hdeltas, fun s p => ?_, fun hno => absurd hok hno, fun c hc => ?_,
    fun c hc => absurd hc (Option.some_ne_none c).symm, fun j hj => Or.inl ⟨((hred.live j).mp hj).1, ?_⟩⟩
  · rw [hred.qtyAt h hi]
    show _ = _ + foldL2 [_] s p
    rw [foldL2_singleton]
    dsimp only
    split <;> omega
  · obtain rfl := List.mem_singleton.mp hc
    refine ⟨i, hi, ?_, ?_⟩
    · show 0 < - -qty
      omega
    · show - -qty ≤ b.rem i
      omega
  · by_cases hji : j = i
    · have hne : b.rem i ≠ qty := fun he => ((hred.live j).mp hj).2 ⟨hji, he⟩
      rw [hji, hred.rem_self hne]
      omega
    · exact Int.le_of_eq (hred.rem_other hji)

theorem add_moves (h : b.Valid) (ref : Nat) (s : Side) (qty price : Int) :
    ∃ add, Moves b (b.add ref s qty price) [] add
      ∧ ∀ q, b.Addable ref s qty price ∧ qty = q ↔ ∃ c, add = some c ∧ c.qtyDelta = q := by
  by_cases ha : b.Addable ref s qty price
  · have hdup := (h.idFind_null_iff ha.named).mp ha.free
    obtain ⟨⟨i, hi⟩, htick, hdel⟩ := add_rests h ha.named ha.pos ha.band ha.page hdup ha.room
    refine ⟨_, moves_rested h hi ha.pos (by rw [htick]; exact TickKind.noConfusion) hdel,
      fun q => ?_⟩
    constructor
    · rintro ⟨_, rfl⟩
      exact ⟨_, rfl, rfl⟩
    · rintro ⟨c, hc, rfl⟩
      obtain rfl := Option.some.inj hc
      exact ⟨ha, rfl⟩
  · have hno := (add_cases h ref s qty price).resolve_left (fun hh => ha hh.1)
    refine ⟨none, moves_refused (told_add b ref s qty price) hno.2.1, fun q => ?_⟩
    exact ⟨fun hh => absurd hh.1 ha, fun ⟨c, hc, _⟩ => absurd hc (Option.some_ne_none c).symm⟩

theorem execute_moves (h : b.Valid) {ref : Nat} (hr : ref ≠ 0) (qty : Int) :
    ∃ reds, Moves b (b.execute ref qty) reds none := by
  by_cases hok : (b.execute ref qty).tick.ok
  swap
  · exact ⟨[], moves_refused (told_execute b ref qty) hok⟩
  by_cases h1 : qty ≤ 0
  · rw [execute, if_pos h1] at hok
    exact absurd hok (not_ok_tickError _)
  by_cases h2 : (b.idFindSlot ref).handle.index = kNullIndex
  · rw [execute, if_neg h1] at hok
    dsimp only at hok
    rw [if_pos h2] at hok
    exact absurd hok (not_ok_tickError _)
  by_cases h3 : (b.arena.deref (b.idFindSlot ref).handle).qtyRemaining < qty
  · rw [execute, if_neg h1] at hok
    dsimp only at hok
    rw [if_neg h2, if_pos h3] at hok
    exact absurd hok (not_ok_tickError _)
  obtain ⟨hl, href, _⟩ := h.idFind_live hr h2
  have hle : qty ≤ b.rem (b.idFind ref).index := Int.not_lt.mp h3
  obtain ⟨hred, _, hdel⟩ := execute_spec h hl (Int.not_le.mp h1) hle
  rw [href] at hred hdel
  exact ⟨_, moves_reduced h hl hred (Int.not_le.mp h1) hle hok hdel⟩

theorem remove_moves (h : b.Valid) {ref : Nat} (hr : ref ≠ 0) :
    ∃ reds, Moves b (b.remove ref) reds none := by
  rcases remove_cases h hr with ⟨i, _, hi, href, hok, hred⟩ | ⟨_, hno, _⟩
  · have hdel := (remove_spec h hi).2.2
    rw [href] at hdel
    exact ⟨_, moves_reduced h hi hred (h.pos i hi) (Int.le_refl _) hok hdel⟩
  · exact ⟨[], moves_refused (told_remove b ref) hno⟩

/-- A replacement takes the old order off its level and brings the new one to rest. -/
theorem moves_replaced (h : b.Valid) {r : BookResult k} {i j newRef : Nat} (hi : b.live i)
    {qty price : Int} (hqty : 0 < qty) {b1 : OrderBook k}
    (hred : Reduced b b.levelSlots b1 i (b.rem i))
    (hrest : Rested b1 b1.levelSlots r.book j ⟨newRef, qty, price, (b.order i).side⟩)
    (hok : r.tick.ok)
    (hdeltas : r.deltas = [(⟨(b.order i).priceTicks, -b.rem i, (b.order i).side⟩ : LevelDelta).narrow,
      (⟨price, qty, (b.order i).side⟩ : LevelDelta).narrow]) :
    Moves b r [⟨(b.order i).priceTicks, -b.rem i, (b.order i).side⟩]
      (some ⟨price, qty, (b.order i).side⟩) := by
  refine ⟨hdeltas, fun s p => ?_, fun hno => absurd hok hno, fun c hc => ?_, fun c hc => ?_,
    fun x hx => ?_⟩
  · rw [hrest.qtyAt hred.valid, hred.qtyAt h hi, foldL2_append]
    show _ = _ + (foldL2 [_] s p + foldL2 [_] s p)
    rw [foldL2_singleton, foldL2_singleton]
    dsimp only
    split <;> split <;> omega
  · obtain rfl := List.mem_singleton.mp hc
    have hpos := h.pos i hi
    refine ⟨i, hi, ?_, ?_⟩
    · show 0 < - -b.rem i
      omega
    · show - -b.rem i ≤ b.rem i
      omega
  · obtain rfl := Option.some.inj hc
    exact hqty
  · by_cases hxj : x = j
    · refine Or.inr ⟨_, rfl, ?_⟩
      rw [hxj, hrest.rem_self]
    · obtain ⟨hl, hni⟩ := (hred.live x).mp (((hrest.live x).mp hx).resolve_left hxj)
      refine Or.inl ⟨hl, Int.le_of_eq ?_⟩
      rw [hrest.rem_other hxj, hred.rem_other (fun he => hni ⟨he, rfl⟩)]

theorem replace_moves_totals (h : b.Valid) {origRef newRef : Nat} (ho : origRef ≠ 0)
    (hn : newRef ≠ 0) (qty price : Int) :
    ∃ reds add, Moves b (b.replace origRef newRef qty price) reds add
      ∧ ∀ q, (∃ i, b.live i ∧ (b.order i).orderRef = origRef ∧ b.Replaceable i newRef qty price
          ∧ qty = q) ↔ ∃ c, add = some c ∧ c.qtyDelta = q := by
  by_cases hlive : ∃ i, b.live i ∧ (b.order i).orderRef = origRef
    ∧ b.Replaceable i newRef qty price
  · obtain ⟨i, hi, rfl, hrep⟩ := hlive
    have hdup : newRef = (b.order i).orderRef ∨ ∀ j, b.live j → (b.order j).orderRef ≠ newRef :=
      hrep.free.imp id (fun hnull => (h.idFind_null_iff hn).mp hnull)
    obtain ⟨b1, hred, _, ⟨j, hrest⟩, htick, hdel⟩ :=
      replace_spec h hi hn hrep.pos hrep.band hrep.page hdup
    rw [hred.inv.queues] at hrest
    refine ⟨_, _, moves_replaced h hi hrep.pos hred hrest
      (by rw [htick]; exact TickKind.noConfusion) hdel, fun q => ?_⟩
    constructor
    · rintro ⟨_, _, _, _, rfl⟩
      exact ⟨_, rfl, rfl⟩
    · rintro ⟨c, hc, rfl⟩
      obtain rfl := Option.some.inj hc
      exact ⟨i, hi, rfl, hrep, rfl⟩
  · have hno : ¬ (b.replace origRef newRef qty price).tick.ok := by
      by_cases hf : (b.findHandle origRef).index = kNullIndex
      · exact (replace_unknown hf newRef qty price).1
      · obtain ⟨hl, href, _⟩ := h.idFind_live ho hf
        have hnr : ¬ b.Replaceable (b.idFind origRef).index newRef qty price :=
          fun hrep => hlive ⟨_, hl, href, hrep⟩
        have := (replace_refused h hl hnr).1
        rwa [href] at this
    refine ⟨[], none, moves_refused (told_replace b _ _ _ _) hno, fun q => ?_⟩
    exact ⟨fun ⟨i, h1, h2, h3, _⟩ => absurd ⟨i, h1, h2, h3⟩ hlive,
      fun ⟨c, hc, _⟩ => absurd hc (Option.some_ne_none c).symm⟩

/-- **What one message does to the level totals.** -/
theorem apply_moves (h : b.Valid) {m : Message} (hm : m.Named) :
    ∃ reds add, Moves b (b.apply m) reds add
      ∧ ∀ q, b.Lands q m ↔ ∃ c, add = some c ∧ c.qtyDelta = q := by
  have hnone : ∀ q, False ↔ ∃ c : LevelDelta, none = some c ∧ c.qtyDelta = q := fun q =>
    ⟨False.elim, fun ⟨c, hc, _⟩ => absurd hc (Option.some_ne_none c).symm⟩
  cases m with
  | addOrder m => exact ⟨[], add_moves h _ _ _ _⟩
  | addOrderAttribution m => exact ⟨[], add_moves h _ _ _ _⟩
  | orderExecuted m =>
      obtain ⟨reds, hmv⟩ := execute_moves h hm m.executedShares
      exact ⟨reds, none, hmv, hnone⟩
  | orderExecutedWithPrice m =>
      obtain ⟨reds, hmv⟩ := execute_moves h hm m.executedShares
      exact ⟨reds, none, hmv, hnone⟩
  | orderCancel m =>
      obtain ⟨reds, hmv⟩ := execute_moves h hm m.cancelledShares
      exact ⟨reds, none, hmv, hnone⟩
  | orderDelete m =>
      obtain ⟨reds, hmv⟩ := remove_moves h hm
      exact ⟨reds, none, hmv, hnone⟩
  | orderReplace m => exact replace_moves_totals h hm.1 hm.2 _ _

/-! ## Feeds -/

/-- The deltas the messages of a feed append, oldest first. -/
def deltasOf : OrderBook k → List Message → List LevelDelta
  | _, [] => []
  | b, m :: feed => (b.apply m).deltas ++ deltasOf (b.apply m).book feed

theorem applyAll_concat (b : OrderBook k) (feed : List Message) (m : Message) :
    b.applyAll (feed ++ [m]) = ((b.applyAll feed).apply m).book := by
  unfold applyAll
  rw [List.foldl_append]
  rfl

theorem deltasOf_concat (feed : List Message) (m : Message) : ∀ b : OrderBook k,
    b.deltasOf (feed ++ [m]) = b.deltasOf feed ++ ((b.applyAll feed).apply m).deltas := by
  induction feed with
  | nil => intro b; simp [deltasOf, applyAll]
  | cons c feed ih =>
      intro b
      show (b.apply c).deltas ++ (b.apply c).book.deltasOf (feed ++ [m]) = _
      rw [ih, ← List.append_assoc]
      rfl

/-- No live order has `2 ^ 31` shares or more. -/
def Small (b : OrderBook k) : Prop := ∀ i, b.live i → b.rem i < 2 ^ 31

/-- An order that the message brings to rest has fewer than `2 ^ 31` shares. -/
def Fits (b : OrderBook k) (m : Message) : Prop := ∀ q, b.Lands q m → q < 2 ^ 31

/-- What folding the deltas of a feed, directly or through a ring, gives. -/
structure Reconstructs (b : OrderBook k) (feed : List Message) : Prop where
  folds : ∀ s p, foldL2 (b.deltasOf feed) s p = (b.applyAll feed).qtyAt s p
  refused : ∀ pre m, pre ++ [m] <+: feed → ¬ ((b.applyAll pre).apply m).tick.ok →
    ((b.applyAll pre).apply m).deltas = []
  nonzero : ∀ d ∈ b.deltasOf feed, d.qtyDelta ≠ 0
  ring : ∀ e, (DeltaRing.fed (2 ^ e) (b.deltasOf feed)).dropped = 0 →
    (∀ s p, foldL2 ((DeltaRing.fed (2 ^ e) (b.deltasOf feed)).transitions.map Transition.delta) s p
        = (b.applyAll feed).qtyAt s p)
      ∧ (DeltaRing.fed (2 ^ e) (b.deltasOf feed)).transitions.map Transition.seq
        = List.range (b.deltasOf feed).length

theorem narrow_eq {d : LevelDelta} (h : -2 ^ 31 ≤ d.qtyDelta ∧ d.qtyDelta < 2 ^ 31) :
    d.narrow = d := by
  obtain ⟨p, q, s⟩ := d
  rw [LevelDelta.narrow, (toI32_eq_iff q).mpr h]

theorem Moves.reds_narrow {r : BookResult k} {reds : List LevelDelta} {add : Option LevelDelta}
    (h : Moves b r reds add) (hs : b.Small) : reds.map LevelDelta.narrow = reds := by
  refine (List.map_congr_left (fun c hc => ?_)).trans (List.map_id _)
  obtain ⟨i, hi, h1, h2⟩ := h.lost c hc
  have := hs i hi
  exact narrow_eq ⟨by omega, by omega⟩

/-- While the orders are small, one message's deltas are its changes exactly when what it brings
to rest is small. -/
theorem Moves.fold_iff {r : BookResult k} {reds : List LevelDelta} {add : Option LevelDelta}
    (h : Moves b r reds add) (hs : b.Small) :
    (∀ s p, foldL2 r.deltas s p = foldL2 (reds ++ add.toList) s p)
      ↔ ∀ c, add = some c → c.qtyDelta < 2 ^ 31 := by
  rw [h.deltas, List.map_append, h.reds_narrow hs]
  cases add with
  | none => exact ⟨fun _ c hc => absurd hc (Option.some_ne_none c).symm, fun _ s p => rfl⟩
  | some c =>
      have hpos := h.placed c rfl
      show (∀ s p, foldL2 (reds ++ [c.narrow]) s p = foldL2 (reds ++ [c]) s p) ↔ _
      constructor
      · intro heq c' hc'
        obtain rfl := Option.some.inj hc'
        have hc := heq c.side c.priceTicks
        rw [foldL2_append, foldL2_append, foldL2_singleton, foldL2_singleton,
          if_pos (show c.side = c.narrow.side ∧ c.priceTicks = c.narrow.priceTicks from ⟨rfl, rfl⟩),
          if_pos ⟨rfl, rfl⟩] at hc
        have hq : toI32 c.qtyDelta = c.qtyDelta := Int.add_left_cancel hc
        exact ((toI32_eq_iff _).mp hq).2
      · intro hlt s p
        rw [narrow_eq ⟨by omega, hlt c rfl⟩]

theorem Moves.small {r : BookResult k} {reds : List LevelDelta} {add : Option LevelDelta}
    (h : Moves b r reds add) (hs : b.Small) (hadd : ∀ c, add = some c → c.qtyDelta < 2 ^ 31) :
    r.book.Small := by
  intro j hj
  rcases h.rem j hj with ⟨hl, hle⟩ | ⟨c, hc, heq⟩
  · exact Int.lt_of_le_of_lt hle (hs j hl)
  · rw [heq]
    exact hadd c hc

/-- The deltas of one message are not zero. -/
theorem Moves.nonzero {r : BookResult k} {reds : List LevelDelta} {add : Option LevelDelta}
    (h : Moves b r reds add) (hs : b.Small) (hadd : ∀ c, add = some c → c.qtyDelta < 2 ^ 31) :
    ∀ d ∈ r.deltas, d.qtyDelta ≠ 0 := by
  rw [h.deltas, List.map_append, h.reds_narrow hs]
  intro d hd
  rcases List.mem_append.mp hd with hm | hm
  · obtain ⟨i, _, hpos, _⟩ := h.lost d hm
    omega
  · obtain ⟨c, hc, rfl⟩ := List.mem_map.mp hm
    have hc' := Option.mem_toList.mp hc
    have hpos := h.placed c hc'
    have hlt := hadd c hc'
    rw [narrow_eq ⟨by omega, hlt⟩]
    omega

theorem init_small (cfg : BookConfig) : (init cfg : OrderBook k).Small :=
  fun _ hi => Bool.noConfusion hi

theorem init_qtyAt {cfg : BookConfig} (hc : ConfigOk k cfg) (s : Side) (p : Int) :
    (init cfg : OrderBook k).qtyAt s p = 0 := by
  rw [(init_inv hc).qtyAt_eq]
  rfl

/-- While every order that comes to rest is small, the deltas add up. -/
theorem folds_of_fits {cfg : BookConfig} (hc : ConfigOk k cfg) (feed : List Message) :
    (∀ m ∈ feed, m.Named) →
    (∀ pre m, pre ++ [m] <+: feed → ((init cfg : OrderBook k).applyAll pre).Fits m) →
    (∀ s p, foldL2 ((init cfg : OrderBook k).deltasOf feed) s p
        = ((init cfg : OrderBook k).applyAll feed).qtyAt s p)
      ∧ ((init cfg : OrderBook k).applyAll feed).Small
      ∧ ∀ d ∈ (init cfg : OrderBook k).deltasOf feed, d.qtyDelta ≠ 0 := by
  induction feed using List.reverseRecOn with
  | nil =>
      intro _ _
      exact ⟨fun s p => (init_qtyAt hc s p).symm, init_small cfg, fun d hd => absurd hd List.not_mem_nil⟩
  | append_singleton feed m ih =>
      intro hn hf
      obtain ⟨hfold, hsmall, hnz⟩ := ih (fun x hx => hn x (List.mem_append_left _ hx))
        (fun pre x hp => hf pre x (hp.trans (List.prefix_append _ _)))
      have hfit := hf feed m (List.prefix_refl _)
      have hval : ((init cfg : OrderBook k).applyAll feed).Valid := (init_inv hc).valid.applyAll
      rw [deltasOf_concat, applyAll_concat]
      generalize (init cfg : OrderBook k).applyAll feed = b at *
      obtain ⟨reds, add, hmv, hlands⟩ := apply_moves hval (hn m (by simp))
      have hadd : ∀ c, add = some c → c.qtyDelta < 2 ^ 31 := fun c hcc =>
        hfit _ ((hlands _).mpr ⟨c, hcc, rfl⟩)
      refine ⟨fun s p => ?_, hmv.small hsmall hadd, fun d hd => ?_⟩
      · rw [foldL2_append, hfold, hmv.qtyAt, (hmv.fold_iff hsmall).mpr hadd]
      · rcases List.mem_append.mp hd with hd | hd
        · exact hnz d hd
        · exact hmv.nonzero hsmall hadd d hd

/-- Where the deltas add up all along, every order that came to rest was small. -/
theorem fits_of_folds {cfg : BookConfig} (hc : ConfigOk k cfg) (feed : List Message) :
    (∀ m ∈ feed, m.Named) →
    (∀ pre, pre <+: feed → ∀ s p, foldL2 ((init cfg : OrderBook k).deltasOf pre) s p
        = ((init cfg : OrderBook k).applyAll pre).qtyAt s p) →
    ((init cfg : OrderBook k).applyAll feed).Small
      ∧ ∀ pre m, pre ++ [m] <+: feed → ((init cfg : OrderBook k).applyAll pre).Fits m := by
  induction feed using List.reverseRecOn with
  | nil =>
      intro _ _
      refine ⟨init_small cfg, fun pre m hp => ?_⟩
      simpa using List.prefix_nil.mp hp
  | append_singleton feed m ih =>
      intro hn hf
      obtain ⟨hsmall, hfits⟩ := ih (fun x hx => hn x (List.mem_append_left _ hx))
        (fun pre hp => hf pre (hp.trans (List.prefix_append _ _)))
      have hval : ((init cfg : OrderBook k).applyAll feed).Valid := (init_inv hc).valid.applyAll
      obtain ⟨reds, add, hmv, hlands⟩ := apply_moves hval (hn m (by simp))
      have hadd : ∀ c, add = some c → c.qtyDelta < 2 ^ 31 := by
        refine (hmv.fold_iff hsmall).mp (fun s p => ?_)
        have hbefore := hf feed (List.prefix_append _ _) s p
        have hafter := hf (feed ++ [m]) (List.prefix_refl _) s p
        rw [deltasOf_concat, applyAll_concat, foldL2_append, hbefore, hmv.qtyAt] at hafter
        exact Int.add_left_cancel hafter
      refine ⟨by rw [applyAll_concat]; exact hmv.small hsmall hadd, fun pre m' hp => ?_⟩
      rcases List.prefix_concat_iff.mp hp with heq | hp'
      · obtain ⟨rfl, hm⟩ := List.append_inj' heq rfl
        obtain rfl := List.singleton_inj.mp hm
        intro q hq
        obtain ⟨c, hcc, rfl⟩ := (hlands q).mp hq
        exact hadd c hcc
      · exact hfits pre m' hp'

/--
**When the deltas of a feed are its book.**

All along a feed of messages with proper references, folding the deltas gives every
level total, a refused message appends none, none is zero, and a ring that has dropped
none gives the same totals with consecutive numbers, exactly when no message brings
an order of `2 ^ 31` shares or more to rest.
-/
theorem reconstructs_iff {cfg : BookConfig} (hc : ConfigOk k cfg) (feed : List Message)
    (hn : ∀ m ∈ feed, m.Named) :
    (∀ pre, pre <+: feed → (init cfg : OrderBook k).Reconstructs pre)
      ↔ ∀ pre m, pre ++ [m] <+: feed → ((init cfg : OrderBook k).applyAll pre).Fits m := by
  constructor
  · intro h
    exact (fits_of_folds hc feed hn (fun pre hp => (h pre hp).folds)).2
  · intro hf pre hp
    have hn' : ∀ m ∈ pre, m.Named := fun m hm => hn m (hp.subset hm)
    obtain ⟨hfold, _, hnz⟩ := folds_of_fits hc pre hn'
      (fun pre' m hp' => hf pre' m (hp'.trans hp))
    refine ⟨hfold, fun pre' m hp' hno => ?_, hnz, fun e hd => ?_⟩
    · have hm : m ∈ pre := hp'.subset (by simp)
      have hval : ((init cfg : OrderBook k).applyAll pre').Valid := (init_inv hc).valid.applyAll
      obtain ⟨reds, add, hmv, _⟩ := apply_moves hval (hn' m hm)
      exact hmv.refused hno
    · obtain ⟨h1, h2⟩ := DeltaRing.fed_transitions _ hd
      exact ⟨fun s p => by rw [h1]; exact hfold s p, h2⟩

/-- One bid of 5 shares. -/
theorem reconstructs_iff_bid :
    (init ⟨2, ⟨0, 16, 1⟩⟩ : OrderBook 4).Reconstructs [.addOrder ⟨⟨0, 0, 0⟩, 1, .buy, 5, [], 3⟩] := by
  refine (reconstructs_iff ⟨by decide, by decide, by decide, by decide, by decide⟩
    [.addOrder ⟨⟨0, 0, 0⟩, 1, .buy, 5, [], 3⟩] ?_).mpr ?_ _ (List.prefix_refl _)
  · intro m hm
    obtain rfl := List.mem_singleton.mp hm
    exact Nat.one_ne_zero
  · intro pre m hp q hq
    have hm : m = .addOrder ⟨⟨0, 0, 0⟩, 1, .buy, 5, [], 3⟩ :=
      List.mem_singleton.mp (hp.subset (List.mem_append_right _ (List.mem_singleton_self m)))
    subst hm
    rw [← hq.2]
    decide

/-- One bid of `2 ^ 31` shares: the delta stored is `-2 ^ 31`. -/
theorem large_add_folds_negative :
    ¬ (init ⟨2, ⟨0, 16, 1⟩⟩ : OrderBook 4).Reconstructs
      [.addOrder ⟨⟨0, 0, 0⟩, 1, .buy, 2 ^ 31, [], 3⟩] := by
  intro h
  have hf := h.folds .buy 3
  have hval : foldL2 ((init ⟨2, ⟨0, 16, 1⟩⟩ : OrderBook 4).deltasOf
      [.addOrder ⟨⟨0, 0, 0⟩, 1, .buy, 2 ^ 31, [], 3⟩]) .buy 3 = -2 ^ 31
      ∧ ((init ⟨2, ⟨0, 16, 1⟩⟩ : OrderBook 4).applyAll
        [.addOrder ⟨⟨0, 0, 0⟩, 1, .buy, 2 ^ 31, [], 3⟩]).qtyAt .buy 3 = 2 ^ 31 := by
    decide +kernel
  rw [hval.1, hval.2] at hf
  exact absurd hf (by decide)

end OrderBook

end Mog
