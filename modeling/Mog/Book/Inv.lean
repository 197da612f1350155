import Mathlib.Algebra.BigOperators.Group.List.Basic
import Mathlib.Algebra.Order.BigOperators.Group.List
import Mathlib.Algebra.Order.Group.Int
import Mog.Book.ArenaProof
import Mog.Book.LadderProof
import Mog.Book.TableProof

/-!
# The book invariant

`BookInv b q` says that the five structures of the book describe one and the same
thing: `q s p` is the queue of slots resting on side `s` at price `p`, head first,
and

1. the slots of the queues are the live slots, each on the queue of its own side
   and price,
2. every level's links run through its queue, and its total and count are those
   of the queue,
3. the id table maps exactly the references of live slots to their handles,
4. the cached best prices are the best occupied prices,
5. arena, ladders and table satisfy their own invariants.

The queries of the book are then read off `q`.
-/

namespace Mog

open LinkedChain PriceLadder

/-- Price `a` has priority over, or ties with, price `b` on side `s`. -/
def atLeastAsGood (s : Side) (a b : Int) : Prop :=
  match s with
  | .buy => b ≤ a
  | .sell => a ≤ b

instance (s : Side) (a b : Int) : Decidable (atLeastAsGood s a b) := by
  unfold atLeastAsGood; cases s <;> infer_instance

/-- Price `a` has strict priority over price `b` on side `s`. -/
def better (s : Side) (a b : Int) : Prop := ¬ atLeastAsGood s b a

instance (s : Side) (a b : Int) : Decidable (better s a b) := inferInstanceAs (Decidable (¬ _))

theorem atLeastAsGood_refl (s : Side) (a : Int) : atLeastAsGood s a a := by
  cases s <;> simp [atLeastAsGood]

theorem atLeastAsGood_trans {s : Side} {a b c : Int} (h : atLeastAsGood s a b)
    (h' : atLeastAsGood s b c) : atLeastAsGood s a c := by
  cases s <;> simp only [atLeastAsGood] at * <;> omega

theorem atLeastAsGood_antisymm {s : Side} {a b : Int} (h : atLeastAsGood s a b)
    (h' : atLeastAsGood s b a) : a = b := by
  cases s <;> simp only [atLeastAsGood] at * <;> omega

theorem atLeastAsGood_total (s : Side) (a b : Int) : atLeastAsGood s a b ∨ atLeastAsGood s b a := by
  cases s <;> simp only [atLeastAsGood] <;> omega

/-- `r` is the best price `occ` holds of; `kNoTick` when it holds of none. -/
def IsBest (s : Side) (occ : Int → Prop) (r : Int) : Prop :=
  (r = kNoTick ∧ ∀ p, ¬ occ p) ∨ (r ≠ kNoTick ∧ occ r ∧ ∀ p, occ p → atLeastAsGood s r p)

theorem IsBest.congr {s : Side} {occ occ' : Int → Prop} {r : Int} (h : IsBest s occ r)
    (heq : ∀ p, occ' p ↔ occ p) : IsBest s occ' r := by
  have : occ' = occ := funext fun p => propext (heq p)
  rw [this]
  exact h

theorem IsBest.unique {s : Side} {occ : Int → Prop} {r r' : Int} (h : IsBest s occ r)
    (h' : IsBest s occ r') : r = r' := by
  rcases h with ⟨h1, h2⟩ | ⟨_, h2, h3⟩ <;> rcases h' with ⟨h4, h5⟩ | ⟨_, h5, h6⟩
  · rw [h1, h4]
  · exact absurd h5 (h2 _)
  · exact absurd h2 (h5 _)
  · exact atLeastAsGood_antisymm (h3 _ h5) (h6 _ h2)

/-- The queues with that of one level replaced. -/
def setQueue (q : Side → Int → List Nat) (s : Side) (p : Int) (l : List Nat) :
    Side → Int → List Nat :=
  fun s' p' => if s' = s ∧ p' = p then l else q s' p'

@[simp] theorem setQueue_self (q : Side → Int → List Nat) (s : Side) (p : Int) (l : List Nat) :
    setQueue q s p l s p = l := by simp [setQueue]

theorem setQueue_other {q : Side → Int → List Nat} {s s' : Side} {p p' : Int} {l : List Nat}
    (h : ¬ (s' = s ∧ p' = p)) : setQueue q s p l s' p' = q s' p' := by simp only [setQueue, if_neg h]

namespace OrderBook

variable {k : Nat}

/-- The order in a slot. -/
def order (b : OrderBook k) (i : Nat) : Order := b.arena.atIndex i

/-- The slot holds a resting order. -/
def live (b : OrderBook k) (i : Nat) : Prop := (b.arena.slots i).live = true

/-- The remaining quantity of the order in a slot. -/
def rem (b : OrderBook k) (i : Nat) : Int := (b.order i).qtyRemaining

/-- The level of a side at a price. -/
def levelAt (b : OrderBook k) (s : Side) (p : Int) : Level := (b.ladderFor s).levelAt p

/-- The level's links run through `l`, and its total and count are those of `l`. -/
structure OnLevel (b : OrderBook k) (lv : Level) (l : List Nat) : Prop where
  chain : Chain (fun i => (b.order i).next) (fun i => (b.order i).prev) kNullIndex lv.head lv.tail l
  total : lv.qtyTotal = (l.map b.rem).sum
  count : lv.count = l.length

/-- The book invariant short of the cached best prices, with the queues it describes. -/
structure BookCore (b : OrderBook k) (q : Side → Int → List Nat) : Prop where
  arena : ∃ fl, b.arena.Inv fl
  table : TableInv b
  tableCap : 2 * b.arena.capacity ≤ b.tableCap
  ladder : ∀ s, LadderInv (b.ladderFor s)
  band : b.askLadder.lo = b.bidLadder.lo ∧ b.askLadder.hi = b.bidLadder.hi
  level : ∀ s p, OnLevel b (b.levelAt s p) (q s p)
  mem : ∀ s p i, i ∈ q s p ↔ b.live i ∧ (b.order i).side = s ∧ (b.order i).priceTicks = p
  pos : ∀ i, b.live i → 0 < b.rem i
  ref : ∀ i, b.live i → (b.order i).orderRef ≠ 0
  holds : ∀ r h, r ≠ 0 → (b.holds r h ↔ b.live h.index ∧ (b.order h.index).orderRef = r
    ∧ (b.arena.slots h.index).generation = h.generation)
  size : b.tableSize = b.arena.liveCount

/-- The book invariant. -/
structure BookInv (b : OrderBook k) (q : Side → Int → List Nat) : Prop extends BookCore b q where
  best : ∀ s, IsBest s (fun p => q s p ≠ []) (b.best s)

variable {b : OrderBook k} {q : Side → Int → List Nat}

/-- No order is found under the reference zero. -/
theorem idFind_zero (b : OrderBook k) : b.idFind 0 = {} := by
  have hprobe : ∀ fuel i, (b.probe 0 fuel i).handle = {} := by
    intro fuel
    induction fuel with
    | zero => intro i; rfl
    | succ fuel ih =>
        intro i
        rw [probe]
        split
        · rfl
        · exact ih _
  exact hprobe _ _

namespace BookCore

theorem lt_capacity (h : BookCore b q) {i : Nat} (hi : b.live i) : i < b.arena.capacity := by
  obtain ⟨fl, hfl⟩ := h.arena
  exact hfl.lt_capacity hi

theorem ne_null (h : BookCore b q) {i : Nat} (hi : b.live i) : i ≠ kNullIndex := by
  obtain ⟨fl, hfl⟩ := h.arena
  exact hfl.ne_null hi

theorem nodup (h : BookCore b q) (s : Side) (p : Int) : (q s p).Nodup := (h.level s p).chain.nodup

/-- Two queues with a slot in common are one queue. -/
theorem mem_unique (h : BookCore b q) {s s' : Side} {p p' : Int} {i : Nat} (hi : i ∈ q s p)
    (hi' : i ∈ q s' p') : s = s' ∧ p = p' := by
  have h1 := (h.mem s p i).mp hi
  have h2 := (h.mem s' p' i).mp hi'
  exact ⟨h1.2.1.symm.trans h2.2.1, h1.2.2.symm.trans h2.2.2⟩

/-- A queue's remainders are positive. -/
theorem rem_pos (h : BookCore b q) {s : Side} {p : Int} {i : Nat} (hi : i ∈ q s p) : 0 < b.rem i :=
  h.pos i ((h.mem s p i).mp hi).1

theorem sum_pos_iff (h : BookCore b q) (s : Side) (p : Int) :
    ((q s p).map b.rem).sum ≠ 0 ↔ q s p ≠ [] := by
  constructor
  · intro hne he
    rw [he] at hne
    exact hne rfl
  · intro hne
    have hpos : 0 < ((q s p).map b.rem).sum := by
      refine List.sum_pos _ ?_ (by simpa using hne)
      intro x hx
      obtain ⟨i, hi, rfl⟩ := List.mem_map.mp hx
      exact h.rem_pos hi
    omega

/-- A level is occupied exactly when its queue is not empty. -/
theorem occ_iff (h : BookCore b q) (s : Side) (p : Int) :
    (b.ladderFor s).occ p ↔ q s p ≠ [] := by
  rw [← h.sum_pos_iff s p, ← (h.level s p).total]
  rfl

/-- Slots rest inside the band only. -/
theorem inBand (h : BookCore b q) {s : Side} {p : Int} (hne : q s p ≠ []) :
    (b.ladderFor s).inBand p := occ_inBand ((h.occ_iff s p).mpr hne)

/-- A resting order's price has a claimed page. -/
theorem claimed (h : BookCore b q) {s : Side} {p : Int} (hne : q s p ≠ []) :
    (b.ladderFor s).dir ((b.ladderFor s).dirIndex p) ≠ kNoPage :=
  (occ_place ((h.occ_iff s p).mpr hne)).1

theorem inBand_iff (h : BookCore b q) (s : Side) (p : Int) :
    b.inBand p ↔ (b.ladderFor s).inBand p := by
  cases s
  · exact Iff.rfl
  · unfold OrderBook.inBand PriceLadder.inBand ladderFor
    rw [h.band.1, h.band.2]

/-! ### Lookups -/

/-- No two live slots hold one reference. -/
theorem ref_inj (h : BookCore b q) {i j : Nat} (hi : b.live i) (hj : b.live j)
    (heq : (b.order i).orderRef = (b.order j).orderRef) : i = j := by
  have hr := h.ref i hi
  obtain ⟨x, hx, hxc⟩ := (h.holds _ ⟨i, (b.arena.slots i).generation⟩ hr).mpr ⟨hi, rfl, rfl⟩
  obtain ⟨y, hy, hyc⟩ :=
    (h.holds _ ⟨j, (b.arena.slots j).generation⟩ hr).mpr ⟨hj, heq.symm, rfl⟩
  have hxy : x = y := by
    refine h.table.probing.inj x y hx hy ?_ ?_
    · show (b.entries x).ref ≠ 0
      rw [hxc]
      exact hr
    · show (b.entries x).ref = (b.entries y).ref
      rw [hxc, hyc]
  rw [hxy, hyc] at hxc
  simp only [Entry.mk.injEq, GenHandle.mk.injEq] at hxc
  exact hxc.2.1.symm

/-- **A lookup of a live reference** gives its slot, generation and table cell. -/
theorem idFindSlot_live (h : BookCore b q) {i : Nat} (hi : b.live i) :
    (b.idFindSlot (b.order i).orderRef).handle = ⟨i, (b.arena.slots i).generation⟩
      ∧ (b.idFindSlot (b.order i).orderRef).slot < b.tableCap
      ∧ b.entries (b.idFindSlot (b.order i).orderRef).slot
        = { ref := (b.order i).orderRef, handle := ⟨i, (b.arena.slots i).generation⟩ } := by
  have hr := h.ref i hi
  have hh := (h.holds _ ⟨i, (b.arena.slots i).generation⟩ hr).mpr ⟨hi, rfl, rfl⟩
  rcases idFindSlot_spec h.table hr with ⟨hlt, hcell⟩ | ⟨_, _, _, _, habs⟩
  · have hl := (h.holds _ _ hr).mp ⟨_, hlt, hcell⟩
    have hidx := h.ref_inj hi hl.1 hl.2.1.symm
    have hhd : (b.idFindSlot (b.order i).orderRef).handle = ⟨i, (b.arena.slots i).generation⟩ := by
      rw [GenHandle.mk.injEq]
      exact ⟨hidx.symm, by rw [← hl.2.2, ← hidx]⟩
    exact ⟨hhd, hlt, by rw [hcell, hhd]⟩
  · exact absurd hh (habs _)

/-- **A lookup of a reference that is not live** gives the null handle. -/
theorem idFindSlot_dead (h : BookCore b q) {r : Nat} (hr : r ≠ 0)
    (hdead : ∀ i, b.live i → (b.order i).orderRef ≠ r) :
    (b.idFindSlot r).handle = {} ∧ (b.idFindSlot r).slot < b.tableCap
      ∧ (b.entries (b.idFindSlot r).slot).ref = 0
      ∧ LinearProbe.Shape.Found b.shape b.entries r (b.idFindSlot r).slot := by
  rcases idFindSlot_spec h.table hr with ⟨hlt, hcell⟩ | ⟨hlt, hnull, hfree, hfound, _⟩
  · have hl := (h.holds _ _ hr).mp ⟨_, hlt, hcell⟩
    exact absurd hl.2.1 (hdead _ hl.1)
  · exact ⟨hnull, hlt, hfree, hfound⟩

/-- A found handle names a live slot of that reference. -/
theorem idFind_live (h : BookCore b q) {r : Nat} (hr : r ≠ 0)
    (hne : (b.idFind r).index ≠ kNullIndex) :
    b.live (b.idFind r).index ∧ (b.order (b.idFind r).index).orderRef = r
      ∧ (b.arena.slots (b.idFind r).index).generation = (b.idFind r).generation := by
  rcases idFindSlot_spec h.table hr with ⟨hlt, hcell⟩ | ⟨_, hnull, _⟩
  · exact (h.holds _ _ hr).mp ⟨_, hlt, hcell⟩
  · exact absurd (by rw [idFind, hnull]) hne

/-- **The lookup is exact**: it gives the null handle or the slot that holds the reference. -/
theorem idFind_eq_iff (h : BookCore b q) {r : Nat} (hr : r ≠ 0) {i : Nat} (hi : i ≠ kNullIndex) :
    (b.idFind r).index = i ↔ b.live i ∧ (b.order i).orderRef = r := by
  constructor
  · intro he
    have := h.idFind_live hr (by rw [he]; exact hi)
    rw [he] at this
    exact ⟨this.1, this.2.1⟩
  · rintro ⟨hl, href⟩
    have := (h.idFindSlot_live hl).1
    rw [href] at this
    rw [idFind, this]

theorem idFind_null_iff (h : BookCore b q) {r : Nat} (hr : r ≠ 0) :
    (b.idFind r).index = kNullIndex ↔ ∀ i, b.live i → (b.order i).orderRef ≠ r := by
  constructor
  · intro he i hi href
    exact h.ne_null hi (((h.idFind_eq_iff hr (h.ne_null hi)).mpr ⟨hi, href⟩).symm.trans he)
  · intro hdead
    rw [idFind, (h.idFindSlot_dead hr hdead).1]

theorem valid_of_live (h : BookCore b q) {i : Nat} (hi : b.live i) :
    b.arena.valid ⟨i, (b.arena.slots i).generation⟩ := ⟨h.lt_capacity hi, hi, rfl⟩

/-! ### The queries, read off the queues -/

theorem qtyAt_eq (h : BookCore b q) (s : Side) (p : Int) :
    b.qtyAt s p = ((q s p).map b.rem).sum := by
  have htot := (h.level s p).total
  rw [← htot]
  unfold qtyAt OrderBook.levelAt PriceLadder.levelAt
  cases (b.ladderFor s).peek p <;> rfl

theorem length_le (h : BookCore b q) (s : Side) (p : Int) : (q s p).length ≤ b.arena.capacity := by
  have hsub : (q s p).toFinset ⊆ Finset.range b.arena.capacity := by
    intro i hi
    exact Finset.mem_range.mpr (h.lt_capacity ((h.mem s p i).mp (List.mem_toFinset.mp hi)).1)
  have hcard := Finset.card_le_card hsub
  rwa [List.toFinset_card_of_nodup (h.nodup s p), Finset.card_range] at hcard

/-- **The walk of a level** visits exactly its queue. -/
theorem levelSlots_eq (h : BookCore b q) (s : Side) (p : Int) : b.levelSlots s p = q s p := by
  have hc := (h.level s p).chain
  have hlen := h.length_le s p
  unfold levelSlots
  cases hp : (b.ladderFor s).peek p with
  | none =>
      rw [OrderBook.levelAt, peek_eq_none hp] at hc
      exact (hc.head_eq_null.mp rfl).symm
  | some lv =>
      rw [OrderBook.levelAt, peek_eq_some hp] at hc
      exact hc.walk_eq hlen

theorem frontRef_eq (h : BookCore b q) (s : Side) (p : Int) :
    b.frontRef s p = match q s p with
      | [] => 0
      | i :: _ => (b.order i).orderRef := by
  have hc := (h.level s p).chain
  unfold frontRef
  cases hp : (b.ladderFor s).peek p with
  | none =>
      rw [OrderBook.levelAt, peek_eq_none hp] at hc
      rw [hc.head_eq_null.mp rfl]
  | some lv =>
      rw [OrderBook.levelAt, peek_eq_some hp] at hc
      dsimp only
      cases hq : q s p with
      | nil =>
          rw [hq] at hc
          rw [if_pos (hc.head_eq_null.mpr rfl)]
      | cons i l =>
          rw [hq] at hc
          have hne : lv.head ≠ kNullIndex := fun he => by
            have := hc.head_eq_null.mp he
            simp at this
          rw [if_neg hne, hc.head_cons]
          rfl

theorem remainingOf_live (h : BookCore b q) {i : Nat} (hi : b.live i) :
    b.remainingOf (b.order i).orderRef = b.rem i := by
  have hf := (h.idFindSlot_live hi).1
  unfold remainingOf
  rw [idFind, hf]
  simp only [h.ne_null hi, h.valid_of_live hi, not_true_eq_false, or_self, if_false]
  rfl

theorem remainingOf_dead (h : BookCore b q) {r : Nat} (hr : r ≠ 0)
    (hdead : ∀ i, b.live i → (b.order i).orderRef ≠ r) : b.remainingOf r = 0 := by
  unfold remainingOf
  rw [if_pos (Or.inl ((h.idFind_null_iff hr).mpr hdead))]

theorem sideOf_live (h : BookCore b q) {i : Nat} (hi : b.live i) :
    b.sideOf (b.order i).orderRef = some (b.order i).side := by
  have hf := (h.idFindSlot_live hi).1
  unfold sideOf
  rw [idFind, hf]
  simp only [h.ne_null hi, h.valid_of_live hi, not_true_eq_false, or_self, if_false]
  rfl

theorem sideOf_dead (h : BookCore b q) {r : Nat} (hr : r ≠ 0)
    (hdead : ∀ i, b.live i → (b.order i).orderRef ≠ r) : b.sideOf r = none := by
  unfold sideOf
  rw [if_pos (Or.inl ((h.idFind_null_iff hr).mpr hdead))]

end BookCore

namespace BookInv

theorem best_good (h : BookInv b q) {s : Side} {p : Int} (hne : q s p ≠ []) :
    b.best s ≠ kNoTick ∧ atLeastAsGood s (b.best s) p := by
  rcases h.best s with ⟨_, h2⟩ | ⟨h1, _, h3⟩
  · exact absurd hne (h2 p)
  · exact ⟨h1, h3 p hne⟩

end BookInv

/-! ## A fresh book -/

/-- What the constructor requires of its configuration. -/
structure ConfigOk (k : Nat) (cfg : BookConfig) : Prop where
  shift : 4 ≤ k ∧ k ≤ 12
  capacity : 0 < cfg.arenaCapacity ∧ cfg.arenaCapacity < kNullIndex
  band : cfg.ladder.loTick < cfg.ladder.hiTick
  ceil : cfg.ladder.hiTick ≤ 2 ^ 31 - 1
  pool : 0 < cfg.ladder.pagePool ∧ cfg.ladder.pagePool ≤ kNoPage

theorem init_tableInv {cfg : BookConfig} (h : ConfigOk k cfg) :
    TableInv (init cfg : OrderBook k) ∧ 2 * cfg.arenaCapacity ≤ (init cfg : OrderBook k).tableCap := by
  obtain ⟨e, he, hle, hlow⟩ := roundPow2_spec (cfg.arenaCapacity * 2)
  have he33 : e ≤ 33 := by
    rcases hlow with h0 | hlt
    · omega
    · by_contra hgt
      have hpow : 2 ^ 33 ≤ 2 ^ (e - 1) := Nat.pow_le_pow_right (by omega) (by omega)
      have := h.capacity.2
      simp only [kNullIndex] at this
      omega
  have hshift : (init cfg : OrderBook k).tableShift = 64 - e := by
    simp only [init, he, Nat.log2_two_pow]
  have hcap : (init cfg : OrderBook k).tableCap = 2 ^ e := he
  refine ⟨⟨⟨e, hcap, by omega, hshift⟩, ⟨?_, ?_, ?_⟩, ⟨0, ?_, ?_⟩⟩, ?_⟩
  · exact fun r => probeStart_lt hcap (by omega) hshift r
  · exact fun x y _ _ hocc => absurd rfl hocc
  · exact fun x _ hocc => absurd rfl hocc
  · rw [hcap]; exact Nat.two_pow_pos e
  · exact not_not.mpr rfl
  · rw [hcap]; omega

/-- **A fresh book satisfies the invariant**, with every queue empty. -/
theorem init_inv {cfg : BookConfig} (h : ConfigOk k cfg) :
    BookInv (init cfg : OrderBook k) (fun _ _ => []) := by
  obtain ⟨htable, hcap⟩ := init_tableInv (k := k) h
  have hceil := h.ceil
  have hlad : LadderInv (PriceLadder.init cfg.ladder : PriceLadder k) :=
    ladderInv_init h.shift.2 h.band (by simp only [kNoTick]; omega) h.pool.2
  have hladder : ∀ s, (init cfg : OrderBook k).ladderFor s = PriceLadder.init cfg.ladder := by
    intro s; cases s <;> rfl
  have hlevel : ∀ s p, (init cfg : OrderBook k).levelAt s p = {} := by
    intro s p
    rw [levelAt, hladder]
    exact levelAt_unclaimed rfl
  have hlive : ∀ i, ¬ (init cfg : OrderBook k).live i := fun i hi => Bool.noConfusion hi
  refine
    { arena := ⟨[], Arena.inv_init h.capacity.2⟩,
      table := htable, tableCap := hcap, ladder := fun s => by rw [hladder]; exact hlad,
      band := ⟨rfl, rfl⟩, level := ?_, mem := ?_, pos := fun i hi => absurd hi (hlive i),
      ref := fun i hi => absurd hi (hlive i), holds := ?_, size := rfl, best := ?_ }
  · intro s p
    rw [hlevel]
    exact ⟨chain_nil, rfl, rfl⟩
  · intro s p i
    simp only [List.not_mem_nil, false_iff, not_and]
    exact fun hi => absurd hi (hlive i)
  · intro r hd hr
    refine ⟨?_, fun hh => absurd hh.1 (hlive _)⟩
    rintro ⟨x, _, hx⟩
    have := congrArg Entry.ref hx
    exact absurd this.symm hr
  · intro s
    refine Or.inl ⟨?_, fun p => by simp⟩
    cases s <;> rfl

end OrderBook

end Mog
