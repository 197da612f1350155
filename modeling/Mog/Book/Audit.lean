import Mog.Book.Fifo
import Mog.Book.Ops

/-!
# The representation invariant, as the book's own audit sees it

`RepInv` is the whole representation invariant in terms of the book's fields
alone: the audit passes, the id table is exact and probe-reachable, every slot is
either queued once or free once, and the bitmaps describe their pages. It follows
from `BookInv`, so it holds along every run in which `execute_front` stays within
the head order.

`execute_front` clamped to the level's total instead, as its comment asks, can
drive the head order's remainder negative; a closed run shows it.
-/

namespace Mog

open LinkedChain PriceLadder LinearProbe

namespace OrderBook

variable {k : Nat} {b : OrderBook k} {q : Side → Int → List Nat}

/-- The representation invariant. -/
structure RepInv (b : OrderBook k) : Prop where
  audit : b.audit = true
  /-- The id table holds exactly the live references. -/
  refs : ∀ ref, ref ≠ 0 → ((∃ x, x < b.tableCap ∧ (b.entries x).ref = ref)
    ↔ ∃ i, b.live i ∧ (b.order i).orderRef = ref)
  /-- Each once. -/
  once : ∀ x y, x < b.tableCap → y < b.tableCap → (b.entries x).ref ≠ 0 →
    (b.entries x).ref = (b.entries y).ref → x = y
  /-- The probe finds every cell's reference in that cell. -/
  probe : ∀ x, x < b.tableCap → (b.entries x).ref ≠ 0 →
    b.idFindSlot (b.entries x).ref = { slot := x, handle := (b.entries x).handle }
  /-- No empty cell lies between a reference's home and its cell. -/
  path : ∀ x, x < b.tableCap → (b.entries x).ref ≠ 0 → ∀ y, y < b.tableCap →
    gap b.tableCap (b.probeStart (b.entries x).ref) y
      < gap b.tableCap (b.probeStart (b.entries x).ref) x → (b.entries y).ref ≠ 0
  size : b.tableSize = b.liveOrders ∧ 2 * b.tableSize ≤ b.tableCap
  /-- Every slot ever used is on one queue, once, or on the free list, once. -/
  slots : ∀ i, i < b.arena.watermark →
    (∃ s p, i ∈ b.levelSlots s p ∧ (b.levelSlots s p).count i = 1
        ∧ (∀ s' p', i ∈ b.levelSlots s' p' → s' = s ∧ p' = p) ∧ i ∉ b.arena.freeSlots)
      ∨ ((∀ s p, i ∉ b.levelSlots s p) ∧ b.arena.freeSlots.count i = 1)
  pages : ∀ s n, PageInv k ((b.ladderFor s).pages n)
  dir : ∀ s d d', (b.ladderFor s).dir d ≠ kNoPage → (b.ladderFor s).dir d < (b.ladderFor s).pagesClaimed
    ∧ ((b.ladderFor s).dir d = (b.ladderFor s).dir d' → d = d')
  pool : ∀ s, (b.ladderFor s).pagesClaimed ≤ (b.ladderFor s).poolLen

/-! ## The audit passes -/

/-- Walking a chain whose orders belong to the level finds nothing wrong. -/
theorem auditWalk_eq {s : Side} {t : Int} {l : List Nat} :
    ∀ {p cur fuel : Nat} (walked : Nat) (sum : Int),
      Seg (fun i => (b.order i).next) (fun i => (b.order i).prev) p cur kNullIndex l →
      kNullIndex ∉ l →
      (∀ i ∈ l, (b.order i).side = s ∧ (b.order i).priceTicks = t ∧ 0 < b.rem i) →
      l.length ≤ fuel → walked + l.length ≤ b.arena.capacity →
      b.auditWalk s t (fuel + 1) cur true sum walked p
        = (true, sum + (l.map b.rem).sum, walked + l.length, l.getLastD p) := by
  induction l with
  | nil =>
      intro p cur fuel walked sum hseg _ _ _ _
      have hcur : cur = kNullIndex := hseg
      rw [auditWalk, if_pos hcur]
      simp
  | cons a l ih =>
      intro p cur fuel walked sum hseg hnull hgood hfuel hcap
      obtain ⟨rfl, hprev, hseg'⟩ := hseg
      have hne : cur ≠ kNullIndex := fun he => hnull (by simp [he])
      obtain ⟨hs, ht, hpos⟩ := hgood cur (by simp)
      simp only [List.length_cons] at hfuel hcap
      obtain ⟨f, rfl⟩ : ∃ f, fuel = f + 1 := ⟨fuel - 1, by omega⟩
      rw [auditWalk, if_neg hne]
      have horder : b.arena.atIndex cur = b.order cur := rfl
      have hok : ((true && (decide ((b.order cur).side = s) && decide ((b.order cur).priceTicks = t)
          && decide (0 < (b.order cur).qtyRemaining) && decide ((b.order cur).prev = p)))
          && decide (walked + 1 ≤ b.arena.capacity)) = true := by
        have h1 : 0 < (b.order cur).qtyRemaining := hpos
        have h2 : walked + 1 ≤ b.arena.capacity := by omega
        have h3 : (b.order cur).prev = p := hprev
        simp [hs, ht, h1, h2, h3]
      dsimp only
      rw [horder, hok, ih _ _ hseg' (fun hm => hnull (by simp [hm]))
        (fun i hi => hgood i (by simp [hi])) (by omega) (by omega)]
      have hrem : (b.order cur).qtyRemaining = b.rem cur := rfl
      simp only [List.map_cons, List.sum_cons, List.length_cons, List.getLastD_cons, hrem,
        Prod.mk.injEq, true_and]
      exact ⟨by omega, by omega, trivial⟩

theorem checkFifos_eq (h : BookInv b q) (s : Side) : b.checkFifos s = true := by
  unfold checkFifos
  refine List.all_eq_true.mpr (fun lv hlv => ?_)
  obtain ⟨t, lv⟩ := lv
  obtain ⟨hocc, hlve⟩ := (mem_levels (h.ladder s)).mp hlv
  have hq := (h.occ_iff s t).mp hocc
  have hlevel := h.level s t
  have hlve' : b.levelAt s t = lv := hlve.symm
  rw [hlve'] at hlevel
  have hwalk := auditWalk_eq (b := b) (s := s) (t := t) 0 0
    hlevel.chain.seg hlevel.chain.ne_null
    (fun i hi => ⟨((h.mem s t i).mp hi).2.1, ((h.mem s t i).mp hi).2.2, h.rem_pos hi⟩)
    (h.length_le s t) (by rw [Nat.zero_add]; exact h.length_le s t)
  have hpos : 0 < lv.qtyTotal := by
    have hne := (h.sum_pos_iff s t).mpr hq
    have hnn : 0 ≤ ((q s t).map b.rem).sum := by
      refine List.sum_nonneg (fun x hx => ?_)
      obtain ⟨i, hi, rfl⟩ := List.mem_map.mp hx
      exact Int.le_of_lt (h.rem_pos hi)
    rw [hlevel.total]
    omega
  show b.checkLevel s t lv = true
  unfold checkLevel
  dsimp only
  rw [hwalk]
  have h1 := hlevel.chain.tail
  have h2 := hlevel.count
  have h3 := hlevel.total
  simp [h1, h2, h3]
  rw [← h3]
  exact hpos

/-- Folding the better of two prices over a list finds its best member. -/
theorem foldl_best {s : Side} {f : Int → Int × Level → Int}
    (hf : ∀ acc lv, f acc lv = if acc = kNoTick ∨ better s lv.1 acc then lv.1 else acc) :
    ∀ (l : List (Int × Level)) (acc : Int) (occ : Int → Prop), (∀ lv ∈ l, lv.1 ≠ kNoTick) →
      IsBest s occ acc →
      IsBest s (fun p => occ p ∨ ∃ lv ∈ l, lv.1 = p) (l.foldl f acc) := by
  intro l
  induction l with
  | nil =>
      intro acc occ _ hacc
      exact hacc.congr (fun p => by simp)
  | cons lv l ih =>
      intro acc occ hne hacc
      rw [List.foldl_cons]
      have hstep : IsBest s (fun p => p = lv.1 ∨ occ p)
          (if acc = kNoTick ∨ better s lv.1 acc then lv.1 else acc) :=
        isBest_insert hacc (hne lv (by simp)) (fun _ => Iff.rfl)
      rw [← hf] at hstep
      refine (ih _ _ (fun lv' hm => hne lv' (by simp [hm])) hstep).congr (fun p => ?_)
      simp only [List.mem_cons, exists_eq_or_imp]
      constructor
      · rintro (h1 | h1 | h1)
        · exact Or.inl (Or.inr h1)
        · exact Or.inl (Or.inl h1.symm)
        · exact Or.inr h1
      · rintro ((h1 | h1) | h1)
        · exact Or.inr (Or.inl h1.symm)
        · exact Or.inl h1
        · exact Or.inr (Or.inr h1)

theorem bruteBest_eq_foldl (b : OrderBook k) (s : Side) :
    b.bruteBest s = (b.ladderFor s).levels.foldl
      (fun acc lv => if acc = kNoTick ∨ better s lv.1 acc then lv.1 else acc) kNoTick := by
  cases s <;> simp [bruteBest, better, atLeastAsGood]

theorem bruteBest_eq (h : BookInv b q) (s : Side) : b.best s = b.bruteBest s := by
  have hne : ∀ lv ∈ (b.ladderFor s).levels, lv.1 ≠ kNoTick := by
    intro lv hlv
    have hocc := ((mem_levels (h.ladder s)).mp hlv).1
    have h1 := (occ_inBand hocc).2
    have h2 := (h.ladder s).ceil
    omega
  have hfold := foldl_best (s := s) (fun _ _ => rfl) (b.ladderFor s).levels kNoTick
    (fun _ => False) hne (Or.inl ⟨rfl, fun _ hc => hc⟩)
  rw [bruteBest_eq_foldl]
  refine ((h.best s).congr (fun p => ?_)).unique hfold
  rw [← h.occ_iff s p]
  constructor
  · rintro (hc | ⟨lv, hlv, rfl⟩)
    · exact hc.elim
    · exact ((mem_levels (h.ladder s)).mp hlv).1
  · intro hocc
    exact Or.inr ⟨(p, (b.ladderFor s).levelAt p), (mem_levels (h.ladder s)).mpr ⟨hocc, rfl⟩, rfl⟩

/-- The cell of a reference names its live slot. -/
theorem cell_live (h : BookInv b q) {x : Nat} (hx : x < b.tableCap) (hr : (b.entries x).ref ≠ 0) :
    b.live (b.entries x).handle.index
      ∧ (b.order (b.entries x).handle.index).orderRef = (b.entries x).ref
      ∧ (b.arena.slots (b.entries x).handle.index).generation = (b.entries x).handle.generation :=
  (h.holds _ _ hr).mp ⟨x, hx, rfl⟩

/-- The occupied cells are as many as the live orders. -/
theorem occupied_count (h : BookInv b q) :
    ((List.range b.tableCap).filter (fun i => (b.entries i).ref ≠ 0)).length = b.arena.liveCount := by
  obtain ⟨fl, hfl⟩ := h.arena
  have hkeys : b.shape.keys b.entries = b.arena.liveSlots.image (fun i => (b.order i).orderRef) := by
    ext r
    rw [Shape.mem_keys, Finset.mem_image]
    constructor
    · rintro ⟨x, hx, hocc, hkey⟩
      obtain ⟨h1, h2, _⟩ := cell_live h hx hocc
      exact ⟨_, hfl.mem_liveSlots.mpr h1, h2.trans hkey⟩
    · rintro ⟨i, hi, rfl⟩
      have hl := hfl.mem_liveSlots.mp hi
      obtain ⟨_, hslot, hcell⟩ := h.idFindSlot_live hl
      refine ⟨_, hslot, ?_, ?_⟩
      · show (b.entries _).ref ≠ 0
        rw [hcell]
        exact h.ref i hl
      · show (b.entries _).ref = _
        rw [hcell]
  have hcard : (b.shape.keys b.entries).card = b.arena.liveCount := by
    rw [hkeys, Finset.card_image_of_injOn, hfl.card_liveSlots]
    intro i hi j hj heq
    exact h.ref_inj (hfl.mem_liveSlots.mp hi) (hfl.mem_liveSlots.mp hj) heq
  rw [← hcard, ← Shape.size_eq_card_keys h.table.probing, Shape.size]
  have hset : (Finset.range b.shape.cap).filter (fun i => b.shape.Occ b.entries i)
      = ((List.range b.tableCap).filter (fun i => (b.entries i).ref ≠ 0)).toFinset := by
    ext i
    simp only [List.mem_toFinset, List.mem_filter, List.mem_range, Finset.mem_filter,
      Finset.mem_range, decide_eq_true_iff]
    exact Iff.rfl
  rw [hset, List.toFinset_card_of_nodup (List.nodup_range.filter _)]

theorem audit_eq (h : BookInv b q) : b.audit = true := by
  unfold OrderBook.audit
  have hbid : b.bestBid = b.bruteBest .buy := bruteBest_eq h .buy
  have hask : b.bestAsk = b.bruteBest .sell := bruteBest_eq h .sell
  have hcells : (List.range b.tableCap).all (fun i => (b.entries i).ref = 0
      || (b.arena.valid (b.entries i).handle
        && (b.arena.deref (b.entries i).handle).orderRef = (b.entries i).ref)) = true := by
    refine List.all_eq_true.mpr (fun i hi => ?_)
    rw [List.mem_range] at hi
    by_cases hz : (b.entries i).ref = 0
    · simp [hz]
    · obtain ⟨h1, h2, h3⟩ := cell_live h hi hz
      have hvalid : b.arena.valid (b.entries i).handle := ⟨h.lt_capacity h1, h1, h3⟩
      have hderef : (b.arena.deref (b.entries i).handle).orderRef = (b.entries i).ref := h2
      simp [hz, hvalid, hderef]
  rw [checkFifos_eq h, checkFifos_eq h, hcells]
  simp only [hbid, hask, occupied_count h, decide_true, Bool.and_self]

/-! ## The rest of the representation -/

theorem slot_state (h : BookInv b q) {i : Nat} (hi : i < b.arena.watermark) :
    (∃ s p, i ∈ b.levelSlots s p ∧ (b.levelSlots s p).count i = 1
        ∧ (∀ s' p', i ∈ b.levelSlots s' p' → s' = s ∧ p' = p) ∧ i ∉ b.arena.freeSlots)
      ∨ ((∀ s p, i ∉ b.levelSlots s p) ∧ b.arena.freeSlots.count i = 1) := by
  obtain ⟨fl, hfl⟩ := h.arena
  simp only [h.levelSlots_eq, hfl.freeSlots_eq]
  by_cases hl : b.live i
  · have hm : i ∈ q (b.order i).side (b.order i).priceTicks := (h.mem _ _ i).mpr ⟨hl, rfl, rfl⟩
    refine Or.inl ⟨_, _, hm, List.count_eq_one_of_mem (h.nodup _ _) hm, ?_, ?_⟩
    · intro s' p' hm'
      exact h.mem_unique hm' hm
    · intro hf
      have := ((hfl.mem i).mp hf).2
      rw [OrderBook.live] at hl
      rw [hl] at this
      exact Bool.noConfusion this
  · refine Or.inr ⟨fun s p hm => hl ((h.mem s p i).mp hm).1, ?_⟩
    refine List.count_eq_one_of_mem hfl.nodup ((hfl.mem i).mpr ⟨hi, ?_⟩)
    rwa [OrderBook.live, Bool.not_eq_true] at hl

/-- **The book invariant gives the representation invariant.** -/
theorem BookInv.repInv (h : BookInv b q) : RepInv b where
  audit := audit_eq h
  refs := by
    intro ref hr
    constructor
    · rintro ⟨x, hx, rfl⟩
      obtain ⟨h1, h2, _⟩ := cell_live h hx hr
      exact ⟨_, h1, h2⟩
    · rintro ⟨i, hi, rfl⟩
      obtain ⟨_, hslot, hcell⟩ := h.idFindSlot_live hi
      exact ⟨_, hslot, by rw [hcell]⟩
  once := fun x y hx hy hr heq => h.table.probing.inj x y hx hy hr heq
  probe := by
    intro x hx hr
    obtain ⟨h1, h2, h3⟩ := cell_live h hx hr
    obtain ⟨hhand, hslot, hcell⟩ := h.idFindSlot_live h1
    rw [h2] at hhand hslot hcell
    have hsx : (b.idFindSlot (b.entries x).ref).slot = x := by
      refine (h.table.probing.inj x _ hx hslot hr ?_).symm
      show (b.entries x).ref = (b.entries _).ref
      rw [hcell]
    rw [FindResult.mk.injEq]
    refine ⟨hsx, ?_⟩
    rw [hhand, GenHandle.mk.injEq]
    exact ⟨rfl, h3⟩
  path := fun x hx hr y hy hlt => h.table.probing.path x hx hr y hy hlt
  size := by
    obtain ⟨fl, hfl⟩ := h.arena
    have h1 := h.size
    have h2 := hfl.liveCount_le
    have h3 := h.tableCap
    exact ⟨h1, by omega⟩
  slots := fun i hi => slot_state h hi
  pages := fun s => (h.ladder s).page
  dir := fun s d d' hd => ⟨((h.ladder s).dir_lt d hd).1, (h.ladder s).dir_inj d d' hd⟩
  pool := fun s => (h.ladder s).pool

/-! ## Whole runs -/

/-- What a call must satisfy: references are not zero, and `execute_front` takes no more
than the order at the front has. -/
def CallOk (b : OrderBook k) : BookCall → Prop
  | .add _ _ _ _ => True
  | .execute ref _ => ref ≠ 0
  | .cancel ref _ => ref ≠ 0
  | .executeFront s p qty => b.frontRef s p ≠ 0 → qty ≤ b.remainingOf (b.frontRef s p)
  | .remove ref => ref ≠ 0
  | .replace origRef newRef _ _ => origRef ≠ 0 ∧ newRef ≠ 0

/-- Every call of the sequence satisfies `CallOk` where it is made. -/
def RunOk : OrderBook k → List BookCall → Prop
  | _, [] => True
  | b, c :: cs => b.CallOk c ∧ RunOk (b.call c).book cs

/-- The book a sequence of calls leaves. -/
def after : OrderBook k → List BookCall → OrderBook k
  | b, [] => b
  | b, c :: cs => after (b.call c).book cs

theorem add_inv (h : BookInv b q) (ref : Nat) (s : Side) (qty p : Int) :
    ∃ q', BookInv (b.add ref s qty p).book q' := by
  unfold add
  split
  · exact ⟨q, h⟩
  split
  · exact ⟨q, h⟩
  split
  · exact ⟨q, h⟩
  split
  · exact ⟨q, h⟩
  rename_i h1 h2 h3 h4
  dsimp only
  split
  · exact ⟨q, h⟩
  rename_i h5
  obtain ⟨fl, hfl⟩ := h.arena
  by_cases hroom : b.arena.liveCount < b.arena.capacity
  · have hdup := (h.idFind_null_iff h1).mp (not_not.mp h5)
    obtain ⟨⟨i, hrest⟩, _⟩ := add_rests h h1 (Int.not_le.mp h2) (not_not.mp h3) (not_not.mp h4)
      hdup hroom
    have hbook := hrest.inv
    unfold add at hbook
    rw [if_neg h1, if_neg h2, if_neg h3, if_neg h4] at hbook
    dsimp only at hbook
    rw [if_neg h5] at hbook
    split
    · exact ⟨q, h⟩
    · rename_i h6
      rw [if_neg h6] at hbook
      exact ⟨_, hbook⟩
  · have hle := hfl.liveCount_le
    rw [Arena.acquire_full hfl (by omega)]
    have hisNull : (({} : GenHandle), b.arena).1.isNull := rfl
    rw [if_pos hisNull]
    exact ⟨q, h⟩

theorem execute_inv (h : BookInv b q) {ref : Nat} (hr : ref ≠ 0) (qty : Int) :
    ∃ q', BookInv (b.execute ref qty).book q' := by
  by_cases h1 : qty ≤ 0
  · rw [execute, if_pos h1]
    exact ⟨q, h⟩
  by_cases h2 : (b.idFind ref).index = kNullIndex
  · rw [idFind] at h2
    rw [execute, if_neg h1]
    dsimp only
    rw [if_pos h2]
    exact ⟨q, h⟩
  obtain ⟨hl, href, _⟩ := h.idFind_live hr h2
  by_cases h3 : b.rem (b.idFind ref).index < qty
  · rw [idFind] at h2
    have hover : (b.arena.deref (b.idFindSlot ref).handle).qtyRemaining < qty := h3
    rw [execute, if_neg h1]
    dsimp only
    rw [if_neg h2, if_pos hover]
    exact ⟨q, h⟩
  · have := (execute_spec h hl (Int.not_le.mp h1) (Int.not_lt.mp h3)).1.inv
    rw [href] at this
    exact ⟨_, this⟩

theorem executeFront_inv (h : BookInv b q) {s : Side} {p qty : Int}
    (hle : b.frontRef s p ≠ 0 → qty ≤ b.remainingOf (b.frontRef s p)) :
    ∃ q', BookInv (b.executeFront s p qty).book q' := by
  by_cases h1 : qty ≤ 0
  · rw [executeFront, if_pos h1]
    exact ⟨q, h⟩
  rcases peek_head h (s := s) (p := p) with ⟨_, hpk⟩ | ⟨i, l, lv, hq, _⟩
  · rw [executeFront, if_neg h1]
    rcases hpk with hnone | ⟨lv, hsome, hhead⟩
    · rw [hnone]
      exact ⟨q, h⟩
    · rw [hsome]
      dsimp only
      rw [if_pos hhead]
      exact ⟨q, h⟩
  · have hmem : i ∈ q s p := by rw [hq]; simp
    have hi := ((h.mem s p i).mp hmem).1
    have hfront : b.frontRef s p = (b.order i).orderRef := by rw [h.frontRef_eq, hq]
    rw [hfront, h.remainingOf_live hi] at hle
    exact ⟨_, (executeFront_spec h hq (Int.not_le.mp h1) (hle (h.ref i hi))).1.inv⟩

theorem remove_inv (h : BookInv b q) {ref : Nat} (hr : ref ≠ 0) :
    ∃ q', BookInv (b.remove ref).book q' := by
  by_cases h2 : (b.idFind ref).index = kNullIndex
  · rw [idFind] at h2
    unfold remove
    dsimp only
    rw [if_pos h2]
    exact ⟨q, h⟩
  obtain ⟨hl, href, _⟩ := h.idFind_live hr h2
  have := (remove_spec h hl).1.inv
  rw [href] at this
  exact ⟨_, this⟩

theorem replace_inv (h : BookInv b q) {origRef : Nat} (horig : origRef ≠ 0) (newRef : Nat)
    (qty p : Int) : ∃ q', BookInv (b.replace origRef newRef qty p).book q' := by
  obtain ⟨q1, h1⟩ := remove_inv h horig
  unfold replace
  split
  · exact ⟨q, h⟩
  split
  · exact ⟨q, h⟩
  dsimp only
  split
  · exact ⟨q, h⟩
  split
  · exact ⟨q, h⟩
  split
  · exact ⟨q, h⟩
  exact add_inv h1 _ _ _ _

theorem call_inv (h : BookInv b q) {c : BookCall} (hc : b.CallOk c) :
    ∃ q', BookInv (b.call c).book q' := by
  cases c with
  | add ref s qty p => exact add_inv h ref s qty p
  | execute ref qty => exact execute_inv h hc qty
  | cancel ref qty => exact execute_inv h hc qty
  | executeFront s p qty => exact executeFront_inv h hc
  | remove ref => exact remove_inv h hc
  | replace origRef newRef qty p => exact replace_inv h hc.1 newRef qty p

theorem run_inv {calls : List BookCall} : ∀ {b : OrderBook k} {q : Side → Int → List Nat},
    BookInv b q → b.RunOk calls → ∃ q', BookInv (b.after calls) q' := by
  induction calls with
  | nil => intro b q h _; exact ⟨q, h⟩
  | cons c calls ih =>
      intro b q h hr
      obtain ⟨q', h'⟩ := call_inv h hr.1
      exact ih h' hr.2

end OrderBook

end Mog
