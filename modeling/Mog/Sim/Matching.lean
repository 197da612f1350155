import Mathlib.Algebra.Order.BigOperators.Group.Finset
import Mog.Lib.PriceTime
import Mog.Sim.Homes
import Mog.Sim.Ledger
import Mog.Sim.Marketable

/-!
# The sweep is a price-time matcher

Where no order is hidden and no self-trade prevention is at work, a sweep executes what
the reference matcher executes, in the same order, and leaves the same queues and
reserves. The matcher's rules are the order's bound and the slices the registry shows.
-/

namespace Mog

open QueueSum TrackTable PriceTime

/-- An execution, as the matcher records it. -/
def Execution.toMatch (e : Execution) : Match Nat Int := ⟨e.ref, e.price, e.qty⟩

namespace ExecutionSimulator

open Sweep

variable {k : Nat} {cfg : SimConfig} {sim sim' : ExecutionSimulator k} {order : SimInbound}

/-- One side of the market: the displayed queues, and the reserves of the icebergs. -/
def liquidity (sim : ExecutionSimulator k) (s : Side) : Liquidity Nat Int where
  queue p := sim.book.fifo s p
  reserve := reserveOf sim.icebergs

/-- The slice registered for a reference. -/
def displayOf (l : List Iceberg) (ref : Nat) : Int :=
  ((l.find? (fun ib => ib.ref = ref)).map Iceberg.display).getD 0

/-- What `order` matches by. -/
def matchRules (sim : ExecutionSimulator k) (order : SimInbound) : Rules Nat Int where
  good := atLeastAsGood order.side.opp
  within p := ¬ beyond order p
  display := displayOf sim.icebergs

instance (b : OrderBook k) (i : Nat) : Decidable (b.live i) := inferInstanceAs (Decidable (_ = true))

/-- What the order in slot `i` has that `order` could trade with. -/
def shownWithin (sim : ExecutionSimulator k) (order : SimInbound) (i : Nat) : Int :=
  if sim.book.live i ∧ (sim.book.order i).side = order.side.opp
      ∧ ¬ beyond order (sim.book.order i).priceTicks then sim.book.rem i
  else 0

/-- The same of a reserve. -/
def reservedWithin (order : SimInbound) (ib : Iceberg) : Int :=
  if ib.side = order.side.opp ∧ ¬ beyond order ib.priceTicks then ib.hidden else 0

/-- All opposing quantity within the bound, displayed and in reserve. -/
def quantityWithin (sim : ExecutionSimulator k) (order : SimInbound) : Int :=
  ∑ i ∈ Finset.range sim.book.arena.capacity, sim.shownWithin order i
    + (sim.icebergs.map (reservedWithin order)).sum

/-- What a sweep without hidden orders or self-trade prevention starts from and keeps. -/
structure Matchable (cfg : SimConfig) (r : Rules Nat Int) (sim : ExecutionSimulator k) : Prop where
  inv : SimInv cfg sim
  homed : sim.Homed
  hidden : sim.hidden = []
  stp : sim.stp = .none
  once : (sim.icebergs.map Iceberg.ref).Nodup
  display : ∀ ib ∈ sim.icebergs, r.display ib.ref = ib.display

/-! ## The queues and reserves after an execution -/

/-- The queue of an executed order, and every other queue. -/
theorem Filled.fifo {i : Nat} {l : List Nat} {take : Int} (hf : Filled cfg sim sim' i take)
    (hinv : SimInv cfg sim) (hq : sim.book.queueOf i = i :: l) (s : Side) (p : Int) :
    sim'.book.fifo s p
      = if s = (sim.book.order i).side ∧ p = (sim.book.order i).priceTicks then
          if take < sim.book.rem i then
            ((sim.book.order i).orderRef, sim.book.rem i - take)
              :: l.map (fun j => ((sim.book.order j).orderRef, sim.book.rem j))
          else l.map (fun j => ((sim.book.order j).orderRef, sim.book.rem j))
        else sim.book.fifo s p := by
  have hle := hf.le
  have hnd : (i :: l).Nodup := hq ▸ hinv.book.nodup _ _
  have hother : ∀ j, j ≠ i → ((sim'.book.order j).orderRef, sim'.book.rem j)
      = ((sim.book.order j).orderRef, sim.book.rem j) := fun j hji => by
    rw [(Order.view_eq (hf.book.frame j hji)).1, hf.book.rem_other hji]
  have htail : l.map (fun j => ((sim'.book.order j).orderRef, sim'.book.rem j))
      = l.map (fun j => ((sim.book.order j).orderRef, sim.book.rem j)) :=
    List.map_congr_left (fun j hj => hother j (fun he => (List.nodup_cons.mp hnd).1 (he ▸ hj)))
  rw [OrderBook.fifo, hf.book.levelSlots hinv.book]
  by_cases hsp : s = (sim.book.order i).side ∧ p = (sim.book.order i).priceTicks
  · obtain ⟨rfl, rfl⟩ := hsp
    have hlevel : sim.book.levelSlots (sim.book.order i).side (sim.book.order i).priceTicks
        = i :: l := hq
    rw [hlevel, if_pos (And.intro rfl rfl)]
    by_cases hlt : take < sim.book.rem i
    · have hne : sim.book.rem i ≠ take := by omega
      have href := (hf.book.kept ((hf.book.live i).mpr ⟨hf.live, fun hh => hne hh.2⟩)).1
      rw [if_neg (fun hh => hne hh.1), if_pos hlt, List.map_cons, htail, href,
        hf.book.rem_self hne]
    · rw [if_pos ⟨by omega, rfl, rfl⟩, if_neg hlt, List.erase_cons_head, htail]
  · rw [if_neg (fun hh => hsp hh.2), if_neg hsp]
    refine List.map_congr_left (fun j hj => hother j (fun he => hsp ?_))
    obtain ⟨_, h1, h2⟩ := (hinv.book.mem s p j).mp hj
    rw [← he]
    exact ⟨h1.symm, h2.symm⟩

/-- The reserve of a reference is that of its entry. -/
theorem reserveOf_entry {ib : Iceberg} {l : List Iceberg} (hnd : (l.map Iceberg.ref).Nodup)
    (hib : ib ∈ l) : reserveOf l ib.ref = ib.hidden := by
  obtain ⟨l₁, l₂, rfl⟩ := List.append_of_mem hib
  rw [List.map_append, List.map_cons] at hnd
  obtain ⟨_, hcons, hdis⟩ := List.nodup_append.mp hnd
  have h1 : reserveOf l₁ ib.ref = 0 := reserveOf_eq_zero (fun x hx he =>
    absurd he (hdis x.ref (List.mem_map_of_mem hx) ib.ref List.mem_cons_self))
  have h2 : reserveOf l₂ ib.ref = 0 := reserveOf_eq_zero (fun x hx he =>
    absurd (he ▸ List.mem_map_of_mem hx) (List.nodup_cons.mp hcons).1)
  rw [reserveOf_append, reserveOf_cons, if_pos rfl, h1, h2]
  omega

theorem mem_of_reserveOf_pos {l : List Iceberg} {ref : Nat} (h : 0 < reserveOf l ref) :
    ∃ ib ∈ l, ib.ref = ref ∧ ib.hidden ≠ 0 := by
  by_contra hno
  have hz : reserveOf l ref = 0 := reserveOf_eq_zero (fun ib hib he => by
    by_contra hne
    exact hno ⟨ib, hib, he, hne⟩)
  omega

/-- **A fill at the touch is one step of the matcher.** -/
theorem fill_consumes {r : Rules Nat Int} {mid : ExecutionSimulator k} {i : Nat} {l : List Nat}
    {take : Int} (h : Matchable cfg r sim) (hf : Filled cfg sim mid i take)
    (hq : sim.book.queueOf i = i :: l) (hs : Shown mid sim' (sim.book.order i).orderRef) :
    sim'.liquidity (sim.book.order i).side
      = consume r (sim.liquidity (sim.book.order i).side) (sim.book.order i).priceTicks
          (sim.book.order i).orderRef (sim.book.rem i)
          (l.map (fun j => ((sim.book.order j).orderRef, sim.book.rem j))) take
      ∧ ∀ s p, s ≠ (sim.book.order i).side → sim'.book.fifo s p = sim.book.fifo s p := by
  have hle := hf.le
  have hmid := hf.inv h.inv
  have hfifo := hf.fifo h.inv hq
  have hlive : take < sim.book.rem i → mid.book.live i := fun hlt =>
    (hf.book.live i).mpr ⟨hf.live, fun hh => by omega⟩
  have hreserve : (sim.liquidity (sim.book.order i).side).reserve = reserveOf sim.icebergs := rfl
  unfold consume
  rcases hs with ⟨rfl, hno⟩ | ⟨ib, rest, j, href, hr⟩
  · refine ⟨?_, fun s p hne => by rw [hfifo, if_neg (fun hh => hne hh.1)]⟩
    have hqueue : ∀ m : List (Nat × Int), (∀ s p, sim'.book.fifo s p
        = if s = (sim.book.order i).side ∧ p = (sim.book.order i).priceTicks then m
          else sim.book.fifo s p) →
        sim'.liquidity (sim.book.order i).side
          = { sim.liquidity (sim.book.order i).side with
              queue := Function.update (sim.liquidity (sim.book.order i).side).queue
                (sim.book.order i).priceTicks m } := by
      intro m hm
      refine Liquidity.ext (funext fun p => ?_) (by
        show reserveOf sim'.icebergs = reserveOf sim.icebergs
        rw [hf.icebergs])
      show sim'.book.fifo _ p = Function.update (fun p => sim.book.fifo _ p) _ m p
      rw [hm, Function.update_apply]
      simp only [true_and]
    by_cases hlt : take < sim.book.rem i
    · rw [if_pos hlt]
      refine hqueue _ (fun s p => ?_)
      rw [hfifo, if_pos hlt]
    · rw [if_neg hlt]
      -- a head that is used up and shows nothing has no reserve
      have hz : ¬ 0 < reserveOf sim.icebergs (sim.book.order i).orderRef := by
        intro hpos
        obtain ⟨x, hx, hxr, hxz⟩ := mem_of_reserveOf_pos hpos
        rcases hno with hno | ⟨z, hz, hzr, hzz, _⟩ | hstill
        · exact hno x (hf.icebergs ▸ hx) hxr
        · have := List.inj_on_of_nodup_map h.once hx (hf.icebergs ▸ hz) (hxr.trans hzr.symm)
          exact hxz (this ▸ hzz)
        · obtain ⟨hl, hlr, _⟩ := hmid.book.idFind_live (h.inv.book.ref i hf.live) hstill
          have hback := hf.book.back (Int.le_of_lt hf.pos) hl
          have hji := h.inv.book.ref_inj hback.1 hf.live (hback.2.1.symm.trans hlr)
          have hgone := ((hf.book.live i).mp (hji ▸ hl)).2
          exact hgone ⟨rfl, by omega⟩
      rw [if_neg (hreserve ▸ hz)]
      refine hqueue _ (fun s p => ?_)
      rw [hfifo, if_neg hlt]
  · -- the next slice has joined the tail
    have hib : ib ∈ sim.icebergs := by
      rw [← hf.icebergs]
      exact hr.entry.mem_iff.mpr List.mem_cons_self
    have hlt : ¬ take < sim.book.rem i := by
      intro hlt
      have hl := hlive hlt
      have hfree := hr.free
      rw [href, ← (hf.book.kept hl).1] at hfree
      exact (hmid.book.idFind_null_iff (hmid.book.ref i hl)).mp hfree i hl rfl
    -- at the level of the executed order
    obtain ⟨x, hxl, hxr, hside, hprice⟩ := h.homed.atHome h.once hib hr.reserve
    have hxi := h.inv.book.ref_inj hxl hf.live (hxr.trans href)
    rw [hxi] at hside hprice
    have hres : reserveOf sim.icebergs (sim.book.order i).orderRef = ib.hidden := by
      rw [← href]
      exact reserveOf_entry h.once hib
    have hdisp : r.display (sim.book.order i).orderRef = ib.display := by
      rw [← href]
      exact h.display ib hib
    have hpos := hr.reserve
    rw [if_neg hlt, if_pos (by rw [hreserve, hres]; exact hpos)]
    refine ⟨Liquidity.ext (funext fun p => ?_) (funext fun ref => ?_), fun s p hne => ?_⟩
    · show sim'.book.fifo _ p = Function.update (fun p => sim.book.fifo _ p) _ _ p
      rw [hr.book.fifo hmid.book, hfifo, if_neg hlt, Function.update_apply, hreserve, hres, hdisp]
      dsimp only
      rw [hside, hprice, href, nextSlice]
      by_cases hp : p = ib.priceTicks
      · rw [if_pos ⟨rfl, hp⟩, if_pos ⟨rfl, hp⟩, if_pos hp]
      · rw [if_neg (fun hh => hp hh.2), if_neg (fun hh => hp hh.2), if_neg hp, List.append_nil]
    · show reserveOf sim'.icebergs ref = Function.update (reserveOf sim.icebergs) _ _ ref
      have hentry := reserveOf_perm hr.entry ref
      rw [hf.icebergs, reserveOf_cons] at hentry
      rw [reserveOf_perm hr.left, reserveOf_append, reserveOf_afterSlice, Function.update_apply,
        hreserve, hres, hdisp, ← href]
      by_cases hrr : ref = ib.ref
      · have hown := reserveOf_entry h.once hib
        rw [hrr] at hentry ⊢
        rw [if_pos rfl] at hentry ⊢
        rw [if_pos rfl, nextSlice]
        omega
      · rw [if_neg (fun he => hrr he.symm)] at hentry ⊢
        rw [if_neg hrr]
        exact hentry.symm
    · rw [hr.book.fifo hmid.book, hfifo]
      dsimp only
      rw [if_neg (fun hh => hne hh.1), if_neg (fun hh => hne (hh.1.trans hside.symm)),
        List.append_nil]

/-! ## The quantity within the bound -/

/-- A sum changes by what one of its terms does. -/
theorem sum_range_point {f g : Nat → Int} {n i : Nat} (hi : i < n) (h : ∀ j, j ≠ i → g j = f j) :
    ∑ j ∈ Finset.range n, g j = ∑ j ∈ Finset.range n, f j + (g i - f i) := by
  have hmem : i ∈ Finset.range n := Finset.mem_range.mpr hi
  have hrest : ∑ j ∈ (Finset.range n).erase i, g j = ∑ j ∈ (Finset.range n).erase i, f j :=
    Finset.sum_congr rfl (fun j hj => h j (Finset.ne_of_mem_erase hj))
  have hg := Finset.add_sum_erase _ g hmem
  have hf := Finset.add_sum_erase _ f hmem
  omega

/-- **An execution takes its units from the quantity within the bound.** -/
theorem fill_quantity {r : Rules Nat Int} {mid : ExecutionSimulator k} {i : Nat} {take : Int}
    (h : Matchable cfg r sim) (hf : Filled cfg sim mid i take)
    (hs : Shown mid sim' (sim.book.order i).orderRef)
    (hside : (sim.book.order i).side = order.side.opp)
    (hwithin : ¬ beyond order (sim.book.order i).priceTicks) :
    sim'.quantityWithin order = sim.quantityWithin order - take := by
  have hle := hf.le
  have hmid := hf.inv h.inv
  have hi := h.inv.book.lt_capacity hf.live
  -- the displayed part after the execution
  have hmidsum : ∑ j ∈ Finset.range mid.book.arena.capacity, mid.shownWithin order j
      = ∑ j ∈ Finset.range sim.book.arena.capacity, sim.shownWithin order j - take := by
    have hself : sim.shownWithin order i = sim.book.rem i := if_pos ⟨hf.live, hside, hwithin⟩
    have hself' : mid.shownWithin order i = sim.book.rem i - take := by
      by_cases hz : sim.book.rem i = take
      · rw [shownWithin, if_neg (fun hh => ((hf.book.live i).mp hh.1).2 ⟨rfl, hz⟩)]
        omega
      · have hl := (hf.book.live i).mpr ⟨hf.live, fun hh => hz hh.2⟩
        obtain ⟨_, hp, hsd⟩ := hf.book.kept hl
        rw [shownWithin, hp, hsd, if_pos ⟨hl, hside, hwithin⟩, hf.book.rem_self hz]
    rw [hf.book.config.capacity, sum_range_point (f := sim.shownWithin order) hi, hself, hself']
    · omega
    · intro j hji
      obtain ⟨_, hq, hp, hsd⟩ := Order.view_eq (hf.book.frame j hji)
      have hlj : mid.book.live j ↔ sim.book.live j :=
        (hf.book.live j).trans ⟨fun hh => hh.1, fun hh => ⟨hh, fun he => hji he.1⟩⟩
      rw [shownWithin, shownWithin, hp, hsd, hf.book.rem_other hji]
      simp only [hlj]
  rcases hs with ⟨rfl, _⟩ | ⟨ib, rest, j, href, hr⟩
  · rw [quantityWithin, quantityWithin, hmidsum, hf.icebergs]
    omega
  · -- the slice moves from the reserve to the queue of the same level
    have hib : ib ∈ sim.icebergs := by
      rw [← hf.icebergs]
      exact hr.entry.mem_iff.mpr List.mem_cons_self
    obtain ⟨x, hxl, hxr, hxs, hxp⟩ := h.homed.atHome h.once hib hr.reserve
    have hxi := h.inv.book.ref_inj hxl hf.live (hxr.trans href)
    rw [hxi] at hxs hxp
    have hibw : ib.side = order.side.opp ∧ ¬ beyond order ib.priceTicks :=
      ⟨hxs ▸ hside, hxp ▸ hwithin⟩
    have hshown : ∑ x ∈ Finset.range sim'.book.arena.capacity, sim'.shownWithin order x
        = ∑ x ∈ Finset.range mid.book.arena.capacity, mid.shownWithin order x + nextSlice ib := by
      have hlj := (hr.book.live j).mpr (Or.inl rfl)
      obtain ⟨_, hjs, hjp⟩ := hr.book.fields
      have hself : mid.shownWithin order j = 0 := if_neg (fun hh => hr.book.fresh hh.1)
      have hself' : sim'.shownWithin order j = nextSlice ib := by
        rw [shownWithin, hjs, hjp, if_pos ⟨hlj, hibw⟩, hr.book.rem_self]
      have hj := hr.book.valid.lt_capacity hlj
      rw [hr.book.config.capacity] at hj ⊢
      rw [sum_range_point (f := mid.shownWithin order) hj, hself, hself']
      · omega
      · intro x hxj
        obtain ⟨_, _, hp, hsd⟩ := Order.view_eq (hr.book.frame x hxj)
        have hlx : sim'.book.live x ↔ mid.book.live x :=
          (hr.book.live x).trans ⟨fun hh => hh.resolve_left hxj, Or.inr⟩
        rw [shownWithin, shownWithin, hp, hsd, hr.book.rem_other hxj]
        simp only [hlx]
    have hentry : (mid.icebergs.map (reservedWithin order)).sum
        = ib.hidden + (rest.map (reservedWithin order)).sum := by
      rw [(hr.entry.map _).sum_eq, List.map_cons, List.sum_cons, reservedWithin, if_pos hibw]
    have hleft : (sim'.icebergs.map (reservedWithin order)).sum
        = ib.hidden - nextSlice ib + (rest.map (reservedWithin order)).sum := by
      rw [(hr.left.map _).sum_eq, List.map_append, List.sum_append, afterSlice]
      by_cases hz : ib.hidden - nextSlice ib = 0
      · rw [if_pos hz, hz]
        rfl
      · rw [if_neg hz, List.map_singleton, List.sum_singleton, reservedWithin, if_pos hibw]
    rw [quantityWithin, quantityWithin, hshown, hmidsum, hleft, ← hf.icebergs, hentry]
    omega

/-- Nothing is negative within the bound. -/
theorem quantityWithin_nonneg (h : SimInv cfg sim) (order : SimInbound) :
    0 ≤ sim.quantityWithin order := by
  have h1 : 0 ≤ ∑ i ∈ Finset.range sim.book.arena.capacity, sim.shownWithin order i := by
    refine Finset.sum_nonneg (fun i _ => ?_)
    rw [shownWithin]
    split
    · rename_i hi
      exact Int.le_of_lt (h.book.pos i hi.1)
    · exact Int.le_refl 0
  have h2 : 0 ≤ (sim.icebergs.map (reservedWithin order)).sum := by
    refine List.sum_nonneg (fun x hx => ?_)
    obtain ⟨ib, hib, rfl⟩ := List.mem_map.mp hx
    rw [reservedWithin]
    split
    · exact (h.icebergs ib hib).hidden
    · exact Int.le_refl 0
  rw [quantityWithin]
  omega

/-- Where no order is left within the bound, no reserve is either. -/
theorem quantityWithin_exhausted {r : Rules Nat Int} (h : Matchable cfg r sim)
    (hno : ¬ sim.OpposingWithin order) : sim.quantityWithin order = 0 := by
  have h1 : ∑ i ∈ Finset.range sim.book.arena.capacity, sim.shownWithin order i = 0 :=
    Finset.sum_eq_zero (fun i _ => if_neg (fun hh => hno (Or.inl ⟨i, hh⟩)))
  have h2 : (sim.icebergs.map (reservedWithin order)).sum = 0 := by
    refine List.sum_eq_zero (fun x hx => ?_)
    obtain ⟨ib, hib, rfl⟩ := List.mem_map.mp hx
    rw [reservedWithin]
    split
    · rename_i hw
      by_contra hne
      have hpos : 0 < ib.hidden := by
        have := (h.inv.icebergs ib hib).hidden
        omega
      -- a reserve has its slice on the same level
      obtain ⟨i, hl, _, hs, hp⟩ := h.homed.atHome h.once hib hpos
      exact hno (Or.inl ⟨i, hl, hs.trans hw.1, hp ▸ hw.2⟩)
    · rfl
  rw [quantityWithin, h1, h2, Int.add_zero]

/-! ## The sweep, execution by execution -/

/-- Showing a slice neither adds a reference to the registry nor changes a display. -/
theorem Shown.registry {mid : ExecutionSimulator k} {ref : Nat} (h : Shown mid sim' ref) :
    ((mid.icebergs.map Iceberg.ref).Nodup → (sim'.icebergs.map Iceberg.ref).Nodup)
      ∧ ∀ x ∈ sim'.icebergs, ∃ y ∈ mid.icebergs, y.ref = x.ref ∧ y.display = x.display := by
  rcases h with ⟨rfl, _⟩ | ⟨ib, rest, j, _, hr⟩
  · exact ⟨id, fun x hx => ⟨x, hx, rfl, rfl⟩⟩
  refine ⟨fun hnd => ?_, fun x hx => ?_⟩
  · rw [(hr.entry.map _).nodup_iff, List.map_cons, List.nodup_cons] at hnd
    rw [(hr.left.map _).nodup_iff, afterSlice]
    split
    · exact hnd.2
    · exact List.nodup_cons.mpr hnd
  · rcases List.mem_append.mp (hr.left.mem_iff.mp hx) with hx | hx
    · rw [SimInv.mem_afterSlice hx]
      exact ⟨ib, hr.entry.mem_iff.mpr List.mem_cons_self, rfl, rfl⟩
    · exact ⟨x, hr.entry.mem_iff.mpr (List.mem_cons_of_mem _ hx), rfl, rfl⟩

theorem Matchable.filled {r : Rules Nat Int} {mid : ExecutionSimulator k} {i : Nat} {take : Int}
    (h : Matchable cfg r sim) (hinv : SimInv cfg sim') (hf : Filled cfg sim mid i take)
    (hs : Shown mid sim' (sim.book.order i).orderRef) : Matchable cfg r sim' := by
  obtain ⟨hhid, _, henv⟩ := Shown.fields hs
  obtain ⟨hnd, hreg⟩ := Shown.registry hs
  rw [hf.icebergs] at hnd hreg
  refine { inv := hinv, homed := filled_homed h.homed h.inv hf hs, hidden := ?_, stp := ?_,
           once := hnd h.once, display := fun x hx => ?_ }
  · rw [hhid, hf.hidden, h.hidden]
  · rw [henv.stp, hf.env.stp, h.stp]
  · obtain ⟨y, hy, href, hdisp⟩ := hreg x hx
    rw [← href, ← hdisp]
    exact h.display y hy

theorem displayOf_entry {ib : Iceberg} {l : List Iceberg} (hnd : (l.map Iceberg.ref).Nodup)
    (hib : ib ∈ l) : displayOf l ib.ref = ib.display := by
  rw [displayOf]
  cases hfind : l.find? (fun x => x.ref = ib.ref) with
  | none =>
      have := List.find?_eq_none.mp hfind ib hib
      simp at this
  | some x =>
      have hx := List.mem_of_find?_eq_some hfind
      have href : x.ref = ib.ref := by simpa using List.find?_some hfind
      rw [List.inj_on_of_nodup_map hnd hx hib href]
      rfl

end ExecutionSimulator

namespace Sweep

open ExecutionSimulator

variable {k : Nat} {cfg : SimConfig} {w w' : Sweep k} {order : SimInbound}
  {start : ExecutionSimulator k}

/-- The head of the touch is the matcher's. -/
theorem AtTouch.isTouch {i : Nat} {l : List Nat} (ht : AtTouch order w i l)
    (start : ExecutionSimulator k) (h : SimInv cfg w.sim) :
    IsTouch (matchRules start order) (w.sim.liquidity order.side.opp) (w.sim.book.best order.side.opp)
      ∧ (w.sim.liquidity order.side.opp).queue (w.sim.book.best order.side.opp)
        = ((w.sim.book.order i).orderRef, w.sim.book.rem i)
          :: l.map (fun j => ((w.sim.book.order j).orderRef, w.sim.book.rem j)) := by
  have hq : (w.sim.liquidity order.side.opp).queue (w.sim.book.best order.side.opp)
      = ((w.sim.book.order i).orderRef, w.sim.book.rem i)
        :: l.map (fun j => ((w.sim.book.order j).orderRef, w.sim.book.rem j)) := by
    show w.sim.book.fifo _ _ = _
    rw [OrderBook.fifo, ht.front.slots, List.map_cons]
  refine ⟨{ occupied := by rw [hq]; exact List.cons_ne_nil _ _, within := ht.bound,
            best := fun p hp _ => (h.book.best_good (fun hnil => hp ?_)).2 }, hq⟩
  show w.sim.book.fifo _ _ = _
  rw [OrderBook.fifo, hnil]
  rfl

/-- **Without hidden orders or self-trade prevention, a sweep is a run of the matcher.** -/
theorem Moves.run (hm : Moves cfg order w w') (h : Matchable cfg (matchRules start order) w.sim)
    (hrem : 0 ≤ w.remaining) (hend : w'.remaining ≤ 0 ∨ (0 < w'.remaining
      ∧ w'.step cfg order = .leave)) :
    ∃ es, w'.sim.log.executions = w.sim.log.executions ++ es
      ∧ Run (matchRules start order) (w.sim.liquidity order.side.opp) w.remaining
          (es.map Execution.toMatch) (w'.sim.liquidity order.side.opp) w'.remaining
      ∧ (∀ s p, s ≠ order.side.opp → w'.sim.book.fifo s p = w.sim.book.fifo s p)
      ∧ w'.sim.quantityWithin order = w.sim.quantityWithin order - executedQty es
      ∧ Matchable cfg (matchRules start order) w'.sim := by
  -- By induction from the front: without hidden orders or prevention a pass is a fill at the touch,
  -- which is the matcher's next hit.
  induction hm using Relation.ReflTransGen.head_induction_on with
  | refl =>
      refine ⟨[], (List.append_nil _).symm, ?_, fun _ _ _ => rfl, (Int.sub_zero _).symm, h⟩
      rcases hend with hle | ⟨hpos, hleave⟩
      · rw [show w'.remaining = 0 by omega]
        exact .filled _
      -- The sweep has left the loop: nothing within the bound is resting any more.
      · have hp : LedgerPriced order.side.opp w'.sim.hidden := by
          rw [h.hidden]
          exact fun e he => absurd he List.not_mem_nil
        have hex := leave_exhausts h.inv hp hleave
        refine .exhausted hpos (fun p hocc hwithin => hex (Or.inl ?_))
        obtain ⟨i, hi⟩ := List.exists_mem_of_ne_nil _
          (fun hnil => hocc (List.map_eq_nil_iff.mpr hnil) :
            w'.sim.book.levelSlots order.side.opp p ≠ [])
        obtain ⟨hl, hs, hpi⟩ := (h.inv.book.mem _ _ i).mp hi
        exact ⟨i, hl, hs, by rw [hpi]; exact hwithin⟩
  | head hab hbc ih =>
      rename_i a b
      obtain ⟨hmove, hinv⟩ := hab
      cases hmove with
      | fill i l take mid ht hstp hf htake hs hc =>
          have hq : a.sim.book.queueOf i = i :: l := by
            rw [OrderBook.queueOf, ht.front.side, ht.front.price, ht.front.slots]
          have hpos := hf.pos
          have hwithin : ¬ beyond order (a.sim.book.order i).priceTicks := by
            rw [ht.front.price]
            exact ht.bound
          obtain ⟨hstep, hother⟩ := fill_consumes h hf hq hs
          have hquantity := fill_quantity h hf hs ht.front.side hwithin
          obtain ⟨es, hex, hrun, hsame, hqty, hmatch⟩ :=
            ih (h.filled hinv hf hs) (by rw [hc.remaining]; omega)
          obtain ⟨htouch, hhead⟩ := ht.isTouch start h.inv
          rw [ht.front.side] at hstep hother
          rw [ht.front.price, htake] at hstep
          rw [hstep, hc.remaining, htake] at hrun
          refine ⟨a.sim.executionOf i take :: es, ?_, ?_, fun s p hne => ?_, ?_, hmatch⟩
          · rw [hex, (Shown.fields hs).2.1, hf.log, FillLog.displayedFill_executions,
              List.append_assoc]
            rfl
          · have hhit := Run.hit (by omega) htouch hhead hrun
            rw [List.map_cons]
            have hmk : (a.sim.executionOf i take).toMatch
                = ⟨(a.sim.book.order i).orderRef, a.sim.book.best order.side.opp,
                  min a.remaining (a.sim.book.rem i)⟩ := by
              rw [Execution.toMatch, executionOf, ht.front.price, htake]
            rw [hmk]
            exact hhit
          · rw [hsame s p hne, hother s p hne]
          · have hcons : executedQty (a.sim.executionOf i take :: es) = take + executedQty es :=
              List.sum_cons
            rw [hqty, hquantity, hcons]
            omega
      | tap t e kept l hside hbound he hrem' hc =>
          have hbefore := he.before
          rw [h.hidden] at hbefore
          exact absurd hbefore.symm (by simp)
      | remove i l ht hown hstp hr =>
          rw [h.stp] at hstp
          exact absurd hstp (by decide)

end Sweep

namespace ExecutionSimulator

open Sweep

variable {k : Nat} {cfg : SimConfig} {sim sim' : ExecutionSimulator k} {order o : SimInbound}

/-! ## Whole decisions -/

/-- Between `sim` and `sim'` the order `o` has executed `es`, as the matcher does. -/
structure ReferenceMatched (sim sim' : ExecutionSimulator k) (o : SimInbound)
    (es : List Execution) : Prop where
  executions : sim'.log.executions = sim.log.executions ++ es
  run : Run (matchRules sim o) (sim.liquidity o.side.opp) o.qty (es.map Execution.toMatch)
    (sim'.liquidity o.side.opp) (o.qty - executedQty es)
  only : ∀ ms m rem, Run (matchRules sim o) (sim.liquidity o.side.opp) o.qty ms m rem →
    ms = es.map Execution.toMatch ∧ m = sim'.liquidity o.side.opp ∧ rem = o.qty - executedQty es
  total : executedQty es = min o.qty (sim.quantityWithin o)
  within : ∀ e ∈ es, e.side = o.side.opp ∧ ¬ beyond o e.price
  /-- The order's own side gains at most what is left of it. -/
  own : ∀ p, sim'.book.fifo o.side p = sim.book.fifo o.side p
    ∨ sim'.book.fifo o.side p = sim.book.fifo o.side p ++ [(o.ref, o.qty - executedQty es)]

/-- A remainder that comes to rest joins the tail of its own side. -/
theorem Placed.fifo {remaining : Int} (h : SimInv cfg sim) (hp : Placed sim o remaining sim') :
    sim'.icebergs = sim.icebergs
      ∧ (∀ p, sim'.book.fifo o.side.opp p = sim.book.fifo o.side.opp p)
      ∧ ∀ p, sim'.book.fifo o.side p = sim.book.fifo o.side p
        ∨ sim'.book.fifo o.side p = sim.book.fifo o.side p ++ [(o.ref, remaining)] := by
  cases hp with
  | nowhere hs =>
      rw [hs.book]
      exact ⟨hs.icebergs, fun _ => rfl, fun _ => Or.inl rfl⟩
  | displayed i _ _ hr hs =>
      refine ⟨hs.icebergs, fun p => ?_, fun p => ?_⟩
      · rw [hr.fifo h.book, if_neg (fun hh => Side.opp_ne _ hh.1), List.append_nil]
      · rw [hr.fifo h.book]
        by_cases hp : o.side = o.side ∧ p = o.price
        · exact Or.inr (by rw [if_pos hp])
        · exact Or.inl (by rw [if_neg hp, List.append_nil])
  | ledger _ hs =>
      rw [hs.book]
      exact ⟨hs.icebergs, fun _ => rfl, fun _ => Or.inl rfl⟩

/-- An iceberg of five shows two before an order of three. -/
def icebergAhead : List SimCall :=
  [.seedIceberg { ref := 1, side := .sell, price := 5, display := 2, total := 5 },
    .seedExternal 2 .sell 3 5]

/-- A market buy for six. -/
def marketBuy : SimInbound := { ref := 101, qty := 6, type := .market }

end ExecutionSimulator

end Mog
