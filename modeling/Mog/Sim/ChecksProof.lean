import Mog.Sim.Checks
import Mog.Sim.Pipeline

/-!
# No run trips a check

From the invariant, no execution, decision, sweep or slice of an iceberg trips one of the
checks on its way. What is left is in the hands of the caller: in every run a legal call trips
a check in three cases only.

Each predicate is derived from the simulator's invariant, building block by building block, with
the rules for loops. The three cases are a submission for which the scheduler has no room, and a
cancel or a replace of reference zero, which the table of references does not look up. The order
in which the heap pops is part of it, so its capacity is one that its positions can number.
-/

namespace Mog

open QueueSum TrackTable

/-! ## The checks of the scheduler -/

namespace Scheduler

variable {α : Type} {w : Scheduler α}

/-- A slot is free exactly below the capacity. -/
theorem pushOk_iff {l : List Nat} (hl : SlotTable.Free w.table l) :
    w.PushOk ↔ w.heapSize < w.capacity := by
  refine ⟨fun h => h.room, fun h => ⟨h, fun hhead => ?_⟩⟩
  have hnot : ¬ w.table.full := fun hf => Nat.not_lt.mpr (hl.full_iff.mp hf) h
  exact Nat.not_le.mp fun hle => hnot ⟨hhead, hle⟩

/-- **`pop_min` leaves nothing that sorts before what it takes.** -/
theorem popOk (h : HeapInv w) (hn : w.heapSize ≤ 2 ^ 31) (hne : ¬ w.empty) : w.PopOk := by
  refine ⟨hne, ?_⟩
  have hpos : 0 < w.heapSize := Nat.pos_of_ne_zero hne
  obtain ⟨_, hback, _, hleast⟩ := root_least h hpos
  have hseq := (h.linked.entry 0 hpos).2.2
  obtain ⟨_, htable, hinv⟩ := popMin_spec h hpos hn
  by_cases hempty : w.popMin.2.empty
  · exact Or.inl hempty
  -- the new root was recorded before, so it is no less than the old one
  have hpos' : 0 < w.popMin.2.heapSize := Nat.pos_of_ne_zero hempty
  obtain ⟨hlive', hback', _⟩ := root_least hinv hpos'
  have hseq' := (hinv.linked.entry 0 hpos').2.2
  have hrec := record_of_live hlive'
  rw [htable] at hrec
  generalize hx : (w.popMin.2.heap 0).slot = x at *
  have hold : w.table.record x = some (w.popMin.2.recordOf x) := by
    by_cases hroot : x = (w.heap 0).slot
    · have hgone : (w.table.release (w.heap 0).slot).record (w.heap 0).slot = none := by
        simp [SlotTable.release]
      rw [hroot, hgone] at hrec
      cases hrec
    · simpa [SlotTable.release, Function.update_of_ne hroot] using hrec
  have hle := hleast x _ hold
  unfold recordOf at hle
  dsimp only at hle
  rw [hback, hback', hseq, hseq'] at hle
  refine Or.inr fun hlt => ?_
  unfold entryLess at hlt
  omega

end Scheduler

/-! ## The checks of the book -/

namespace OrderBook

variable {k : Nat} {b : OrderBook k}

/-- A sound level can be walked. -/
theorem Valid.walkOk (h : b.Valid) (s : Side) (price : Int) : b.WalkOk s price :=
  fun i hi => h.lt_capacity ((h.mem s price i).mp hi).1

theorem Valid.frontRefOk (h : b.Valid) (s : Side) (price : Int) : b.FrontRefOk s price := by
  intro lv hpeek hhead
  rcases peek_head h (s := s) (p := price) with ⟨_, hnone | ⟨lv', hpeek', hnull⟩⟩
    | ⟨i, l, lv', hq, hpeek', hi, _⟩
  · rw [hnone] at hpeek
    cases hpeek
  · obtain rfl := Option.some.inj (hpeek.symm.trans hpeek')
    exact absurd hnull hhead
  · obtain rfl := Option.some.inj (hpeek.symm.trans hpeek')
    rw [hi]
    exact h.walkOk s price i (by rw [hq]; exact List.mem_cons_self)

/-- The front of a level can be executed. -/
theorem Front.headOk (h : b.Valid) {s : Side} {p : Int} {i : Nat} {l : List Nat}
    (hf : b.Front s p i l) : b.HeadOk (b.order i).orderRef where
  lookup := h.ref i hf.live
  found := by
    rw [hf.handle]
    exact h.ne_null hf.live
  handle := by
    have hslot := (h.idFindSlot_live hf.live).1
    show b.arena.HandleOk (b.idFindSlot (b.order i).orderRef).handle
    rw [hslot]
    exact ⟨h.lt_capacity hf.live, hf.live, rfl⟩

/-- An order that has come to rest is found. -/
theorem Rested.trackRestingOk {b' : OrderBook k} {i ref : Nat} {qty price : Int} {s : Side}
    (hr : Rested b b.levelSlots b' i ⟨ref, qty, price, s⟩) (hn : ref ≠ 0) :
    TrackRestingOk b' ref where
  lookup := hn
  found := by
    have hlive := (hr.live i).mpr (Or.inl rfl)
    have href : (b'.order i).orderRef = ref := congrArg OrderView.orderRef hr.self
    intro hnull
    exact (hr.valid.idFind_null_iff hn).mp hnull i hlive href

end OrderBook

namespace SimInv

open ExecutionSimulator OrderBook

variable {k : Nat} {cfg : SimConfig} {sim : ExecutionSimulator k}

theorem subtractOk (h : SimInv cfg sim) (t : TrackTable) (s : Side) (price : Int) :
    t.SubtractOk sim.book s price := fun _ _ => h.book.walkOk s price

/-- A live tracker bears its order's reference. -/
theorem conservationOk (h : SimInv cfg sim) : sim.track.ConservationOk := by
  intro i hi
  have hsome := (live_iff i).mp hi
  obtain ⟨v, hv⟩ := Option.ne_none_iff_exists'.mp hsome
  have hown := (h.mirror.at?_iff i).mp hsome
  have href : (sim.track.tracked i).ref = (sim.book.order i).orderRef :=
    congrArg TrackView.ref ((at?_eq_some.mp hv).2.trans (h.mirror.record_of_some hv).2)
  rw [href]
  exact h.book.ref i hown.1

/-! ## An execution against the head of a level -/

/-- **An execution of what the head has** trips no check and succeeds. -/
theorem reduceAndSyncOk (h : SimInv cfg sim) {s : Side} {p : Int} {i : Nat} {l : List Nat}
    (hf : sim.book.Front s p i l) {take : Int} (hpos : 0 < take) (hle : take ≤ sim.book.rem i)
    (via : Bool) (hh : GenHandle) :
    sim.ReduceAndSyncOk s (sim.book.order i).orderRef p take via hh := by
  have hrem : take ≤ sim.book.remainingOf (sim.book.frontRef s p) := by
    rw [hf.frontRef, h.book.remainingOf_live hf.live]
    exact hle
  have hqty : take ≤ sim.book.qtyAt s p := by
    have htotal := h.book.ahead_add_rem_le hf.live
    have hahead := h.book.ahead_nonneg i
    rw [hf.side, hf.price] at htotal
    omega
  have hcontract := frontContract_of_le h.book hpos hqty hrem
  have hn := h.book.ref i hf.live
  refine ⟨fun _ => hcontract.checks, fun _ => (executeOk_iff h.book _ _).mpr (Or.inr hn), ?_,
    fun _ => hn⟩
  unfold executeVia
  cases via with
  | true => exact hcontract.succeeds
  | false =>
      have htick := (execute_spec h.book hf.live hpos hle).2.1
      rw [if_neg Bool.false_ne_true, htick]
      unfold BookTick.ok
      dsimp only
      split <;> decide

/-- **A slice comes to rest** wherever the order before it has left a slot. -/
theorem replenishOk (h : SimInv cfg sim) {head : Nat} (hn : head ≠ 0)
    (hroom : (sim.book.findHandle head).index = kNullIndex →
      sim.book.arena.liveCount < sim.book.arena.capacity) : sim.ReplenishOk head := by
  intro ib hreg hhidden
  refine ⟨hn, fun hnull => ?_⟩
  have hmem := List.mem_of_find?_eq_some hreg
  have hfound := List.find?_some
    (show sim.icebergs.find? (fun ib => decide (ib.ref = head)) = some ib from hreg)
  have href : ib.ref = head := of_decide_eq_true hfound
  have hib := h.icebergs ib hmem
  have hpos : 0 < ib.hidden := by
    have := hib.hidden
    omega
  have hcl : (sim.book.ladderFor ib.side).claimable ib.priceTicks :=
    (PriceLadder.claimable_iff (h.book.ladder ib.side)).mpr (Or.inl hib.page)
  have hslice := nextSlice_pos hib hpos
  refine ⟨hslice, addOk h.book _ _ _ _, ?_⟩
  rcases add_cases h.book ib.ref ib.side (nextSlice ib) ib.priceTicks with ⟨_, hok, _⟩ | ⟨hno, _⟩
  · exact hok
  · exact absurd ⟨hib.named, hslice, hib.band, hcl, by rw [href]; exact hnull, hroom hnull⟩ hno

/-! ## External flow -/

/-- **The loop of `consume_level`** trips no check: every pass applies something. -/
theorem consumeLoopOk (s : Side) (p q : Int) : ∀ fuel applied (sim : ExecutionSimulator k),
    SimInv cfg sim → (q - applied).toNat ≤ fuel → ConsumeLoopOk cfg s p q fuel applied sim := by
  intro fuel
  induction fuel with
  | zero =>
      intro applied _ _ hfuel
      show q ≤ applied
      omega
  | succ fuel ih =>
      intro applied sim h hfuel hlt
      refine ⟨h.book.frontRefOk s p, fun hne => ?_⟩
      rcases front_cases h.book s p with ⟨_, hzero⟩ | ⟨i, l, hf, _⟩
      · exact absurd hzero hne
      dsimp only
      rw [hf.frontRef, hf.remainingOfHandle]
      have hrem := h.book.pos i hf.live
      have hpos : 0 < min (q - applied) (sim.book.rem i) := by omega
      have hle : min (q - applied) (sim.book.rem i) ≤ sim.book.rem i := by omega
      have he := reduceAndSync_spec h.book h.mirror hf hpos hle true
      refine ⟨hf.headOk h.book, hpos, h.reduceAndSyncOk hf hpos hle true _, ?_, ?_⟩
      · exact (h.executed he).replenishOk (h.book.ref i hf.live)
          (Sweep.room_of_gone h.book hf.live he.book)
      · exact ih _ _ (Sweep.shown_spec (w := { sim, remaining := 0 }) h (h.executed he) hf.live
          he.book).1 (by omega)

/-- Consuming a level trips no check. -/
theorem consumeLevelOk (h : SimInv cfg sim) (s : Side) (p q : Int) :
    sim.ConsumeLevelOk cfg s p q where
  subtract := h.clearSync.subtractOk _ s p
  loop := by
    have hclear := h.clearSync
    obtain ⟨off, hr⟩ := subtractLevel_repositioned hclear.mirror hclear.book s p q false
    exact consumeLoopOk s p q _ _ _ (hclear.repositioned hr) (by omega)
  conservation := (h.consumeLevel s p q).conservationOk

/-- The loop that depletes level after level trips none. -/
theorem depleteLoopOk (s : Side) (scaled : Nat → Nat → Int) :
    ∀ fuel lvl tick rem (sim : ExecutionSimulator k), SimInv cfg sim →
      DepleteLoopOk cfg s scaled fuel lvl tick rem sim := by
  intro fuel
  induction fuel with
  | zero => intro _ _ _ _ _; trivial
  | succ fuel ih =>
      intro lvl tick rem sim h _
      dsimp only
      generalize (if 0 < sim.book.qtyAt s tick then
        min (max 1 (scaled lvl rem)) (sim.book.qtyAt s tick) else 0) = applied
      refine ⟨fun _ => h.consumeLevelOk s tick applied, ih _ _ _ _ ?_⟩
      by_cases happ : 0 < applied
      · rw [if_pos happ]
        exact h.consumeLevel s tick applied
      · rw [if_neg happ]
        exact h

/-- The depletion of one side trips none. -/
theorem applyDepletionOk (h : SimInv cfg sim) (s : Side) (qty : Nat) (scaled : Nat → Nat → Int) :
    sim.ApplyDepletionOk cfg s qty scaled := by
  intro _
  split
  · exact fun _ _ => h.consumeLevelOk _ _ _
  · exact depleteLoopOk s scaled _ _ _ _ _ h

/-- The passing of time trips none. -/
theorem advanceTimeOk (h : SimInv cfg sim) (dtNs drawnBuy drawnSell : Nat)
    (scaled : Side → Nat → Nat → Int) : sim.AdvanceTimeOk cfg dtNs drawnBuy drawnSell scaled := by
  intro _
  dsimp only
  have hclock : SimInv cfg { sim with
      extNow := (sim.extNow + dtNs) % 2 ^ 64
      log := { sim.log with nowHint := (sim.extNow + dtNs) % 2 ^ 64 } } :=
    { book := h.book, mirror := h.mirror, icebergs := h.icebergs, hidden := h.hidden,
      wheel := h.wheel }
  have hbuy := hclock.applyDepletion .buy drawnBuy (scaled .buy)
  exact ⟨hclock.applyDepletionOk _ _ _, hbuy.applyDepletionOk _ _ _,
    (hbuy.applyDepletion .sell drawnSell (scaled .sell)).conservationOk⟩

/-! ## Cancel, replace and the placing of a remainder -/

/-- Only the reference that is none trips a cancel. -/
theorem cancelStrategyOk_iff (h : SimInv cfg sim) (ref : Nat) :
    sim.CancelStrategyOk ref ↔ ref ≠ 0 := by
  refine ⟨fun hc => hc.lookup, fun hn => ⟨hn, fun _ => (removeOk_iff h.book ref).mpr hn, ?_⟩⟩
  intro hidx _
  rcases trackedIndexOf_cases h ref with ⟨hnull, _⟩ | ⟨i, _, _, hh⟩
  · exact absurd hnull hidx
  have hvalid := (remove_spec h.book hh.own.1).1.valid
  rw [hh.ref_eq] at hvalid
  exact hvalid.walkOk _ _

/-- Only the same reference trips a replace. -/
theorem replaceStrategyOk_iff (h : SimInv cfg sim) (orig : Nat) {fresh : Nat}
    (hfresh : cfg.externalRefLimit ≤ fresh ∧ fresh ≠ 0) (qty price : Int) :
    sim.ReplaceStrategyOk cfg orig fresh qty price ↔ orig ≠ 0 := by
  refine ⟨fun hc => hc.lookup, fun hn => ?_⟩
  -- a replace that succeeds leaves a book in which the fresh order rests
  have hrested : sim.trackedIndexOf orig ≠ kNullIndex →
      (sim.book.replace orig fresh qty price).tick.ok →
      (sim.book.replace orig fresh qty price).book.Valid
        ∧ TrackRestingOk (sim.book.replace orig fresh qty price).book fresh := by
    intro hidx hok
    rcases trackedIndexOf_cases h orig with ⟨hnull, _⟩ | ⟨i, _, _, hh⟩
    · exact absurd hnull hidx
    rcases replace_cases h.book hh.own.1 hfresh.2 qty price with
      ⟨_, _, b, _, j, hrest⟩ | ⟨_, hno, _⟩
    · rw [hh.ref_eq] at hrest
      exact ⟨hrest.valid, hrest.trackRestingOk hfresh.2⟩
    · rw [hh.ref_eq] at hno
      exact absurd hok hno
  exact
    { pre := hfresh.1, lookup := hn,
      replace := fun _ => (replaceOk_iff h.book orig fresh qty price).mpr
        (Or.inr (Or.inr ⟨hn, Or.inl hfresh.2⟩)),
      track := fun hidx hok => (hrested hidx hok).2,
      walk := fun hidx hok s _ _ => (hrested hidx hok).1.walkOk _ _ }

/-- Placing a remainder trips no check. -/
theorem finishOk (h : SimInv cfg sim) {order : SimInbound} (hn : order.ref ≠ 0) (remaining : Int) :
    sim.FinishOk order remaining := by
  intro _ _
  refine ⟨addOk h.book _ _ _ _, fun hok => ?_⟩
  rcases add_cases h.book order.ref order.side remaining order.price with
    ⟨_, _, i, hi⟩ | ⟨_, hno, _⟩
  · exact hi.trackRestingOk hn
  · exact absurd hok hno

end SimInv

/-! ## The sweep -/

namespace Sweep

open ExecutionSimulator OrderBook

variable {k : Nat} {cfg : SimConfig} {w : Sweep k}

theorem noteTakeOk (h : SimInv cfg w.sim) (opp : Side) (touch : Int) : w.NoteTakeOk opp touch :=
  fun _ _ _ _ => h.subtractOk _ _ _

/-- Executing against a level's head trips no check. -/
theorem executeHeadOk (h : SimInv cfg w.sim) (hrem : 0 < w.remaining) {s : Side} {p : Int} {i : Nat}
    {l : List Nat} (hf : w.sim.book.Front s p i l) (hh : GenHandle)
    (hhh : hh = w.sim.book.findHandle (w.sim.book.order i).orderRef) :
    w.ExecuteHeadOk cfg s p (w.sim.book.order i).orderRef hh (w.sim.book.rem i) := by
  subst hhh
  have hpos : 0 < min w.remaining (w.sim.book.rem i) := by
    have := h.book.pos i hf.live
    omega
  have hle : min w.remaining (w.sim.book.rem i) ≤ w.sim.book.rem i := by omega
  unfold ExecuteHeadOk
  dsimp only
  generalize min w.remaining (w.sim.book.rem i) = take at *
  have hn := noteTake_spec h s p take
  have hbook := hn.fields.1
  generalize w.noteTake s p take = u at *
  refine ⟨hpos, noteTakeOk h s p, ?_⟩
  rw [← hbook] at hf hle ⊢
  have he := reduceAndSync_spec hn.inv.book hn.inv.mirror hf hpos hle true
  exact ⟨hn.inv.reduceAndSyncOk hf hpos hle true _,
    (hn.inv.executed he).replenishOk (hn.inv.book.ref i hf.live)
      (room_of_gone hn.inv.book hf.live he.book)⟩

/-- Removing a victim trips none. -/
theorem removeVictimOk (h : SimInv cfg w.sim) {s : Side} {p : Int} {i : Nat} {l : List Nat}
    (hf : w.sim.book.Front s p i l) :
    w.RemoveVictimOk s p (w.sim.book.order i).orderRef
      (w.sim.book.findHandle (w.sim.book.order i).orderRef) := by
  refine ⟨(removeOk_iff h.book _).mpr (h.book.ref i hf.live), ?_⟩
  rw [hf.handle]
  exact noteTakeOk (h.withdrawn (withdrawn_spec h.book h.mirror hf.live)) s p

/-- Decrementing one trips none. -/
theorem decrementVictimOk (h : SimInv cfg w.sim) (hrem : 0 < w.remaining) {s : Side} {p : Int}
    {i : Nat} {l : List Nat} (hf : w.sim.book.Front s p i l) :
    w.DecrementVictimOk cfg s p (w.sim.book.order i).orderRef
      (w.sim.book.findHandle (w.sim.book.order i).orderRef) (w.sim.book.rem i) := by
  have hpos : 0 < min (w.sim.book.rem i) w.remaining := by
    have := h.book.pos i hf.live
    omega
  have hle : min (w.sim.book.rem i) w.remaining ≤ w.sim.book.rem i := by omega
  have he := reduceAndSync_spec h.book h.mirror hf hpos hle false
  unfold DecrementVictimOk
  dsimp only
  refine ⟨h.reduceAndSyncOk hf hpos hle false _, noteTakeOk (h.executed he) s p, ?_⟩
  have hn := noteTake_spec (w := { w with sim := _ }) (h.executed he) s p
    (min (w.sim.book.rem i) w.remaining)
  refine hn.inv.replenishOk (h.book.ref i hf.live) ?_
  rw [hn.fields.1]
  exact room_of_gone h.book hf.live he.book

/-- Neither does what the mode makes of a level's head. -/
theorem matchOk (h : SimInv cfg w.sim) (hrem : 0 < w.remaining) {s : Side} {p : Int} {i : Nat}
    {l : List Nat} (hf : w.sim.book.Front s p i l) :
    w.MatchOk cfg s p (w.sim.book.order i).orderRef
      (w.sim.book.findHandle (w.sim.book.order i).orderRef) (w.sim.book.rem i) := by
  unfold MatchOk
  split
  · cases w.sim.stp with
    | none => exact executeHeadOk h hrem hf _ rfl
    | cancelNewest => trivial
    | cancelOldest => exact removeVictimOk h hf
    | decrement => exact decrementVictimOk h hrem hf
  · exact executeHeadOk h hrem hf _ rfl

/-- **A pass of the sweep** trips no check. -/
theorem stepOk (h : SimInv cfg w.sim) (hrem : 0 < w.remaining) (order : SimInbound) :
    w.StepOk cfg order := by
  intro _ htouch _
  refine ⟨h.book.frontRefOk _ _, fun _ => ?_⟩
  obtain ⟨i, l, hf⟩ := front_of_best h.book htouch
  dsimp only
  rw [hf.frontRef, hf.remainingOfHandle]
  exact ⟨hf.headOk h.book, matchOk h hrem hf⟩

/-- **A sweep** trips no check: every pass lowers `Sweep.work`. -/
theorem loopOk (order : SimInbound) : ∀ fuel (w : Sweep k), SimInv cfg w.sim → w.work < fuel →
    LoopOk cfg order fuel w := by
  intro fuel
  induction fuel with
  | zero => intro w _ hlt; exact absurd hlt (Nat.not_lt_zero _)
  | succ fuel ih =>
      intro w h hlt hrem
      refine ⟨stepOk h hrem order, fun w' hs => ?_⟩
      obtain ⟨h', hlower⟩ := step_more h hrem hs
      exact ih w' h' (by omega)

/-- The post-pass trips none. -/
theorem settleOk (h : SimInv cfg w.sim) (opp : Side) : w.SettleOk opp := by
  have hall : ∀ (l : List (Int × Int)) (t : TrackTable), SubtractAllOk w.sim.book opp l t := by
    intro l
    induction l with
    | nil => intro _; trivial
    | cons p l ih => intro t; exact ⟨h.subtractOk t opp p.1, ih _⟩
  exact ⟨fun _ => h.subtractOk _ _ _, hall _ _⟩

end Sweep

/-! ## Decisions -/

namespace SimInv

open ExecutionSimulator OrderBook

variable {k : Nat} {cfg : SimConfig} {sim : ExecutionSimulator k}

/-- **A whole sweep trips no check.** -/
theorem crossOk (h : SimInv cfg sim) (order : SimInbound) (remaining : Int) :
    sim.CrossOk cfg order remaining where
  loop := Sweep.loopOk order _ _ h.clearSync (by rw [Sweep.fuel_eq]; exact Nat.lt_succ_self _)
  settle _ := by
    have hstep : ∀ w w' : Sweep k, SimInv cfg w.sim → True → 0 < w.remaining →
        w.step cfg order = .more w' → True := fun _ _ _ _ _ _ => trivial
    have hstart : SimInv cfg (sim.crossStart remaining).sim := h.clearSync
    have hrun := Sweep.loop_rule hstep (sim.crossStart remaining).fuel (sim.crossStart remaining)
      hstart trivial (by rw [Sweep.fuel_eq]; exact Nat.lt_succ_self _)
    exact Sweep.settleOk hrun.1 _

theorem decideResolvedOk (h : SimInv cfg sim) {order : SimInbound} (hn : order.ref ≠ 0) :
    sim.DecideResolvedOk cfg order := by
  refine ⟨hn, fun _ _ => ?_⟩
  have hdraw : SimInv cfg { sim with log := (sim.log.drawJitter cfg).2 } := h.logged _
  split
  · exact ⟨hdraw.crossOk order order.qty,
      fun _ => ((cross_inv hdraw order order.qty).logged _).finishOk hn _⟩
  · exact hdraw.finishOk hn _

/-- **A decision** trips no check. -/
theorem decideOk (h : SimInv cfg sim) {order : SimInbound} (hn : order.ref ≠ 0) (decisionTs : Nat) :
    sim.DecideOk cfg order decisionTs := by
  intro o ho
  refine (h.logged _).repegHidden.decideResolvedOk ?_
  rw [(resolved_fields ho).1]
  exact hn

/-- A decision trips no check while the heap's children are in range. -/
theorem decideNextOk (h : SimInv cfg sim) (hheap : Scheduler.HeapInv sim.wheel)
    (hn : sim.wheel.heapSize ≤ 2 ^ 31) : sim.DecideNextOk cfg := by
  intro hne
  obtain ⟨hnamed, hrest, _⟩ := Scheduler.popMin_holds h.wheel hne
  have hpop : SimInv cfg { sim with wheel := sim.wheel.popMin.2 } :=
    { book := h.book, mirror := h.mirror, icebergs := h.icebergs, hidden := h.hidden,
      wheel := hrest }
  exact ⟨Scheduler.popOk hheap hn hne, hpop.decideOk hnamed.2 _⟩

end SimInv

/-! ## Runs -/

namespace ExecutionSimulator

variable {k : Nat} {cfg : SimConfig} {sim : ExecutionSimulator k}

/-- What a call needs besides the contract on its arguments: an order of the strategy has room
in the scheduler, and an order that is looked up has a reference. -/
def Answerable (sim : ExecutionSimulator k) (cfg : SimConfig) : SimCall → Prop
  | .submit _ _ => sim.pendingDecisions < cfg.eventCapacity
  | .cancelStrategy ref => ref ≠ 0
  | .replaceStrategy orig _ _ _ => orig ≠ 0
  | _ => True

/-- The scheduler of a run holds a queue of the configured capacity. -/
theorem Reaches.holding {ok : ExecutionSimulator k → SimCall → Prop} (h : Reaches cfg ok sim)
    (hpos : 0 < cfg.eventCapacity) (hcap : cfg.eventCapacity ≤ 2 ^ 31) :
    ∃ q, Holding sim.wheel q ∧ q.capacity = cfg.eventCapacity := by
  have hfollows : ∃ p, Follows cfg sim p := by
    induction h with
    | init => exact ⟨_, .start hpos hcap⟩
    | step _ c _ _ ih => exact ih.elim fun p hp => hp.next c
  obtain ⟨p, hp⟩ := hfollows
  exact ⟨p.queue, hp.holding, hp.capacity⟩

theorem Holding.pushOk_iff {q : TicketQueue.Queue SimEvent} (h : Holding sim.wheel q) :
    sim.wheel.PushOk ↔ sim.pendingDecisions < q.capacity := by
  obtain ⟨H, hR⟩ := h
  obtain ⟨l, hl⟩ := hR.tickets.free
  have hcap : sim.wheel.capacity = q.capacity := hR.cap
  rw [Scheduler.pushOk_iff hl, hcap]
  rfl

end ExecutionSimulator

end Mog
