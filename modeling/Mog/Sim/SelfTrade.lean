import Mog.Sim.Conserve

/-!
# Self-trade prevention

A sweep consults self-trade prevention at the displayed head of the touch only; in the
ledger, whose every entry is the strategy's own, it takes what it finds. As long as no
sweep finds anything there, the two cancelling modes keep the strategy from trading with
itself, and up to the first order of its own a sweep meets it goes as it would without
prevention.
-/

namespace Mog

open QueueSum TrackTable

/-! ## The mode does not matter until it is consulted -/

namespace ExecutionSimulator

variable {k : Nat}

theorem reduceAndSync_setStp (sim : ExecutionSimulator k) (m : StpMode) (cfg : SimConfig) (s : Side)
    (head : Nat) (price take : Int) (via : Bool) (hh : GenHandle) :
    (sim.setStpMode m).reduceAndSync cfg s head price take via hh
      = (sim.reduceAndSync cfg s head price take via hh).setStpMode m := by
  unfold reduceAndSync
  dsimp only [setStpMode]
  by_cases hno : ¬ sim.track.isLive hh.index
      ∨ (if via then (if via then sim.book.executeFront s price take
          else sim.book.execute head take).victim.getD head else head) ≠ head
  · rw [if_pos hno, if_pos hno]
  · rw [if_neg hno, if_neg hno]

theorem replenishIfIceberg_setStp (sim : ExecutionSimulator k) (m : StpMode) (head : Nat) :
    (sim.setStpMode m).replenishIfIceberg head = (sim.replenishIfIceberg head).setStpMode m := by
  have hidx : (sim.setStpMode m).icebergIndexOf head = sim.icebergIndexOf head := rfl
  have hice : (sim.setStpMode m).icebergs = sim.icebergs := rfl
  have hbook : (sim.setStpMode m).book = sim.book := rfl
  unfold replenishIfIceberg
  rw [hidx, hice, hbook]
  cases sim.icebergIndexOf head with
  | none => rfl
  | some idx =>
      dsimp only
      cases sim.icebergs[idx]? with
      | none => rfl
      | some ib =>
          dsimp only
          by_cases hz : ib.hidden = 0
          · rw [if_pos hz, if_pos hz]
          rw [if_neg hz, if_neg hz]
          by_cases hin : (sim.book.findHandle head).index ≠ kNullIndex
          · rw [if_pos hin, if_pos hin]
          · rw [if_neg hin, if_neg hin]
            rfl

end ExecutionSimulator

namespace Sweep

open ExecutionSimulator

variable {k : Nat} {cfg : SimConfig} {w w' : Sweep k} {order : SimInbound}

/-- The sweep in another mode. -/
def withStp (m : StpMode) (w : Sweep k) : Sweep k := { w with sim := w.sim.setStpMode m }

end Sweep

def SweepStep.withStp {k : Nat} (m : StpMode) : SweepStep k → SweepStep k
  | .more w => .more (w.withStp m)
  | .leave => .leave
  | .stpStop => .stpStop

namespace Sweep

open ExecutionSimulator

variable {k : Nat} {cfg : SimConfig} {w w' : Sweep k} {order : SimInbound}

theorem noteTake_withStp (m : StpMode) (w : Sweep k) (opp : Side) (touch qty : Int) :
    (w.withStp m).noteTake opp touch qty = (w.noteTake opp touch qty).withStp m := by
  have htouched : (w.withStp m).touched = w.touched := rfl
  unfold noteTake
  rw [htouched]
  by_cases hany : (w.touched.any fun p => p.1 = touch) = true
  · rw [if_pos hany, if_pos hany]
    rfl
  rw [if_neg hany, if_neg hany]
  by_cases hlen : w.touched.length < 8
  · rw [if_pos hlen, if_pos hlen]
    rfl
  rw [if_neg hlen, if_neg hlen]
  have hsim := apply_ite (fun s : ExecutionSimulator k => s.setStpMode m)
    (w.hasPendingOverflow ∧ w.pendingOverflow ≠ touch)
    { w.sim with
      track := w.sim.track.subtractLevel w.sim.book opp w.pendingOverflow w.pendingOverflowTake true }
    w.sim
  dsimp only [withStp]
  rw [hsim]
  rfl

theorem matchHead_withStp (m : StpMode) (w : Sweep k) (cfg : SimConfig) (opp : Side) (touch : Int)
    (head : Nat) (hh : GenHandle) (take : Int) :
    (w.withStp m).matchHead cfg opp touch head hh take
      = (w.matchHead cfg opp touch head hh take).withStp m := by
  unfold matchHead
  rw [noteTake_withStp]
  generalize w.noteTake opp touch take = u
  have h1 := reduceAndSync_setStp u.sim m cfg opp head touch take true hh
  have h2 := replenishIfIceberg_setStp (u.sim.reduceAndSync cfg opp head touch take true hh) m head
  dsimp only [withStp]
  rw [h1, h2]
  rfl

/-- The pass meets a displayed order of the strategy. -/
def MeetsOwn (limit : Nat) (order : SimInbound) (w : Sweep k) : Prop :=
  ∃ i l, AtTouch order w i l ∧ w.sim.book.Own limit i

theorem executeSlot_withStp (m : StpMode) (w : Sweep k) (cfg : SimConfig) (order : SimInbound)
    (i : Nat) : (w.withStp m).executeSlot cfg order i = (w.executeSlot cfg order i).withStp m := by
  rw [executeSlot_eq, executeSlot_eq]
  have hm : (w.withStp m).matchSlot cfg order i = (w.matchSlot cfg order i).withStp m :=
    matchHead_withStp m w cfg _ _ _ _ _
  rw [hm]
  have hrem : ((w.matchSlot cfg order i).withStp m).remaining
      = (w.matchSlot cfg order i).remaining := rfl
  rw [hrem]
  by_cases hpos : 0 < (w.matchSlot cfg order i).remaining
  · rw [if_pos hpos, if_pos hpos]
    rfl
  · rw [if_neg hpos, if_neg hpos]

/-- **Until it meets an order of the strategy, a sweep goes as in any other mode.** -/
theorem step_withStp (h : SimInv cfg w.sim) (hno : ¬ w.MeetsOwn cfg.externalRefLimit order)
    (m : StpMode) : (w.withStp m).step cfg order = (w.step cfg order).withStp m := by
  have hbook : (w.withStp m).sim.book = w.sim.book := rfl
  have hbest : (w.withStp m).sim.bestHiddenPrice order.side.opp
      = w.sim.bestHiddenPrice order.side.opp := rfl
  have htrack : (w.withStp m).sim.track = w.sim.track := rfl
  have hcase := step_cases order h
  generalize w.step cfg order = r at *
  unfold step
  dsimp only
  rw [hbest, hbook, htrack]
  cases hcase with
  | tap hbetter hbound =>
      rw [if_pos hbetter, if_neg hbound]
      rfl
  | leaveHidden hbetter hbound =>
      rw [if_pos hbetter, if_pos hbound]
      rfl
  | leave hahead hbound =>
      rw [if_neg hahead]
      by_cases htick : w.sim.book.best order.side.opp = kNoTick
      · rw [if_pos htick]
        rfl
      · rw [if_neg htick, if_pos (hbound.resolve_left htick)]
        rfl
  | execute i l ht hfree =>
      have hown : ¬ w.sim.track.isLive
          (w.sim.book.findHandle (w.sim.book.order i).orderRef).index := fun hl =>
        hno ⟨i, l, ht, (ht.isLive_iff h).mp hl⟩
      rw [if_neg ht.ahead, if_neg ht.best, if_neg ht.bound, ht.front.frontRef,
        if_neg (h.book.ref i ht.front.live), ht.front.remainingOfHandle, if_neg hown]
      exact congrArg SweepStep.more (executeSlot_withStp m w cfg order i)
  | stop i l ht hown hstp => exact absurd ⟨i, l, ht, hown⟩ hno
  | remove i l ht hown hstp => exact absurd ⟨i, l, ht, hown⟩ hno
  | decrement i l ht hown hstp => exact absurd ⟨i, l, ht, hown⟩ hno

/-- The pass after a stretch that meets no order of the strategy is the same in any mode. -/
theorem passes_withStp (m : StpMode) : ∀ fuel (w : Sweep k), SimInv cfg w.sim → ∀ pre u,
    pre ++ [u] <+: passes cfg order fuel w →
    (∀ v ∈ pre, ¬ v.MeetsOwn cfg.externalRefLimit order) →
    (pre ++ [u]).map (withStp m) <+: passes cfg order fuel (w.withStp m) := by
  intro fuel
  induction fuel with
  | zero =>
      intro w _ pre u hpre
      exact absurd (List.prefix_nil.mp hpre) (by simp)
  | succ fuel ih =>
      intro w h pre u hpre hno
      rw [passes] at hpre ⊢
      by_cases hrem : w.remaining ≤ 0
      · rw [if_pos hrem] at hpre
        exact absurd (List.prefix_nil.mp hpre) (by simp)
      have hrem' : ¬ (w.withStp m).remaining ≤ 0 := hrem
      rw [if_neg hrem] at hpre
      rw [if_neg hrem']
      cases pre with
      | nil =>
          -- both start with the pass they are at
          have hu : u = w := by
            cases hs : w.step cfg order <;> rw [hs] at hpre <;>
              exact (List.cons_prefix_cons.mp hpre).1
          rw [hu]
          cases (w.withStp m).step cfg order with
          | more w' => exact List.cons_prefix_cons.mpr ⟨rfl, List.nil_prefix⟩
          | leave => exact List.prefix_refl _
          | stpStop => exact List.prefix_refl _
      | cons v pre =>
          have hv : v = w := by
            cases hs : w.step cfg order <;> rw [hs] at hpre <;>
              exact (List.cons_prefix_cons.mp hpre).1
          have hw : ¬ w.MeetsOwn cfg.externalRefLimit order := hv ▸ hno v List.mem_cons_self
          have hnext := step_withStp h hw m
          cases hs : w.step cfg order with
          | more w' =>
              rw [hs] at hpre hnext
              rw [hnext]
              have htail := (List.cons_prefix_cons.mp hpre).2
              have hrest := ih w' (step_more h (by omega) hs).1 pre u htail
                (fun x hx => hno x (List.mem_cons_of_mem _ hx))
              exact List.cons_prefix_cons.mpr ⟨congrArg (withStp m) hv, hrest⟩
          | leave =>
              rw [hs] at hpre
              exact absurd (List.prefix_nil.mp (List.cons_prefix_cons.mp hpre).2) (by simp)
          | stpStop =>
              rw [hs] at hpre
              exact absurd (List.prefix_nil.mp (List.cons_prefix_cons.mp hpre).2) (by simp)

/-! ## From a pass to the end of its sweep -/

theorem loop_moves : ∀ fuel (w : Sweep k), SimInv cfg w.sim →
    Moves cfg order w (w.loop cfg order fuel).1 := by
  intro fuel
  induction fuel with
  | zero => exact fun w _ => .refl
  | succ fuel ih =>
      intro w h
      rw [loop]
      by_cases hrem : w.remaining ≤ 0
      · rw [if_pos hrem]
      rw [if_neg hrem]
      cases hs : w.step cfg order with
      | more w' =>
          have hstep := step_moves h (by omega) hs
          exact hstep.trans (ih w' (hstep.exchanges h).2)
      | leave => exact .refl
      | stpStop => exact .refl

/-- A sweep comes to each of its passes, and goes on from there. -/
theorem mem_passes {u : Sweep k} : ∀ fuel (w : Sweep k), SimInv cfg w.sim →
    u ∈ passes cfg order fuel w → Moves cfg order w u ∧ SimInv cfg u.sim ∧ 0 < u.remaining
      ∧ ∃ n, w.loop cfg order fuel = u.loop cfg order (n + 1) := by
  intro fuel
  induction fuel with
  | zero => exact fun w _ hu => absurd hu List.not_mem_nil
  | succ fuel ih =>
      intro w h hu
      have hself : 0 < w.remaining → Moves cfg order w w ∧ SimInv cfg w.sim ∧ 0 < w.remaining
          ∧ ∃ n, w.loop cfg order (fuel + 1) = w.loop cfg order (n + 1) :=
        fun hr => ⟨.refl, h, hr, fuel, rfl⟩
      rw [passes] at hu
      by_cases hrem : w.remaining ≤ 0
      · rw [if_pos hrem] at hu
        exact absurd hu List.not_mem_nil
      rw [if_neg hrem] at hu
      cases hs : w.step cfg order with
      | more w' =>
          rw [hs] at hu
          rcases List.mem_cons.mp hu with rfl | hu
          · exact hself (by omega)
          · have hstep := step_moves h (by omega) hs
            obtain ⟨hm, hinv, hpos, n, hn⟩ := ih w' (hstep.exchanges h).2 hu
            refine ⟨hstep.trans hm, hinv, hpos, n, ?_⟩
            rw [← hn, loop, if_neg hrem, hs]
      | leave =>
          rw [hs] at hu
          cases List.mem_singleton.mp hu
          exact hself (by omega)
      | stpStop =>
          rw [hs] at hu
          cases List.mem_singleton.mp hu
          exact hself (by omega)

end Sweep

/-! ## Nothing of the strategy's is executed -/

/-- A tap of a ledger without an entry at its price takes nothing. -/
theorem tapLoop_nothing {cfg : SimConfig} {s : Side} {p : Int} (l : List Hidden) : ∀ t : Tap,
    (∀ e ∈ l, ¬ (e.side = s ∧ e.priceTicks = p)) → tapLoop cfg s p l t = (l, t) := by
  induction l with
  | nil => exact fun t _ => rfl
  | cons a l ih =>
      intro t hno
      have ha := hno a List.mem_cons_self
      rw [tapLoop]
      by_cases hrem : t.remaining ≤ 0
      · rw [if_pos hrem]
      · rw [if_neg hrem, if_pos (not_and_or.mp ha)]
        rw [ih t (fun e he => hno e (List.mem_cons_of_mem _ he))]

namespace ExecutionSimulator

variable {k : Nat} {sim sim' sim'' : ExecutionSimulator k} {limit : Nat}

/-- Between two states external orders only have been executed, and no fill reported. -/
def ExternalOnly (limit : Nat) (sim sim' : ExecutionSimulator k) : Prop :=
  ∃ es, sim'.log.executions = sim.log.executions ++ es ∧ (∀ e ∈ es, e.ref < limit)
    ∧ sim'.log.reports = sim.log.reports

theorem ExternalOnly.still (hx : sim'.log.executions = sim.log.executions)
    (hr : sim'.log.reports = sim.log.reports) : ExternalOnly limit sim sim' :=
  ⟨[], by rw [hx, List.append_nil], fun _ he => absurd he List.not_mem_nil, hr⟩

theorem ExternalOnly.trans (h : ExternalOnly limit sim sim') (h' : ExternalOnly limit sim' sim'') :
    ExternalOnly limit sim sim'' := by
  obtain ⟨es, hx, hext, hr⟩ := h
  obtain ⟨es', hx', hext', hr'⟩ := h'
  refine ⟨es ++ es', by rw [hx', hx, List.append_assoc], fun e he => ?_, hr'.trans hr⟩
  exact (List.mem_append.mp he).elim (hext e) (hext' e)

/-- The strategy's orders are kept from each other by cancelling one of the two. -/
def Cancelling (m : StpMode) : Prop := m = .cancelNewest ∨ m = .cancelOldest

end ExecutionSimulator

namespace Sweep

open ExecutionSimulator

variable {k : Nat} {cfg : SimConfig} {w w' : Sweep k} {order : SimInbound}

/-- If the pass turns to the ledger, it finds nothing at its price. -/
def Tapless (cfg : SimConfig) (order : SimInbound) (w : Sweep k) : Prop :=
  ∀ u p, w.handOff cfg order = some (u, p) →
    ∀ e ∈ u.sim.hidden, ¬ (e.side = order.side.opp ∧ e.priceTicks = p)

theorem tap_nothing {opp : Side} {p : Int}
    (hno : ∀ e ∈ w.sim.hidden, ¬ (e.side = opp ∧ e.priceTicks = p)) :
    (w.tap cfg opp p).sim.log = w.sim.log := by
  unfold tap tapHidden
  dsimp only
  rw [tapLoop_nothing _ _ hno]

/-- **A pass that finds nothing in the ledger executes external orders only**, in a cancelling
mode. -/
theorem step_external (h : SimInv cfg w.sim) (hmode : Cancelling w.sim.stp) (hrem : 0 < w.remaining)
    (ht : Tapless cfg order w) (hs : w.step cfg order = .more w') :
    ExternalOnly cfg.externalRefLimit w.sim w'.sim := by
  have hcase := step_cases order h
  rw [hs] at hcase
  cases hcase with
  | tap hbetter hbound =>
      have hlog : (w.tap cfg order.side.opp (w.sim.bestHiddenPrice order.side.opp)).sim.log
          = w.sim.log := tap_nothing (ht _ _ (handOff_better hbetter hbound))
      exact .still (by rw [hlog]) (by rw [hlog])
  | execute i l hat hfree =>
      have hext : (w.sim.book.order i).orderRef < cfg.externalRefLimit := by
        by_contra hown
        have hnone := hfree ⟨hat.front.live, by omega⟩
        rcases hmode with hm | hm <;> exact absurd (hnone.symm.trans hm) (by decide)
      have hhand := handOff_execute h hat hfree
      obtain ⟨mid, hhit⟩ := matchSlot_hit h hrem hat
      have hlog : (w.matchSlot cfg order i).sim.log
          = w.sim.log.execute (w.sim.executionOf i (min w.remaining (w.sim.book.rem i))) := by
        rw [(Shown.fields hhit.shown).2.1, hhit.log]
        rcases FillLog.displayedFill_cases w.sim.log cfg
          (w.sim.executionOf i (min w.remaining (w.sim.book.rem i))) with ⟨_, heq⟩ | ⟨hown, _⟩
        · exact heq
        · exact absurd hown (Nat.not_le_of_lt hext)
      have hmatch : ExternalOnly cfg.externalRefLimit w.sim (w.matchSlot cfg order i).sim := by
        refine ⟨[w.sim.executionOf i (min w.remaining (w.sim.book.rem i))], by rw [hlog]; rfl,
          fun e he => ?_, by rw [hlog]; rfl⟩
        rw [List.mem_singleton.mp he]
        exact hext
      rw [executeSlot_eq]
      by_cases hpos : 0 < (w.matchSlot cfg order i).remaining
      · rw [if_pos hpos] at hhand ⊢
        have htap : ((w.matchSlot cfg order i).tap cfg order.side.opp
            (w.sim.book.best order.side.opp)).sim.log = (w.matchSlot cfg order i).sim.log :=
          tap_nothing (ht _ _ hhand)
        exact hmatch.trans (.still (by rw [htap]) (by rw [htap]))
      · rw [if_neg hpos]
        exact hmatch
  | remove i l hat hown hstp =>
      have hrm := removeVictim_removed h hat.front
      exact .still (congrArg FillLog.executions hrm.log) (congrArg FillLog.reports hrm.log)
  | decrement i l hat hown hstp =>
      rcases hmode with hm | hm <;> exact absurd (hstp.symm.trans hm) (by decide)

/-- **A sweep that finds nothing in the ledger executes external orders only.** -/
theorem loop_external : ∀ fuel (w : Sweep k), SimInv cfg w.sim → Cancelling w.sim.stp →
    (∀ u ∈ passes cfg order fuel w, Tapless cfg order u) →
    ExternalOnly cfg.externalRefLimit w.sim (w.loop cfg order fuel).1.sim := by
  intro fuel
  induction fuel with
  | zero => exact fun w _ _ _ => .still rfl rfl
  | succ fuel ih =>
      intro w h hmode ht
      rw [passes] at ht
      rw [loop]
      by_cases hrem : w.remaining ≤ 0
      · rw [if_pos hrem]
        exact .still rfl rfl
      rw [if_neg hrem] at ht ⊢
      cases hs : w.step cfg order with
      | more w' =>
          rw [hs] at ht
          have hm := step_moves h (by omega) hs
          have hfirst := step_external h hmode (by omega) (ht w List.mem_cons_self) hs
          refine hfirst.trans (ih w' (hm.exchanges h).2 ?_
            (fun u hu => ht u (List.mem_cons_of_mem _ hu)))
          rw [hm.modes.2]
          exact hmode
      | leave => exact .still rfl rfl
      | stpStop => exact .still rfl rfl

/-- At an order of the strategy's own the mode decides. -/
theorem step_own (h : SimInv cfg w.sim) {i : Nat} {l : List Nat} (ht : AtTouch order w i l)
    (hown : w.sim.book.Own cfg.externalRefLimit i) :
    (w.sim.stp = .cancelNewest → w.step cfg order = .stpStop)
      ∧ (w.sim.stp = .cancelOldest → w.step cfg order = .more (w.removeSlot order i)) := by
  have hlive := (ht.isLive_iff h).mpr hown
  unfold step
  dsimp only
  rw [if_neg ht.ahead, if_neg ht.best, if_neg ht.bound, ht.front.frontRef,
    if_neg (h.book.ref i ht.front.live), ht.front.remainingOfHandle, if_pos hlive]
  exact ⟨fun hm => by rw [hm], fun hm => by rw [hm]; rfl⟩

end Sweep

namespace ExecutionSimulator

open Sweep

variable {k : Nat} {cfg : SimConfig} {sim sim' mid : ExecutionSimulator k} {order o : SimInbound}
  {ts : Nat}

/-! ## Decisions -/

/-- The sweep of the order, if it sweeps, finds nothing in the ledger. -/
def TapsNothing (sim : ExecutionSimulator k) (cfg : SimConfig) (order : SimInbound) (ts : Nat) :
    Prop :=
  ∀ o, sim.Sweeps order o → ∀ w ∈ sim.sweepPasses cfg o ts, Tapless cfg o w

/-- The decision has cancelled what was left when its sweep stood at `w`. -/
structure CancelledAt (sim sim' : ExecutionSimulator k) (o : SimInbound) (w : Sweep k) : Prop where
  decision : ∃ d, sim'.log.decisions = sim.log.decisions ++ [d] ∧ d.kind = .rejectedStp
    ∧ d.filledQty = toU32 w.filled ∧ d.cancelledQty = toU32 (o.qty - w.filled)
  book : sim'.book = w.sim.book
  hidden : sim'.hidden = w.sim.hidden
  executions : sim'.log.executions = w.sim.log.executions

/-- Self-trade prevention at the decision of an order: external orders only are executed; the
newest is cancelled at the first of the strategy's orders it meets, or each that it meets is
removed; and up to the first one it meets the sweep goes as it would without prevention. -/
structure StpKept (cfg : SimConfig) (sim : ExecutionSimulator k) (order : SimInbound) (ts : Nat) :
    Prop where
  external : ExternalOnly cfg.externalRefLimit sim (sim.decide cfg order ts)
  stopped : sim.stp = .cancelNewest → ∀ o, sim.Sweeps order o → ∀ w ∈ sim.sweepPasses cfg o ts,
    w.MeetsOwn cfg.externalRefLimit o → CancelledAt sim (sim.decide cfg order ts) o w
  removed : sim.stp = .cancelOldest → ∀ o, sim.Sweeps order o → ∀ w ∈ sim.sweepPasses cfg o ts,
    ∀ i l, AtTouch o w i l → w.sim.book.Own cfg.externalRefLimit i →
      ¬ (sim.decide cfg order ts).InBook (w.sim.book.order i).orderRef
  same : ∀ o, sim.Sweeps order o → ∀ pre u, pre ++ [u] <+: sim.sweepPasses cfg o ts →
    (∀ v ∈ pre, ¬ v.MeetsOwn cfg.externalRefLimit o) →
      (pre ++ [u]).map (withStp .none) <+: (sim.setStpMode .none).sweepPasses cfg o ts

/-- What rests once a remainder has found its place rested before, or is the remainder. -/
theorem FinishCase.inBook {remaining : Int} {out : SimDecision} {vis ref : Nat}
    (hf : FinishCase mid o remaining out vis sim') (hne : ref ≠ o.ref) (h : sim'.InBook ref) :
    mid.InBook ref := by
  cases hf with
  | refused => exact h
  | ledger => exact h
  | cancelled => exact h
  | displayed i b hrests hshown hadd hr =>
      obtain ⟨j, hj, href⟩ := h
      rcases hr.back hj with ⟨_, he, _⟩ | ⟨hl, he, _⟩
      · exact absurd (href.symm.trans he) hne
      · exact ⟨j, hl, he.symm.trans href⟩

/-- A decision that does not sweep executes nothing. -/
theorem unswept_external (h : SimInv cfg sim) (hno : ∀ o, ¬ sim.Sweeps order o) (ts : Nat) :
    ExternalOnly cfg.externalRefLimit sim (sim.decide cfg order ts) := by
  have hd := decide_cases h order ts
  generalize sim.decide cfg order ts = r at hd
  cases hd with
  | unpriced => exact .still rfl rfl
  | duplicate => exact .still rfl rfl
  | wouldCross => exact .still rfl rfl
  | placed o vis _ hr hfree hpost hnot hf => exact .still hf.placed.executions hf.placed.reports
  | stopped o vis w hr hfree htype hcross hpos =>
      obtain ⟨_, _, _, ht⟩ := resolved_fields hr
      exact absurd ⟨hr, hfree, ht ▸ htype, hcross, hpos⟩ (hno o)
  | swept o vis w _ hr hfree htype hcross hpos =>
      obtain ⟨_, _, _, ht⟩ := resolved_fields hr
      exact absurd ⟨hr, hfree, ht ▸ htype, hcross, hpos⟩ (hno o)

/-- The sweep that a decision has made, from its log. -/
theorem SweptCase.log {w : Sweep k} (hc : SweptCase cfg sim o ts w sim') :
    sim'.log.executions = w.sim.log.executions ∧ sim'.log.reports = w.sim.log.reports
      ∧ w = ((sim.opened cfg ts).crossLoop cfg o o.qty).1 := by
  cases hc with
  | stopped vis hloop => exact ⟨rfl, rfl, (congrArg Prod.fst hloop).symm⟩
  | done vis _ hloop hend hf =>
      exact ⟨hf.placed.executions, hf.placed.reports, (congrArg Prod.fst hloop).symm⟩

/-- **In a cancelling mode a decision executes external orders only**, unless its sweep finds
something in the ledger. -/
theorem decide_external (h : SimInv cfg sim) (hmode : Cancelling sim.stp)
    (ht : sim.TapsNothing cfg order ts) :
    ExternalOnly cfg.externalRefLimit sim (sim.decide cfg order ts) := by
  by_cases hex : ∃ o, sim.Sweeps order o
  · obtain ⟨o, hs⟩ := hex
    have hopen := Exchanges.inv h (opened_exchanges h ts)
    obtain ⟨w, hw, hm, hcase⟩ := decide_swept h hs ts
    obtain ⟨hx, hr, hlast⟩ := hcase.log
    have hloop : ExternalOnly cfg.externalRefLimit ((sim.opened cfg ts).crossStart o.qty).sim
        (((sim.opened cfg ts).crossStart o.qty).loop cfg o
          ((sim.opened cfg ts).crossStart o.qty).fuel).1.sim :=
      loop_external _ _ hopen.clearSync hmode (ht o hs)
    change ExternalOnly cfg.externalRefLimit _ ((sim.opened cfg ts).crossLoop cfg o o.qty).1.sim
      at hloop
    rw [← hlast] at hloop
    obtain ⟨es, hes, hext, hrep⟩ := hloop
    exact ⟨es, hx.trans hes, hext, hr.trans hrep⟩
  · exact unswept_external h (fun o hs => hex ⟨o, hs⟩) ts

/-- **Cancel-newest stops at the first of the strategy's orders** that it meets. -/
theorem decide_stopped (h : SimInv cfg sim) (hmode : sim.stp = .cancelNewest)
    (hs : sim.Sweeps order o) {w : Sweep k} (hw : w ∈ sim.sweepPasses cfg o ts)
    (hmeet : w.MeetsOwn cfg.externalRefLimit o) :
    CancelledAt sim (sim.decide cfg order ts) o w := by
  have hopen := Exchanges.inv h (opened_exchanges h ts)
  obtain ⟨hm, hinv, hpos, _⟩ := mem_passes _ _ hopen.clearSync hw
  obtain ⟨i, l, hat, hown⟩ := hmeet
  have hstp : w.sim.stp = .cancelNewest := hm.modes.2.trans hmode
  have hstop := (step_own hinv hat hown).1 hstp
  have hloop := ((end_mem_passes cfg o w .stpStop _ _).mp ⟨hw, by rw [hstop]; rfl⟩).1
  obtain ⟨u, _, hmu, hcase⟩ := decide_swept h hs ts
  have hdec : w.sim.log.decisions = sim.log.decisions := (hm.exchanges hopen.clearSync).1.decisions
  generalize sim.decide cfg order ts = r at hcase
  cases hcase with
  | stopped vis hloop' =>
      cases (Prod.mk.inj (hloop.symm.trans hloop')).1
      exact
        { decision := ⟨_, congrArg (fun l => l ++ [_]) hdec, rfl, rfl, rfl⟩, book := rfl,
          hidden := rfl, executions := rfl }
  | done vis _ hloop' => exact absurd (hloop.symm.trans hloop') (by simp)

/-- **Cancel-oldest removes each of the strategy's orders** that it meets. -/
theorem decide_removed (h : SimInv cfg sim) (hn : order.Named cfg.externalRefLimit)
    (hmode : sim.stp = .cancelOldest) (hs : sim.Sweeps order o) {w : Sweep k}
    (hw : w ∈ sim.sweepPasses cfg o ts) {i : Nat} {l : List Nat} (hat : AtTouch o w i l)
    (hown : w.sim.book.Own cfg.externalRefLimit i) :
    ¬ (sim.decide cfg order ts).InBook (w.sim.book.order i).orderRef := by
  have hopen := Exchanges.inv h (opened_exchanges h ts)
  obtain ⟨hm, hinv, hpos, n, hn'⟩ := mem_passes _ _ hopen.clearSync hw
  have hstp : w.sim.stp = .cancelOldest := hm.modes.2.trans hmode
  have hstep := (step_own hinv hat hown).2 hstp
  have hrm : Removed cfg w (w.removeSlot o i) i := removeVictim_removed hinv hat.front
  -- the victim has left, and no sweep brings it back
  have hgone : ¬ (w.removeSlot o i).sim.InBook (w.sim.book.order i).orderRef := by
    rintro ⟨j, hj, href⟩
    obtain ⟨hl, hno⟩ := (hrm.book.live j).mp hj
    have hname := (hrm.book.kept hj).1
    exact hno ⟨hinv.book.ref_inj hl hown.1 (hname.symm.trans href), rfl⟩
  have hend : (sim.opened cfg ts).crossLoop cfg o o.qty = (w.removeSlot o i).loop cfg o n := by
    refine hn'.trans ?_
    rw [loop, if_neg (by omega), hstep]
  have hlast : ¬ ((sim.opened cfg ts).crossLoop cfg o o.qty).1.sim.InBook
      (w.sim.book.order i).orderRef := by
    rw [hend]
    intro hin
    have hmv : Moves cfg o (w.removeSlot o i) ((w.removeSlot o i).loop cfg o n).1 :=
      loop_moves n _ hrm.inv
    exact hgone ((Trades.refs hrm.inv (Exchanges.trades (hmv.exchanges hrm.inv).1 hrm.inv)).1 _
      hown.2 hin)
  -- nor is the order decided its namesake
  have hne : (w.sim.book.order i).orderRef ≠ o.ref := by
    intro he
    have hhere : w.sim.InBook o.ref := ⟨i, hown.1, he⟩
    have hthere := (Trades.refs hopen.clearSync
      (Exchanges.trades (hm.exchanges hopen.clearSync).1 hopen.clearSync)).1 _
      (he ▸ hown.2) hhere
    obtain ⟨j, hj, href⟩ := hthere
    rw [(resolved_fields hs.1).1] at href
    exact (h.book.idFind_null_iff hn.2).mp hs.2.1 j hj href
  obtain ⟨u, _, _, hcase⟩ := decide_swept h hs ts
  generalize sim.decide cfg order ts = r at hcase
  cases hcase with
  | stopped vis hloop =>
      rw [hloop] at hlast
      exact hlast
  | done vis _ hloop hend hf =>
      rw [hloop] at hlast
      exact fun hin => hlast (hf.inBook hne hin)

/-- What a sweep finds in the ledger is all that self-trade prevention misses. -/
theorem decide_stpKept (h : SimInv cfg sim) (hn : order.Named cfg.externalRefLimit)
    (hmode : Cancelling sim.stp) (ht : sim.TapsNothing cfg order ts) :
    StpKept cfg sim order ts where
  external := decide_external h hmode ht
  stopped hm o hs w hw hmeet := decide_stopped h hm hs hw hmeet
  removed hm o hs w hw i l hat hown := decide_removed h hn hm hs hw hat hown
  same o hs pre u hpre hno := by
    have hopen := Exchanges.inv h (opened_exchanges h ts)
    exact passes_withStp .none _ _ hopen.clearSync pre u hpre hno

/-! ## Whole runs -/

/-- The calls of external flow. -/
def SimCall.IsFlow : SimCall → Prop
  | .applyExternal _ _ _ => True
  | .advanceTime _ _ _ _ => True
  | _ => False

instance : (c : SimCall) → Decidable c.IsFlow
  | .applyExternal _ _ _ => .isTrue trivial
  | .advanceTime _ _ _ _ => .isTrue trivial
  | .seedExternal _ _ _ _ => .isFalse id
  | .seedIceberg _ => .isFalse id
  | .submit _ _ => .isFalse id
  | .decideNext => .isFalse id
  | .cancelStrategy _ => .isFalse id
  | .replaceStrategy _ _ _ _ => .isFalse id
  | .setHalted _ => .isFalse id
  | .setStpMode _ => .isFalse id

/-- A run whose calls meet `ok`, with the fill reports that external flow has emitted in it. -/
inductive FlowReports (cfg : SimConfig) (ok : ExecutionSimulator k → SimCall → Prop) :
    ExecutionSimulator k → List SimFillReport → Prop where
  | init : FlowReports cfg ok (init cfg) []
  | step {sim : ExecutionSimulator k} {rs rs' : List SimFillReport} (h : FlowReports cfg ok sim rs)
      (c : SimCall) (hl : c.Legal cfg.externalRefLimit) (hok : ok sim c)
      (hrs : rs' = rs ++ if c.IsFlow then
        (sim.call cfg c).log.reports.drop sim.log.reports.length else []) :
      FlowReports cfg ok (sim.call cfg c) rs'

theorem FlowReports.reaches {ok : ExecutionSimulator k → SimCall → Prop} {rs : List SimFillReport}
    (h : FlowReports cfg ok sim rs) : Reaches cfg ok sim := by
  induction h with
  | init => exact .init
  | step _ c hl hok _ ih => exact ih.step c hl hok

/-- The state that the next decision is taken in. -/
def popped (sim : ExecutionSimulator k) : ExecutionSimulator k :=
  { sim with wheel := sim.wheel.popMin.2 }

/-- Each decision is taken in a cancelling mode, and its sweep finds nothing in the ledger. -/
def StpSafe (cfg : SimConfig) (sim : ExecutionSimulator k) : SimCall → Prop
  | .decideNext => ¬ sim.wheel.empty → Cancelling sim.stp
      ∧ sim.popped.TapsNothing cfg sim.wheel.popMin.1.order sim.wheel.popMin.1.visibleTs
  | _ => True

/-- Reports are only ever added. -/
theorem Exchange.reports_grow (h : Exchange cfg sim sim') :
    sim.log.reports <+: sim'.log.reports := by
  cases h with
  | idle h => rw [h.log.reports]
  | repeg h => rw [h]; exact List.prefix_refl _
  | fill i take mid hf hs =>
      rw [(Shown.fields hs).2.1, hf.log]
      rcases FillLog.displayedFill_cases sim.log cfg (sim.executionOf i take) with
        ⟨_, heq⟩ | ⟨_, vis, heq⟩
      · rw [heq]
        exact List.prefix_refl _
      · rw [heq]
        exact List.prefix_append _ _
  | withdraw i _ h => rw [h.log]
  | tap t e kept l h =>
      rw [h.after, ← h.log]
      exact List.prefix_append _ _

theorem Exchanges.reports_grow (h : Exchanges cfg sim sim') :
    sim.log.reports <+: sim'.log.reports := by
  induction h with
  | refl => exact List.prefix_refl _
  | tail _ hb ih => exact ih.trans hb.1.reports_grow

/-- In a safe run, what is reported is what external flow has emitted. -/
theorem call_reports {c : SimCall} (hinv : SimInv cfg sim) (hl : c.Legal cfg.externalRefLimit)
    (hok : StpSafe cfg sim c) : (sim.call cfg c).log.reports = sim.log.reports
      ++ if c.IsFlow then (sim.call cfg c).log.reports.drop sim.log.reports.length else [] := by
  have hflow : Exchanges cfg sim (sim.call cfg c) → c.IsFlow →
      (sim.call cfg c).log.reports = sim.log.reports
        ++ if c.IsFlow then (sim.call cfg c).log.reports.drop sim.log.reports.length else [] := by
    intro ht hf
    rw [if_pos hf]
    exact (List.prefix_iff_eq_append.mp ht.reports_grow).symm
  have hnone : ¬ c.IsFlow → (sim.call cfg c).log.reports = sim.log.reports →
      (sim.call cfg c).log.reports = sim.log.reports
        ++ if c.IsFlow then (sim.call cfg c).log.reports.drop sim.log.reports.length else [] := by
    intro hno heq
    rw [if_neg hno, List.append_nil, heq]
  cases c with
  | applyExternal s price qty => exact hflow (applyExternal_exchanges hinv s price qty) trivial
  | advanceTime dtNs drawnBuy drawnSell scaled =>
      exact hflow (advanceTime_exchanges hinv dtNs drawnBuy drawnSell scaled) trivial
  | seedExternal | submit | setHalted | setStpMode => exact hnone id rfl
  | seedIceberg spec =>
      refine hnone id ?_
      rcases seedIceberg_cases hinv spec with ⟨_, _, i, b, _, heq⟩ | ⟨_, heq⟩
      · rw [call, heq]
      · rw [call, heq]
  | decideNext =>
      refine hnone id ?_
      rw [call, decideNext]
      split
      · rfl
      · rename_i hne
        obtain ⟨hmode, ht⟩ := hok hne
        obtain ⟨_, _, _, hr⟩ := decide_external (popped_inv hinv hne) hmode ht
        exact hr
  | cancelStrategy ref =>
      refine hnone id ?_
      have hc := cancelStrategy_cases hinv ref
      rw [call]
      generalize sim.cancelStrategy ref = r at hc
      cases hc with
      | tracked i mid hh hw => exact congrArg FillLog.reports hw.log
      | hidden => rfl
      | unknown => rfl
  | replaceStrategy orig fresh qty price =>
      refine hnone id ?_
      have hc := replaceStrategy_cases hinv orig hl.2 qty price
      rw [call]
      generalize sim.replaceStrategy orig fresh qty price = r at hc
      cases hc with
      | tracked i j b _ hh hc _ hr => exact congrArg FillLog.reports hr.log
      | refused => rfl
      | hidden => rfl
      | unknown => rfl

/--
**Self-trade prevention**, as far as it goes.

In every run each of whose decisions is taken with one of the cancelling modes and has a sweep
that finds nothing in the ledger, every fill of the strategy's orders has been caused by
external flow; and each decision stops at or removes the strategy's orders that it meets, and
goes up to the first of them as it would without prevention.
-/
theorem stpKept_run (hc : OrderBook.ConfigOk k cfg.book) {rs : List SimFillReport}
    (h : FlowReports cfg (StpSafe cfg) sim rs) :
    sim.log.reports = rs ∧ (¬ sim.wheel.empty → StpSafe cfg sim .decideNext →
      StpKept cfg sim.popped sim.wheel.popMin.1.order sim.wheel.popMin.1.visibleTs) := by
  constructor
  · induction h with
    | init => rfl
    | step hr c hl hok hrs ih =>
        rw [hrs, ← ih]
        exact call_reports (hr.reaches.simInv hc) hl hok
  · intro hne hok
    have hinv := h.reaches.simInv hc
    obtain ⟨hmode, ht⟩ := hok hne
    exact decide_stpKept (popped_inv hinv hne) (Scheduler.popMin_holds hinv.wheel hne).1 hmode ht

/-- The states of a run without external flow. -/
theorem flowReports_run {ok : ExecutionSimulator k → SimCall → Prop} {calls : List SimCall}
    (hl : ∀ c ∈ calls, c.Legal cfg.externalRefLimit) (hno : ∀ c ∈ calls, ¬ c.IsFlow)
    (hok : CallsMeet cfg ok (init cfg) calls) :
    FlowReports cfg ok (run cfg calls : ExecutionSimulator k) [] := by
  have hfold : ∀ (l : List SimCall) (s : ExecutionSimulator k), FlowReports cfg ok s [] →
      (∀ c ∈ l, c.Legal cfg.externalRefLimit ∧ ¬ c.IsFlow) → CallsMeet cfg ok s l →
      FlowReports cfg ok (l.foldl (fun s c => s.call cfg c) s) [] := by
    intro l
    induction l with
    | nil => exact fun s h _ _ => h
    | cons c l ih =>
        intro s h hmem hmeet
        obtain ⟨hlegal, hflow⟩ := hmem c List.mem_cons_self
        refine ih _ (h.step c hlegal hmeet.1 ?_) (fun x hx => hmem x (List.mem_cons_of_mem _ hx))
          hmeet.2
        rw [if_neg hflow, List.append_nil]
  exact hfold calls _ .init (fun c hc => ⟨hl c hc, hno c hc⟩) hok

/-- A sweep all of whose passes hand over an empty ledger finds nothing there. -/
theorem tapsNothing_of_passes (hr : sim.resolved order = some o)
    (h : ∀ w ∈ sim.sweepPasses cfg o ts, ∀ x ∈ (w.handOff cfg o).toList, x.1.sim.hidden = []) :
    sim.TapsNothing cfg order ts := by
  intro o' ho w hw u p hu e he
  cases Option.some.inj (ho.1.symm.trans hr)
  have hnil := h w hw (u, p) (by rw [hu]; exact List.mem_singleton.mpr rfl)
  rw [hnil] at he
  exact absurd he List.not_mem_nil

/-- With cancel-oldest, an offer of the strategy's own is ahead of one from outside, and a buy of
three waits to meet them. -/
def buyPending : List SimCall :=
  [.setStpMode .cancelOldest, .submit { ref := 100, side := .sell, qty := 2, price := 5 } 0,
    .decideNext, .seedExternal 1 .sell 4 5,
    .submit { ref := 101, qty := 3, price := 6, type := .ioc } 1]

/-- The pending buy removes the strategy's offer and executes the other. -/
theorem stpKept_run_pending :
    StpKept deskConfig (run deskConfig buyPending : ExecutionSimulator 4).popped
      { ref := 101, qty := 3, price := 6, type := .ioc }
      (run deskConfig buyPending : ExecutionSimulator 4).wheel.popMin.1.visibleTs
    ∧ (run deskConfig (buyPending ++ [.decideNext]) : ExecutionSimulator 4).log.executions.map
      Execution.qty = [3]
    ∧ (run deskConfig (buyPending ++ [.decideNext]) : ExecutionSimulator 4).book.remainingOf 100
      = 0 := by
  have hrun : FlowReports deskConfig (StpSafe deskConfig)
      (run deskConfig buyPending : ExecutionSimulator 4) [] :=
    flowReports_run (by decide) (by decide) ⟨trivial, trivial, fun _ => ⟨Or.inr (by decide +kernel),
      tapsNothing_of_passes (resolved_unpegged rfl) (by decide +kernel)⟩, trivial, trivial, trivial⟩
  have hev : (run deskConfig buyPending : ExecutionSimulator 4).wheel.popMin.1.order
      = { ref := 101, qty := 3, price := 6, type := .ioc } := by decide +kernel
  have hkept := (stpKept_run deskConfig_ok hrun).2 (by decide +kernel)
    (fun _ => ⟨Or.inr (by decide +kernel),
      tapsNothing_of_passes (by rw [hev]; exact resolved_unpegged rfl) (by decide +kernel)⟩)
  rw [hev] at hkept
  exact ⟨hkept, by decide +kernel, by decide +kernel⟩

/-- With cancel-newest from the start, a buy meets a hidden offer of the strategy's own. -/
def ownHidden : List SimCall :=
  [.setStpMode .cancelNewest,
    .submit { ref := 100, side := .sell, qty := 5, price := 5, nonDisplayed := true } 0, .decideNext,
    .seedExternal 1 .sell 4 7, .submit { ref := 101, qty := 3, price := 7 } 0, .decideNext]

/-- No external flow, and yet the hidden offer is reported as filled. -/
theorem own_hidden_filled :
    FlowReports deskConfig (fun _ _ => True) (run deskConfig ownHidden : ExecutionSimulator 4) []
      ∧ (run deskConfig ownHidden : ExecutionSimulator 4).log.reports.map SimFillReport.ref
        = [100] :=
  ⟨flowReports_run (by decide) (by decide) (callsMeet_true _ _), by decide +kernel⟩

end ExecutionSimulator

end Mog
