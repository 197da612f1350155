import Mog.Sim.Events

/-!
# What has been queued is not read again

No function of the simulator reads its logs: a call behaves the same whether what was
queued before it is still there or has been cleared away. This is what makes hooks that
clear the queues as they deliver them agree with a caller that never clears anything.

Every lemma moves a past, the records queued earlier, through one function: the function
with the past in its state is the function without it, the past put in front of what it
leaves. The file goes up the call tree, from the records themselves through the tap of
the ledger, the level, the passes of a sweep and the decision, to the calls of a run.
Loops take their past through by induction on the fuel; a branch splits on a condition
that both sides read from the same book, so the conditions are the same propositions.
-/

namespace Mog

namespace FillLog

/-- The log with the records of `p` before its own. -/
def withPast (p l : FillLog) : FillLog :=
  { l with
    reports := p.reports ++ l.reports
    decisions := p.decisions ++ l.decisions
    trades := p.trades ++ l.trades }

variable (p l : FillLog) (cfg : SimConfig)

/-- A settled fill is queued behind the past; its stamp and its fee do not depend on it. -/
theorem settle_withPast (vis ref : Nat) (price qty : Int) (s : Side) :
    (withPast p l).settle cfg vis ref price qty s = withPast p (l.settle cfg vis ref price qty s) := by
  unfold settle withPast
  dsimp only
  rw [List.append_assoc]

/-- The jitter of a fill is drawn from the generator, which the past does not touch. -/
theorem emitFill_withPast (t : Tracked) (price qty : Int) (baseTs : Nat) :
    (withPast p l).emitFill cfg t price qty baseTs = withPast p (l.emitFill cfg t price qty baseTs) :=
  settle_withPast p (l.drawJitter cfg).2 cfg _ _ _ _ _

/-- A print is queued behind the past. -/
theorem emitTrade_withPast (s : Side) (price qty : Int) :
    (withPast p l).emitTrade s price qty = withPast p (l.emitTrade s price qty) := by
  unfold emitTrade withPast
  dsimp only
  rw [List.append_assoc]

/-- A decision is queued behind the past. -/
theorem pushDecision_withPast (d : SimDecision) (vis ref : Nat) (s : Side) :
    (withPast p l).pushDecision d vis ref s = withPast p (l.pushDecision d vis ref s) := by
  unfold pushDecision withPast
  dsimp only
  rw [List.append_assoc]

end FillLog

/-- A tap under way, its log with a past. -/
def Tap.withPast (p : FillLog) (t : Tap) : Tap := { t with log := FillLog.withPast p t.log }

/-- The walk over the hidden ledger reads the entries and what is left to tap, and writes to the log
alone. -/
theorem tapLoop_withPast (p : FillLog) (cfg : SimConfig) (s : Side) (price : Int) (l : List Hidden)
    (t : Tap) : tapLoop cfg s price l (t.withPast p)
      = ((tapLoop cfg s price l t).1, (tapLoop cfg s price l t).2.withPast p) := by
  induction l generalizing t with
  | nil => rfl
  | cons h l ih =>
      rw [tapLoop, tapLoop]
      have hrem : (t.withPast p).remaining = t.remaining := rfl
      rw [hrem]
      by_cases hdone : t.remaining ≤ 0
      · rw [if_pos hdone, if_pos hdone]
      rw [if_neg hdone, if_neg hdone]
      by_cases hother : h.side ≠ s ∨ h.priceTicks ≠ price
      · rw [if_pos hother, if_pos hother]
        dsimp only
        rw [ih]
      rw [if_neg hother, if_neg hother]
      dsimp only
      have hlog := FillLog.settle_withPast p
        (t.log.execute { ref := h.ref, side := s, price, qty := min t.remaining h.qtyRemaining
                         displayed := false }) cfg t.log.nowHint h.ref price
        (min t.remaining h.qtyRemaining) s
      have hnext := ih { log := (t.log.execute { ref := h.ref, side := s, price,
                                                 qty := min t.remaining h.qtyRemaining
                                                 displayed := false }).settle cfg t.log.nowHint
                                  h.ref price (min t.remaining h.qtyRemaining) s
                         remaining := t.remaining - min t.remaining h.qtyRemaining
                         filled := t.filled + min t.remaining h.qtyRemaining
                         notional := (t.notional
                           + notionalOf price (min t.remaining h.qtyRemaining)) % 2 ^ 64 }
      unfold Tap.withPast at hnext
      rw [← hlog] at hnext
      dsimp only at hnext
      by_cases hgone : h.qtyRemaining - min t.remaining h.qtyRemaining = 0
      · rw [if_pos hgone, if_pos hgone]
        exact hnext
      · rw [if_neg hgone, if_neg hgone]
        exact congrArg (fun r : List Hidden × Tap =>
          ({ h with qtyRemaining := h.qtyRemaining - min t.remaining h.qtyRemaining } :: r.1, r.2))
          hnext

namespace ExecutionSimulator

variable {k : Nat}

/-- The simulator with the records of `p` queued before its own. -/
def withPast (p : FillLog) (sim : ExecutionSimulator k) : ExecutionSimulator k :=
  sim.withLog (FillLog.withPast p)

variable (p : FillLog) (sim : ExecutionSimulator k) (cfg : SimConfig)

/-- A tap of one price takes the same from the ledger. -/
theorem tapHidden_withPast (s : Side) (price remaining : Int) (notional : Nat) :
    (sim.withPast p).tapHidden cfg s price remaining notional
      = ((sim.tapHidden cfg s price remaining notional).1.withPast p,
        (sim.tapHidden cfg s price remaining notional).2.withPast p) := by
  have hloop := tapLoop_withPast p cfg s price sim.hidden { log := sim.log, remaining, notional }
  unfold tapHidden
  dsimp only [withPast, withLog]
  unfold Tap.withPast at hloop
  dsimp only at hloop
  rw [hloop]
  rfl

/-- An execution in the book finds the same victim and the same tracked order, and queues its fill
behind the past. -/
theorem reduceAndSync_withPast (s : Side) (head : Nat) (price take : Int) (front : Bool)
    (hh : GenHandle) : (sim.withPast p).reduceAndSync cfg s head price take front hh
      = (sim.reduceAndSync cfg s head price take front hh).withPast p := by
  unfold reduceAndSync
  dsimp only [withPast, withLog]
  generalize (if front then sim.book.executeFront s price take else sim.book.execute head take) = r
  generalize (if front then r.victim.getD head else head) = victim
  by_cases hno : ¬ sim.track.isLive hh.index ∨ victim ≠ head
  · rw [if_pos hno, if_pos hno]
    rfl
  · rw [if_neg hno, if_neg hno]
    dsimp only
    congr 1
    exact FillLog.emitFill_withPast p
      (sim.log.execute { ref := head, side := s, price, qty := take, displayed := true }) cfg _ _ _ _

/-- A replenishment reads the registry and the book. -/
theorem replenishIfIceberg_withPast (head : Nat) :
    (sim.withPast p).replenishIfIceberg head = (sim.replenishIfIceberg head).withPast p := by
  have hidx : (sim.withPast p).icebergIndexOf head = sim.icebergIndexOf head := rfl
  have hice : (sim.withPast p).icebergs = sim.icebergs := rfl
  have hbook : (sim.withPast p).book = sim.book := rfl
  unfold replenishIfIceberg
  rw [hidx, hice, hbook]
  cases sim.icebergIndexOf head with
  | none => rfl
  | some idx =>
      dsimp only
      cases sim.icebergs[idx]? with
      | none => rfl
      | some ib =>
          dsimp only
          by_cases hz : ib.hidden = 0
          · rw [if_pos hz, if_pos hz]
          rw [if_neg hz, if_neg hz]
          by_cases hin : (sim.book.findHandle head).index ≠ kNullIndex
          · rw [if_pos hin, if_pos hin]
          · rw [if_neg hin, if_neg hin]
            rfl

/-- The passes over a level, by induction on the fuel: each reads the head of the queue from the
book. -/
theorem consumeLoop_withPast (s : Side) (price q : Int) (fuel : Nat) (applied : Int)
    (sim : ExecutionSimulator k) : consumeLoop cfg s price q fuel applied (sim.withPast p)
      = ((consumeLoop cfg s price q fuel applied sim).1.withPast p,
        (consumeLoop cfg s price q fuel applied sim).2) := by
  induction fuel generalizing applied sim with
  | zero => rfl
  | succ fuel ih =>
      rw [consumeLoop, consumeLoop]
      split
      · rfl
      have hbook : (sim.withPast p).book = sim.book := rfl
      rw [hbook]
      dsimp only
      split
      · rfl
      · rw [reduceAndSync_withPast, replenishIfIceberg_withPast, ih]

/-- A level is consumed as before, with its print behind the past. -/
theorem consumeLevel_withPast (s : Side) (price q : Int) :
    (sim.withPast p).consumeLevel cfg s price q = (sim.consumeLevel cfg s price q).withPast p := by
  have hloop := consumeLoop_withPast p cfg s price q q.toNat 0 { sim with
    track := ({ sim.track with recentSync := [] } : TrackTable).subtractLevel sim.book s price q
      false }
  unfold consumeLevel
  dsimp only [withPast, withLog] at hloop ⊢
  rw [hloop]
  dsimp only
  split
  · rw [FillLog.emitTrade_withPast]
  · rfl

/-- An external execution, with its split between the level and the ledger. -/
theorem applyExternal_withPast (s : Side) (price qty : Int) :
    (sim.withPast p).applyExternal cfg s price qty = (sim.applyExternal cfg s price qty).withPast p := by
  have hpeg : (sim.withPast p).repegHidden = sim.repegHidden.withPast p := rfl
  have hhalted : (sim.withPast p).halted = sim.halted := rfl
  unfold applyExternal
  rw [hpeg, hhalted]
  split
  · rfl
  dsimp only
  have hbook : (sim.repegHidden.withPast p).book = sim.repegHidden.book := rfl
  rw [hbook, consumeLevel_withPast]
  split
  · rw [tapHidden_withPast]
  · rfl

/-- The passes of a depletion through the levels take the same from each of them. -/
theorem depleteLoop_withPast (s : Side) (scaled : Nat → Nat → Int) (fuel lvl : Nat) (tick : Int)
    (rem : Nat) (sim : ExecutionSimulator k) :
    depleteLoop cfg s scaled fuel lvl tick rem (sim.withPast p)
      = (depleteLoop cfg s scaled fuel lvl tick rem sim).withPast p := by
  induction fuel generalizing lvl tick rem sim with
  | zero => rfl
  | succ fuel ih =>
      rw [depleteLoop, depleteLoop]
      split
      · rfl
      have hbook : (sim.withPast p).book = sim.book := rfl
      rw [hbook]
      dsimp only
      generalize (if 0 < sim.book.qtyAt s tick then
        min (max 1 (scaled lvl rem)) (sim.book.qtyAt s tick) else 0) = applied
      by_cases hpos : 0 < applied
      · rw [if_pos hpos, if_pos hpos, if_pos hpos, consumeLevel_withPast, ih]
        rfl
      · rw [if_neg hpos, if_neg hpos, if_neg hpos, ih]
        rfl

/-- A depletion of one side, in either of its shapes. -/
theorem applyDepletion_withPast (s : Side) (qty : Nat) (scaled : Nat → Nat → Int) :
    (sim.withPast p).applyDepletion cfg s qty scaled
      = (sim.applyDepletion cfg s qty scaled).withPast p := by
  have hbook : (sim.withPast p).book = sim.book := rfl
  unfold applyDepletion
  rw [hbook]
  split
  · rfl
  split
  · dsimp only
    split
    · rfl
    split
    · rfl
    · exact consumeLevel_withPast p sim cfg s _ _
  · exact depleteLoop_withPast p cfg s scaled _ _ _ _ sim

/-- External time, with the depletions that were drawn for it. -/
theorem advanceTime_withPast (dtNs drawnBuy drawnSell : Nat) (scaled : Side → Nat → Nat → Int) :
    (sim.withPast p).advanceTime cfg dtNs drawnBuy drawnSell scaled
      = (sim.advanceTime cfg dtNs drawnBuy drawnSell scaled).withPast p := by
  have hhalted : (sim.withPast p).halted = sim.halted := rfl
  unfold advanceTime
  rw [hhalted]
  split
  · rfl
  · dsimp only
    rw [← applyDepletion_withPast, ← applyDepletion_withPast]
    rfl

/-- A cancel gives the same answer. -/
theorem cancelStrategy_withPast (ref : Nat) : (sim.withPast p).cancelStrategy ref
    = ((sim.cancelStrategy ref).1, (sim.cancelStrategy ref).2.withPast p) := by
  have hidx : (sim.withPast p).trackedIndexOf ref = sim.trackedIndexOf ref := rfl
  have hhidden : (sim.withPast p).hidden = sim.hidden := rfl
  have hbook : (sim.withPast p).book = sim.book := rfl
  unfold cancelStrategy
  rw [hidx, hhidden, hbook]
  dsimp only
  split
  · split
    · rfl
    · rfl
  split
  · rfl
  · rfl

/-- A replace gives the same answer. -/
theorem replaceStrategy_withPast (orig fresh : Nat) (qty price : Int) :
    (sim.withPast p).replaceStrategy orig fresh qty price
      = ((sim.replaceStrategy orig fresh qty price).1,
        (sim.replaceStrategy orig fresh qty price).2.withPast p) := by
  have hidx : (sim.withPast p).trackedIndexOf orig = sim.trackedIndexOf orig := rfl
  have hhidden : (sim.withPast p).hidden = sim.hidden := rfl
  have hbook : (sim.withPast p).book = sim.book := rfl
  unfold replaceStrategy
  rw [hidx, hhidden, hbook]
  dsimp only
  split
  · cases sim.hidden.find? (fun h => h.ref = orig) with
    | none => rfl
    | some h => rfl
  · cases sim.book.sideOf orig with
    | none => rfl
    | some s =>
        dsimp only
        split
        · rfl
        · rfl

end ExecutionSimulator

/-! ## Sweeps and decisions -/

namespace Sweep

open ExecutionSimulator

variable {k : Nat}

/-- A sweep under way, its simulator with a past. -/
def withPast (p : FillLog) (w : Sweep k) : Sweep k := { w with sim := w.sim.withPast p }

end Sweep

/-- What a pass leads to, its sweep with a past. -/
def SweepStep.withPast {k : Nat} (p : FillLog) : SweepStep k → SweepStep k
  | .more w => .more (w.withPast p)
  | .leave => .leave
  | .stpStop => .stpStop

namespace Sweep

open ExecutionSimulator

variable {k : Nat} (p : FillLog) (w : Sweep k) (cfg : SimConfig)

/-- What a pass has taken is noted in the sweep and the tracked orders. -/
theorem noteTake_withPast (opp : Side) (touch qty : Int) :
    (w.withPast p).noteTake opp touch qty = (w.noteTake opp touch qty).withPast p := by
  have htouched : (w.withPast p).touched = w.touched := rfl
  unfold noteTake
  rw [htouched]
  by_cases hany : (w.touched.any fun p => p.1 = touch) = true
  · rw [if_pos hany, if_pos hany]
    rfl
  rw [if_neg hany, if_neg hany]
  by_cases hlen : w.touched.length < 8
  · rw [if_pos hlen, if_pos hlen]
    rfl
  rw [if_neg hlen, if_neg hlen]
  have hsim := apply_ite (fun s : ExecutionSimulator k => s.withPast p)
    (w.hasPendingOverflow ∧ w.pendingOverflow ≠ touch)
    { w.sim with
      track := w.sim.track.subtractLevel w.sim.book opp w.pendingOverflow w.pendingOverflowTake true }
    w.sim
  dsimp only [withPast]
  rw [hsim]
  rfl

/-- A sweep's tap of the hidden ledger. -/
theorem tap_withPast (opp : Side) (price : Int) :
    (w.withPast p).tap cfg opp price = (w.tap cfg opp price).withPast p := by
  have htap := tapHidden_withPast p w.sim cfg opp price w.remaining w.notional
  unfold tap
  dsimp only [withPast]
  rw [htap]
  rfl

/-- The head of the queue is executed and its iceberg replenished. -/
theorem matchHead_withPast (opp : Side) (touch : Int) (head : Nat) (hh : GenHandle) (take : Int) :
    (w.withPast p).matchHead cfg opp touch head hh take
      = (w.matchHead cfg opp touch head hh take).withPast p := by
  unfold matchHead
  rw [noteTake_withPast]
  generalize w.noteTake opp touch take = u
  have h1 := reduceAndSync_withPast p u.sim cfg opp head touch take true hh
  have h2 := replenishIfIceberg_withPast p (u.sim.reduceAndSync cfg opp head touch take true hh) head
  dsimp only [withPast]
  rw [h1, h2]
  rfl

/-- The same, and a tap where the price has run out of displayed shares. -/
theorem executeHead_withPast (opp : Side) (touch : Int) (head : Nat) (hh : GenHandle)
    (headRem : Int) : (w.withPast p).executeHead cfg opp touch head hh headRem
      = (w.executeHead cfg opp touch head hh headRem).withPast p := by
  have hrem : (w.withPast p).remaining = w.remaining := rfl
  rw [executeHead_eq, executeHead_eq, hrem, matchHead_withPast]
  generalize w.matchHead cfg opp touch head hh (min w.remaining headRem) = u
  have hrem' : (u.withPast p).remaining = u.remaining := rfl
  rw [hrem']
  split
  · rw [tap_withPast]
  · rfl

/-- Self-trade prevention takes the resting order out. -/
theorem removeVictim_withPast (opp : Side) (touch : Int) (head : Nat) (hh : GenHandle)
    (headRem : Int) : (w.withPast p).removeVictim opp touch head hh headRem
      = (w.removeVictim opp touch head hh headRem).withPast p :=
  noteTake_withPast p { w with
    sim := { w.sim with
      book := (w.sim.book.remove head).book
      track := w.sim.track.retire hh.index } } opp touch headRem

/-- Self-trade prevention takes the smaller quantity off both orders. -/
theorem decrementVictim_withPast (opp : Side) (touch : Int) (head : Nat) (hh : GenHandle)
    (headRem : Int) : (w.withPast p).decrementVictim cfg opp touch head hh headRem
      = (w.decrementVictim cfg opp touch head hh headRem).withPast p := by
  have hrem : (w.withPast p).remaining = w.remaining := rfl
  unfold decrementVictim
  rw [hrem]
  generalize min headRem w.remaining = d
  have h1 := reduceAndSync_withPast p w.sim cfg opp head touch d false hh
  have h2 := noteTake_withPast p
    { w with sim := w.sim.reduceAndSync cfg opp head touch d false hh } opp touch d
  dsimp only [withPast] at h2 ⊢
  rw [h1, h2]
  dsimp only
  rw [replenishIfIceberg_withPast]
  rfl

/-- **A pass decides the same**: what it asks of the book, the ledger, the tracked orders and the
prevention mode is what it asked without the past. -/
theorem step_withPast (order : SimInbound) :
    (w.withPast p).step cfg order = (w.step cfg order).withPast p := by
  have hbook : (w.withPast p).sim.book = w.sim.book := rfl
  have hbest : (w.withPast p).sim.bestHiddenPrice order.side.opp
      = w.sim.bestHiddenPrice order.side.opp := rfl
  have htrack : (w.withPast p).sim.track = w.sim.track := rfl
  have hstp : (w.withPast p).sim.stp = w.sim.stp := rfl
  unfold step
  dsimp only
  rw [hbest, hbook, htrack, hstp]
  split
  · split
    · rfl
    · rw [tap_withPast]
      rfl
  split
  · rfl
  split
  · rfl
  split
  · rfl
  split
  · cases w.sim.stp with
    | none =>
        dsimp only
        rw [executeHead_withPast]
        rfl
    | cancelNewest => rfl
    | cancelOldest =>
        dsimp only
        rw [removeVictim_withPast]
        rfl
    | decrement =>
        dsimp only
        rw [decrementVictim_withPast]
        rfl
  · rw [executeHead_withPast]
    rfl

/-- The passes of a sweep, by induction on the fuel. -/
theorem loop_withPast (order : SimInbound) (fuel : Nat) (w : Sweep k) :
    loop cfg order fuel (w.withPast p)
      = ((loop cfg order fuel w).1.withPast p, (loop cfg order fuel w).2) := by
  induction fuel generalizing w with
  | zero => rfl
  | succ fuel ih =>
      have hrem : (w.withPast p).remaining = w.remaining := rfl
      rw [loop, loop, hrem, step_withPast]
      split
      · rfl
      · cases w.step cfg order with
        | more w' => exact ih w'
        | leave => rfl
        | stpStop => rfl

end Sweep

/-- The result of a sweep, its simulator with a past. -/
def CrossResult.withPast {k : Nat} (p : FillLog) (c : CrossResult k) : CrossResult k :=
  { c with sim := c.sim.withPast p }

namespace ExecutionSimulator

variable {k : Nat} (p : FillLog) (sim : ExecutionSimulator k) (cfg : SimConfig)

/-- A whole sweep returns the same quantity and the same notional. -/
theorem cross_withPast (order : SimInbound) (remaining : Int) :
    (sim.withPast p).cross cfg order remaining
      = CrossResult.withPast p (sim.cross cfg order remaining) := by
  have hloop : (sim.withPast p).crossLoop cfg order remaining
      = ((sim.crossLoop cfg order remaining).1.withPast p, (sim.crossLoop cfg order remaining).2) :=
    Sweep.loop_withPast p cfg order (sim.crossStart remaining).fuel (sim.crossStart remaining)
  rw [cross_eq, cross_eq, hloop]
  dsimp only
  split
  · rfl
  · rfl

/-- The simulator's decision is its log's. -/
theorem pushDecision_withPast (d : SimDecision) (vis : Nat) (order : SimInbound) :
    (sim.withPast p).pushDecision d vis order = (sim.pushDecision d vis order).withPast p := by
  unfold pushDecision withPast withLog
  dsimp only
  rw [FillLog.pushDecision_withPast]

/-- The remainder of an order rests, hides or is cancelled as before. -/
theorem finish_withPast (order : SimInbound) (remaining : Int) (out : SimDecision) (vis : Nat) :
    (sim.withPast p).finish order remaining out vis
      = (sim.finish order remaining out vis).withPast p := by
  have hbook : (sim.withPast p).book = sim.book := rfl
  unfold finish
  rw [hbook]
  dsimp only
  split
  · split
    · rw [← pushDecision_withPast]
      rfl
    · rw [← pushDecision_withPast]
      rfl
  split
  · rw [← pushDecision_withPast]
    rfl
  · rw [← pushDecision_withPast]

/-- A crossing order, from its sweep to its decision. -/
theorem sweep_withPast (order : SimInbound) (decisionTs vis : Nat) :
    (sim.withPast p).sweep cfg order decisionTs vis
      = (sim.sweep cfg order decisionTs vis).withPast p := by
  rw [sweep_eq, sweep_eq, cross_withPast]
  generalize sim.cross cfg order order.qty = c
  have hcount : (c.withPast p).sim.counted order (c.withPast p).filled
      = (c.sim.counted order c.filled).withPast p := rfl
  have hstop : (c.withPast p).stpStop = c.stpStop := rfl
  rw [hcount, hstop]
  split
  · rw [← pushDecision_withPast]
    rfl
  · rw [← finish_withPast]
    rfl

/-- An order whose peg has been resolved gets the same decision. -/
theorem decideResolved_withPast (order : SimInbound) (decisionTs : Nat) :
    (sim.withPast p).decideResolved cfg order decisionTs
      = (sim.decideResolved cfg order decisionTs).withPast p := by
  -- The simulator after the draw is the same on both sides but for its past, so the
  -- conditions are the same propositions and each branch moves the past by its own lemma.
  unfold decideResolved
  dsimp only
  have hdrawn : ∀ s : ExecutionSimulator k,
      s = { sim with log := (sim.log.drawJitter cfg).2 } →
      s.withPast p = { sim.withPast p with log := ((sim.withPast p).log.drawJitter cfg).2 } := by
    intro s hs
    rw [hs]
    rfl
  by_cases hid : (sim.book.findHandle order.ref).index ≠ kNullIndex
  · refine (if_pos hid).trans (Eq.trans ?_ (congrArg (withPast p) (if_pos hid)).symm)
    rw [← hdrawn _ rfl]
    exact pushDecision_withPast p _ _ _ _
  refine (if_neg hid).trans (Eq.trans ?_ (congrArg (withPast p) (if_neg hid)).symm)
  by_cases hpost : order.type = .postOnly
      ∧ ({ sim with log := (sim.log.drawJitter cfg).2 } : ExecutionSimulator k).crosses order
  · refine (if_pos hpost).trans (Eq.trans ?_ (congrArg (withPast p) (if_pos hpost)).symm)
    rw [← hdrawn _ rfl]
    exact pushDecision_withPast p _ _ _ _
  refine (if_neg hpost).trans (Eq.trans ?_ (congrArg (withPast p) (if_neg hpost)).symm)
  by_cases hcross : ({ sim with log := (sim.log.drawJitter cfg).2 }
      : ExecutionSimulator k).crosses order ∧ 0 < order.qty
  · refine (if_pos hcross).trans (Eq.trans ?_ (congrArg (withPast p) (if_pos hcross)).symm)
    rw [← hdrawn _ rfl]
    exact sweep_withPast p _ cfg order decisionTs _
  · refine (if_neg hcross).trans (Eq.trans ?_ (congrArg (withPast p) (if_neg hcross)).symm)
    rw [← hdrawn _ rfl]
    exact finish_withPast p _ order _ _ _

/-- An order at its decision point gets the same decision. -/
theorem decide_withPast (order : SimInbound) (decisionTs : Nat) :
    (sim.withPast p).decide cfg order decisionTs = (sim.decide cfg order decisionTs).withPast p := by
  have hopen : ((sim.withPast p).withLog (fun l => { l with nowHint := decisionTs })).repegHidden
      = (sim.withLog (fun l => { l with nowHint := decisionTs })).repegHidden.withPast p := rfl
  unfold decide
  rw [hopen]
  generalize (sim.withLog (fun l => { l with nowHint := decisionTs })).repegHidden = s
  have href : ∀ peg offset, (s.withPast p).hiddenReference peg offset
      = s.hiddenReference peg offset := fun _ _ => rfl
  dsimp only
  rw [href]
  split
  · split
    · rw [← pushDecision_withPast]
      rfl
    · rw [decideResolved_withPast]
  · rw [decideResolved_withPast]

/-- The scheduler's next order is decided as before. -/
theorem decideNext_withPast :
    (sim.withPast p).decideNext cfg = (sim.decideNext cfg).withPast p := by
  have hwheel : (sim.withPast p).wheel = sim.wheel := rfl
  unfold decideNext
  rw [hwheel]
  split
  · rfl
  · exact decide_withPast p { sim with wheel := sim.wheel.popMin.2 } cfg _ _

/-- The orders that are due are decided as before, by induction on the passes. -/
theorem runUntil_withPast (untilTs : Nat) :
    (sim.withPast p).runUntil cfg untilTs = (sim.runUntil cfg untilTs).withPast p := by
  have hloop : ∀ fuel (sim : ExecutionSimulator k),
      runLoop cfg untilTs fuel (sim.withPast p) = (runLoop cfg untilTs fuel sim).withPast p := by
    intro fuel
    induction fuel with
    | zero => intro sim; rfl
    | succ fuel ih =>
        intro sim
        have hwheel : (sim.withPast p).wheel = sim.wheel := rfl
        rw [runLoop, runLoop, hwheel]
        split
        · dsimp only
          rw [← ih, ← decide_withPast]
          rfl
        · rfl
  exact hloop sim.wheel.heapSize sim

/-- **What has been queued does not matter to a call.** -/
theorem call_withPast (c : SimCall) :
    (sim.withPast p).call cfg c = (sim.call cfg c).withPast p := by
  cases c with
  | seedExternal ref s qty price => rfl
  | seedIceberg spec =>
      show ((sim.withPast p).seedIceberg spec).2 = (sim.seedIceberg spec).2.withPast p
      have hbook : (sim.withPast p).book = sim.book := rfl
      unfold seedIceberg
      rw [hbook]
      dsimp only
      split
      · rfl
      · rfl
  | submit order arrivalTs => rfl
  | decideNext => exact decideNext_withPast p sim cfg
  | applyExternal s price qty => exact applyExternal_withPast p sim cfg s price qty
  | advanceTime dtNs drawnBuy drawnSell scaled =>
      exact advanceTime_withPast p sim cfg dtNs drawnBuy drawnSell scaled
  | cancelStrategy ref => exact congrArg Prod.snd (cancelStrategy_withPast p sim ref)
  | replaceStrategy orig fresh qty price =>
      exact congrArg Prod.snd (replaceStrategy_withPast p sim orig fresh qty price)
  | setHalted h => rfl
  | setStpMode m => rfl

/-- A state is what clearing leaves of it, with its own past. -/
theorem withPast_clearEvents : (sim.clearEvents).withPast sim.log = sim := by
  unfold clearEvents withPast withLog FillLog.withPast
  dsimp only
  rw [List.append_nil, List.append_nil, List.append_nil]

end ExecutionSimulator

end Mog
