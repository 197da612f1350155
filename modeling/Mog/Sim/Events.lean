import Mog.Sim.Reach

/-!
# What the calls queue

The simulator queues what happens in three logs, fills, decisions and trade prints,
each record stamped with a global counter. A call only adds to the logs, and what it
adds to the three of them is one list of occurrences in the order of their stamps.
Only a submission and the decision of what is due touch the scheduler. All this holds in
every state, legal or not.
-/

namespace Mog

/-- A record of one of the logs. -/
inductive Occurrence where
  | trade (t : SimTrade)
  | fill (r : SimFillReport)
  | decision (d : SimDecision)
deriving DecidableEq

namespace Occurrence

/-- The stamp of a record. -/
def seq : Occurrence → Nat
  | trade t => t.seq
  | fill r => r.seq
  | decision d => d.seq

/-- The record, if it is a print. -/
def trade? : Occurrence → Option SimTrade
  | trade t => some t
  | _ => none

/-- The record, if it is a fill. -/
def fill? : Occurrence → Option SimFillReport
  | fill r => some r
  | _ => none

/-- The record, if it is a decision. -/
def decision? : Occurrence → Option SimDecision
  | decision d => some d
  | _ => none

/-- The quantity of a record fits its field of 32 bits. -/
def Narrow : Occurrence → Prop
  | trade t => t.qty < 2 ^ 32
  | fill r => r.qty < 2 ^ 32
  | decision d => d.filledQty < 2 ^ 32

end Occurrence

namespace FillLog

/-- From `l` to `l'` the occurrences `os` have been queued, one after the other. -/
structure Queues (l l' : FillLog) (os : List Occurrence) : Prop where
  trades : l'.trades = l.trades ++ os.filterMap Occurrence.trade?
  reports : l'.reports = l.reports ++ os.filterMap Occurrence.fill?
  decisions : l'.decisions = l.decisions ++ os.filterMap Occurrence.decision?
  seq_le : l.seqCounter ≤ l'.seqCounter
  above : ∀ o ∈ os, l.seqCounter < o.seq
  below : ∀ o ∈ os, o.seq ≤ l'.seqCounter
  sorted : os.Pairwise fun a b => a.seq < b.seq

/-- Nothing but additions to the logs. -/
def Grows (l l' : FillLog) : Prop := ∃ os, l.Queues l' os ∧ ∀ o ∈ os, o.Narrow

variable {l l' l'' : FillLog}

/-- Two runs of occurrences, one behind the other. -/
theorem Queues.trans {os os' : List Occurrence} (h : l.Queues l' os) (h' : l'.Queues l'' os') :
    l.Queues l'' (os ++ os') where
  trades := by rw [h'.trades, h.trades, List.filterMap_append, List.append_assoc]
  reports := by rw [h'.reports, h.reports, List.filterMap_append, List.append_assoc]
  decisions := by rw [h'.decisions, h.decisions, List.filterMap_append, List.append_assoc]
  seq_le := Nat.le_trans h.seq_le h'.seq_le
  above o ho := by
    rcases List.mem_append.mp ho with ho | ho
    · exact h.above o ho
    · exact Nat.lt_of_le_of_lt h.seq_le (h'.above o ho)
  below o ho := by
    rcases List.mem_append.mp ho with ho | ho
    · exact Nat.le_trans (h.below o ho) h'.seq_le
    · exact h'.below o ho
  sorted := by
    refine List.pairwise_append.mpr ⟨h.sorted, h'.sorted, fun a ha b hb => ?_⟩
    exact Nat.lt_of_le_of_lt (h.below a ha) (h'.above b hb)

/-- Two steps that only add to the logs. -/
theorem Grows.trans (h : l.Grows l') (h' : l'.Grows l'') : l.Grows l'' := by
  obtain ⟨os, hos, hn⟩ := h
  obtain ⟨os', hos', hn'⟩ := h'
  refine ⟨os ++ os', hos.trans hos', fun o ho => ?_⟩
  rcases List.mem_append.mp ho with ho | ho
  · exact hn o ho
  · exact hn' o ho

/-- Nothing has been queued. -/
theorem queues_nil (ht : l'.trades = l.trades) (hr : l'.reports = l.reports)
    (hd : l'.decisions = l.decisions) (hs : l.seqCounter ≤ l'.seqCounter) : l.Queues l' [] where
  trades := by rw [ht]; exact (List.append_nil _).symm
  reports := by rw [hr]; exact (List.append_nil _).symm
  decisions := by rw [hd]; exact (List.append_nil _).symm
  seq_le := hs
  above _ ho := absurd ho List.not_mem_nil
  below _ ho := absurd ho List.not_mem_nil
  sorted := .nil

/-- A step that adds nothing grows the logs too. -/
theorem grows_of_same (ht : l'.trades = l.trades) (hr : l'.reports = l.reports)
    (hd : l'.decisions = l.decisions) (hs : l.seqCounter ≤ l'.seqCounter) : l.Grows l' :=
  ⟨[], queues_nil ht hr hd hs, fun _ ho => absurd ho List.not_mem_nil⟩

/-- What is written into a field of 32 bits is below `2 ^ 32`. -/
theorem toU32_lt (x : Int) : toU32 x < 2 ^ 32 := by
  unfold toU32
  omega

theorem Grows.refl (l : FillLog) : l.Grows l := grows_of_same rfl rfl rfl (Nat.le_refl _)

/-- A settled fill is one occurrence, stamped with the next number. -/
theorem grows_settle (l : FillLog) (cfg : SimConfig) (vis ref : Nat) (price qty : Int) (s : Side) :
    l.Grows (l.settle cfg vis ref price qty s) :=
  ⟨[.fill { visibleTs := vis, ref, priceTicks := price, qty := toU32 qty, seq := l.seqCounter + 1
            side := s, fee := feeBpsOf (notionalOf price qty) cfg.makerFeeBps }],
    { trades := (List.append_nil _).symm
      reports := rfl
      decisions := (List.append_nil _).symm
      seq_le := Nat.le_succ _
      above := fun o ho => by rw [List.mem_singleton.mp ho]; exact Nat.lt_succ_self _
      below := fun o ho => by rw [List.mem_singleton.mp ho]; exact Nat.le_refl _
      sorted := List.pairwise_singleton _ _ },
    fun o ho => by rw [List.mem_singleton.mp ho]; exact toU32_lt qty⟩

/-- A print is one occurrence, stamped with the next number. -/
theorem grows_emitTrade (l : FillLog) (s : Side) (price qty : Int) :
    l.Grows (l.emitTrade s price qty) :=
  ⟨[.trade { ts := l.nowHint, seq := l.seqCounter + 1, pxTicks := price, qty := toU32 qty
             aggressorBuy := s = .sell }],
    { trades := rfl
      reports := (List.append_nil _).symm
      decisions := (List.append_nil _).symm
      seq_le := Nat.le_succ _
      above := fun o ho => by rw [List.mem_singleton.mp ho]; exact Nat.lt_succ_self _
      below := fun o ho => by rw [List.mem_singleton.mp ho]; exact Nat.le_refl _
      sorted := List.pairwise_singleton _ _ },
    fun o ho => by rw [List.mem_singleton.mp ho]; exact toU32_lt qty⟩

/-- A decision is one occurrence; its quantity has been narrowed by who made it. -/
theorem grows_pushDecision (l : FillLog) {d : SimDecision} (hd : d.filledQty < 2 ^ 32)
    (vis ref : Nat) (s : Side) :
    l.Grows (l.pushDecision d vis ref s) :=
  ⟨[.decision { d with ref, visibleTs := vis, side := s, seq := l.seqCounter + 1 }],
    { trades := (List.append_nil _).symm
      reports := (List.append_nil _).symm
      decisions := rfl
      seq_le := Nat.le_succ _
      above := fun o ho => by rw [List.mem_singleton.mp ho]; exact Nat.lt_succ_self _
      below := fun o ho => by rw [List.mem_singleton.mp ho]; exact Nat.le_refl _
      sorted := List.pairwise_singleton _ _ },
    fun o ho => by rw [List.mem_singleton.mp ho]; exact hd⟩

/-- A drawn jitter moves the generator alone. -/
theorem grows_drawJitter (l : FillLog) (cfg : SimConfig) : l.Grows (l.drawJitter cfg).2 :=
  grows_of_same rfl rfl rfl (Nat.le_refl _)

/-- A noted execution is no record of the three logs. -/
theorem grows_execute (l : FillLog) (e : Execution) : l.Grows (l.execute e) :=
  grows_of_same rfl rfl rfl (Nat.le_refl _)

/-- A fill is settled after its jitter has been drawn. -/
theorem grows_emitFill (l : FillLog) (cfg : SimConfig) (t : Tracked) (price qty : Int) (ts : Nat) :
    l.Grows (l.emitFill cfg t price qty ts) :=
  (grows_drawJitter l cfg).trans (grows_settle _ _ _ _ _ _ _)

end FillLog

/-- A tap makes no decision. -/
theorem tapLoop_decisions (cfg : SimConfig) (s : Side) (price : Int) (l : List Hidden) (t : Tap) :
    (tapLoop cfg s price l t).2.log.decisions = t.log.decisions := by
  induction l generalizing t with
  | nil => rfl
  | cons h l ih =>
      rw [tapLoop]
      by_cases hdone : t.remaining ≤ 0
      · rw [if_pos hdone]
      rw [if_neg hdone]
      by_cases hother : h.side ≠ s ∨ h.priceTicks ≠ price
      · rw [if_pos hother]
        exact ih t
      rw [if_neg hother]
      dsimp only
      split
      · exact ih _
      · exact ih _

/-- Each entry that a tap takes from settles one fill. -/
theorem tapLoop_grows (cfg : SimConfig) (s : Side) (price : Int) (l : List Hidden) (t : Tap) :
    t.log.Grows (tapLoop cfg s price l t).2.log := by
  induction l generalizing t with
  | nil => exact .refl _
  | cons h l ih =>
      rw [tapLoop]
      by_cases hdone : t.remaining ≤ 0
      · rw [if_pos hdone]
        exact .refl _
      rw [if_neg hdone]
      by_cases hother : h.side ≠ s ∨ h.priceTicks ≠ price
      · rw [if_pos hother]
        exact ih t
      rw [if_neg hother]
      dsimp only
      split
      · refine FillLog.Grows.trans ?_ (ih _)
        exact (FillLog.grows_execute _ _).trans (FillLog.grows_settle _ _ _ _ _ _ _)
      · show t.log.Grows (tapLoop cfg s price l _).2.log
        refine FillLog.Grows.trans ?_ (ih _)
        exact (FillLog.grows_execute _ _).trans (FillLog.grows_settle _ _ _ _ _ _ _)

namespace ExecutionSimulator

variable {k : Nat} {sim sim' sim'' : ExecutionSimulator k}

/-- `clear_reports`. -/
def clearReports (sim : ExecutionSimulator k) : ExecutionSimulator k :=
  sim.withLog fun l => { l with reports := [] }

/-- `clear_events`: fills, decisions and trade prints. -/
def clearEvents (sim : ExecutionSimulator k) : ExecutionSimulator k :=
  sim.withLog fun l => { l with reports := [], decisions := [], trades := [] }

/-- The logs have grown at most, without a decision, and what waits in the scheduler waits on. -/
structure Extends (sim sim' : ExecutionSimulator k) : Prop where
  log : sim.log.Grows sim'.log
  wheel : sim'.wheel = sim.wheel
  decisions : sim'.log.decisions = sim.log.decisions

theorem Extends.refl (sim : ExecutionSimulator k) : Extends sim sim := ⟨.refl _, rfl, rfl⟩

theorem Extends.trans (h : Extends sim sim') (h' : Extends sim' sim'') : Extends sim sim'' :=
  ⟨h.log.trans h'.log, h'.wheel.trans h.wheel, h'.decisions.trans h.decisions⟩

/-- A change of neither logs nor scheduler. -/
theorem Extends.still (hl : sim'.log = sim.log) (hw : sim'.wheel = sim.wheel) : Extends sim sim' :=
  ⟨hl ▸ .refl _, hw, congrArg FillLog.decisions hl⟩

variable (sim) (cfg : SimConfig)

/-- A tap queues fills. -/
theorem tapHidden_extends (s : Side) (price remaining : Int) (notional : Nat) :
    Extends sim (sim.tapHidden cfg s price remaining notional).1 :=
  ⟨tapLoop_grows cfg s price sim.hidden { log := sim.log, remaining, notional }, rfl,
    tapLoop_decisions cfg s price sim.hidden { log := sim.log, remaining, notional }⟩

/-- An execution in the book queues a fill where the victim is a tracked order. -/
theorem reduceAndSync_extends (s : Side) (head : Nat) (price take : Int) (front : Bool)
    (hh : GenHandle) : Extends sim (sim.reduceAndSync cfg s head price take front hh) := by
  unfold reduceAndSync
  generalize (if front then sim.book.executeFront s price take else sim.book.execute head take) = r
  dsimp only
  generalize (if front then r.victim.getD head else head) = victim
  split
  · exact ⟨FillLog.grows_execute _ _, rfl, rfl⟩
  · exact ⟨(FillLog.grows_execute _ _).trans (FillLog.grows_emitFill _ _ _ _ _ _), rfl, rfl⟩

/-- A replenishment queues nothing. -/
theorem replenishIfIceberg_extends (head : Nat) : Extends sim (sim.replenishIfIceberg head) := by
  unfold replenishIfIceberg
  repeat' split
  all_goals exact .still rfl rfl

/-- The passes over a level queue one fill after another. -/
theorem consumeLoop_extends (s : Side) (price q : Int) (fuel : Nat) (applied : Int)
    (sim : ExecutionSimulator k) :
    Extends sim (consumeLoop cfg s price q fuel applied sim).1 := by
  induction fuel generalizing applied sim with
  | zero => exact .refl _
  | succ fuel ih =>
      rw [consumeLoop]
      split
      · exact .refl _
      dsimp only
      split
      · exact .refl _
      · refine Extends.trans ?_ (ih _ _)
        exact (reduceAndSync_extends sim cfg s _ price _ true _).trans
          (replenishIfIceberg_extends _ _)

/-- A consumed level queues its fills, and its print behind them. -/
theorem consumeLevel_extends (s : Side) (price q : Int) :
    Extends sim (sim.consumeLevel cfg s price q) := by
  unfold consumeLevel
  dsimp only
  have hloop := consumeLoop_extends cfg s price q q.toNat 0 { sim with
    track := ({ sim.track with recentSync := [] } : TrackTable).subtractLevel sim.book s price q
      false }
  split
  · exact ⟨hloop.log.trans (FillLog.grows_emitTrade _ _ _ _), hloop.wheel, hloop.decisions⟩
  · exact ⟨hloop.log, hloop.wheel, hloop.decisions⟩

/-- Moving the pegged entries queues nothing. -/
theorem repegHidden_extends : Extends sim sim.repegHidden := .still rfl rfl

/-- An external execution queues the displayed part and then the hidden one. -/
theorem applyExternal_extends (s : Side) (price qty : Int) :
    Extends sim (sim.applyExternal cfg s price qty) := by
  unfold applyExternal
  split
  · exact .refl _
  dsimp only
  have hlevel := (repegHidden_extends sim).trans (consumeLevel_extends sim.repegHidden cfg s price
    (min qty (sim.repegHidden.book.qtyAt s price)))
  split
  · exact hlevel.trans (tapHidden_extends _ cfg _ _ _ _)
  · exact hlevel

/-- A depletion queues what each level it reaches does. -/
theorem depleteLoop_extends (s : Side) (scaled : Nat → Nat → Int) (fuel lvl : Nat) (tick : Int)
    (rem : Nat) (sim : ExecutionSimulator k) :
    Extends sim (depleteLoop cfg s scaled fuel lvl tick rem sim) := by
  induction fuel generalizing lvl tick rem sim with
  | zero => exact .refl _
  | succ fuel ih =>
      rw [depleteLoop]
      split
      · exact .refl _
      · dsimp only
        generalize (if 0 < sim.book.qtyAt s tick then
          min (max 1 (scaled lvl rem)) (sim.book.qtyAt s tick) else 0) = applied
        refine Extends.trans ?_ (ih _ _ _ _)
        split
        · exact consumeLevel_extends sim cfg s tick _
        · exact .refl _

/-- A depletion of one side, in either of its shapes. -/
theorem applyDepletion_extends (s : Side) (qty : Nat) (scaled : Nat → Nat → Int) :
    Extends sim (sim.applyDepletion cfg s qty scaled) := by
  unfold applyDepletion
  split
  · exact .refl _
  split
  · dsimp only
    split
    · exact .refl _
    split
    · exact .refl _
    · exact consumeLevel_extends _ _ _ _ _
  · exact depleteLoop_extends cfg s scaled _ _ _ _ sim

/-- External time depletes the bids and then the offers. -/
theorem advanceTime_extends (dtNs drawnBuy drawnSell : Nat) (scaled : Side → Nat → Nat → Int) :
    Extends sim (sim.advanceTime cfg dtNs drawnBuy drawnSell scaled) := by
  unfold advanceTime
  split
  · exact .refl _
  · dsimp only
    refine Extends.trans ?_ (applyDepletion_extends _ cfg .sell drawnSell (scaled .sell))
    refine Extends.trans ?_ (applyDepletion_extends _ cfg .buy drawnBuy (scaled .buy))
    exact ⟨FillLog.grows_of_same rfl rfl rfl (Nat.le_refl _), rfl, rfl⟩

/-- A cancel queues nothing; it moves the counter of the stamps. -/
theorem cancelStrategy_extends (ref : Nat) : Extends sim (sim.cancelStrategy ref).2 := by
  unfold cancelStrategy
  dsimp only
  repeat' split
  all_goals exact ⟨FillLog.grows_of_same rfl rfl rfl (by dsimp only; omega), rfl, rfl⟩

/-- A replace queues nothing; it moves the counter of the stamps. -/
theorem replaceStrategy_extends (orig fresh : Nat) (qty price : Int) :
    Extends sim (sim.replaceStrategy orig fresh qty price).2 := by
  unfold replaceStrategy
  dsimp only
  repeat' split
  all_goals exact ⟨FillLog.grows_of_same rfl rfl rfl (by dsimp only; omega), rfl, rfl⟩

end ExecutionSimulator

namespace Sweep

open ExecutionSimulator

variable {k : Nat} {cfg : SimConfig} {w w' : Sweep k}

/-- Noting what a pass has taken queues nothing. -/
theorem noteTake_extends (opp : Side) (touch qty : Int) :
    Extends w.sim (w.noteTake opp touch qty).sim := by
  unfold noteTake
  dsimp only
  repeat' split
  all_goals exact .still rfl rfl

/-- A sweep's tap queues fills. -/
theorem tap_extends (opp : Side) (price : Int) : Extends w.sim (w.tap cfg opp price).sim :=
  tapHidden_extends w.sim cfg opp price _ _

/-- The executed head queues its fill. -/
theorem matchHead_extends (opp : Side) (touch : Int) (head : Nat) (hh : GenHandle) (take : Int) :
    Extends w.sim (w.matchHead cfg opp touch head hh take).sim :=
  ((noteTake_extends opp touch take).trans (reduceAndSync_extends _ cfg opp head touch take true hh)).trans
    (replenishIfIceberg_extends _ head)

/-- The executed head, and the tap behind it. -/
theorem executeHead_extends (opp : Side) (touch : Int) (head : Nat) (hh : GenHandle)
    (headRem : Int) : Extends w.sim (w.executeHead cfg opp touch head hh headRem).sim := by
  have hmatch : Extends w.sim (w.matchHead cfg opp touch head hh (min w.remaining headRem)).sim :=
    matchHead_extends opp touch head hh _
  rw [executeHead_eq]
  split
  · exact hmatch.trans (tap_extends _ _)
  · exact hmatch

/-- The resting order's part of a decrement. -/
theorem decrementVictim_extends (opp : Side) (touch : Int) (head : Nat) (hh : GenHandle)
    (headRem : Int) : Extends w.sim (w.decrementVictim cfg opp touch head hh headRem).sim := by
  refine Extends.trans ?_ (replenishIfIceberg_extends _ head)
  refine Extends.trans ?_ (noteTake_extends _ _ _)
  exact reduceAndSync_extends _ cfg _ _ _ _ _ _

/-- A resting order that is taken out is no record. -/
theorem removeVictim_extends (opp : Side) (touch : Int) (head : Nat) (hh : GenHandle)
    (headRem : Int) : Extends w.sim (w.removeVictim opp touch head hh headRem).sim := by
  refine Extends.trans ?_ (noteTake_extends _ _ _)
  exact .still rfl rfl

/-- A pass that goes on has queued fills at most. -/
theorem step_extends (order : SimInbound) (h : w.step cfg order = .more w') :
    Extends w.sim w'.sim := by
  unfold step at h
  dsimp only at h
  split at h
  · split at h
    · cases h
    · cases h
      exact tap_extends _ _
  split at h
  · cases h
  split at h
  · cases h
  split at h
  · cases h
  split at h
  · split at h
    · cases h
      exact executeHead_extends _ _ _ _ _
    · cases h
    · cases h
      exact removeVictim_extends _ _ _ _ _
    · cases h
      exact decrementVictim_extends _ _ _ _ _
  · cases h
    exact executeHead_extends _ _ _ _ _

/-- **A sweep only queues fills**, by induction on its passes. -/
theorem loop_extends (order : SimInbound) (fuel : Nat) (w : Sweep k) :
    Extends w.sim (loop cfg order fuel w).1.sim := by
  induction fuel generalizing w with
  | zero => exact .refl _
  | succ fuel ih =>
      rw [loop]
      split
      · exact .refl _
      · cases hs : w.step cfg order with
        | more w' => exact (step_extends order hs).trans (ih w')
        | leave => exact .refl _
        | stpStop => exact .refl _

end Sweep

namespace ExecutionSimulator

variable {k : Nat} (sim : ExecutionSimulator k) (cfg : SimConfig)

/-- A sweep, with the positions that are brought up to date behind it. -/
theorem cross_extends (order : SimInbound) (remaining : Int) :
    Extends sim (sim.cross cfg order remaining).sim := by
  rw [cross_eq]
  have hloop : Extends (sim.crossStart remaining).sim (sim.crossLoop cfg order remaining).1.sim :=
    Sweep.loop_extends order (sim.crossStart remaining).fuel (sim.crossStart remaining)
  have hrun : Extends sim (sim.crossLoop cfg order remaining).1.sim :=
    ⟨hloop.log, hloop.wheel, hloop.decisions⟩
  split
  · exact hrun
  · exact ⟨hrun.log, hrun.wheel, hrun.decisions⟩

/-- From `sim` to `sim'` one decision has been made, about the order `ref`. -/
structure Answers (sim sim' : ExecutionSimulator k) (ref : Nat) : Prop where
  log : sim.log.Grows sim'.log
  wheel : sim'.wheel = sim.wheel
  decision : ∃ d, sim'.log.decisions = sim.log.decisions ++ [d] ∧ d.ref = ref

/-- What is queued before a decision is queued before its record. -/
theorem Extends.answers {sim mid sim' : ExecutionSimulator k} {ref : Nat} (h : Extends sim mid)
    (h' : Answers mid sim' ref) : Answers sim sim' ref := by
  obtain ⟨d, hd, href⟩ := h'.decision
  rw [h.decisions] at hd
  exact ⟨h.log.trans h'.log, h'.wheel.trans h.wheel, d, hd, href⟩

/-- A decision that is pushed answers its order. -/
theorem pushDecision_answers {d : SimDecision} (hd : d.filledQty < 2 ^ 32) (vis : Nat)
    (order : SimInbound) : Answers sim (sim.pushDecision d vis order) order.ref :=
  ⟨FillLog.grows_pushDecision _ hd _ _ _, rfl, _, rfl, rfl⟩

/-- The remainder of an order is settled first; its decision is the last record. -/
theorem finish_answers (order : SimInbound) (remaining : Int) {out : SimDecision}
    (hout : out.filledQty < 2 ^ 32) (vis : Nat) :
    Answers sim (sim.finish order remaining out vis) order.ref := by
  unfold finish
  dsimp only
  repeat' split
  all_goals
    refine Extends.answers (Extends.still ?_ ?_) (pushDecision_answers _ ?_ _ _)
    · rfl
    · rfl
    · exact hout

/-- A crossing order is answered behind its fills. -/
theorem sweep_answers (order : SimInbound) (decisionTs vis : Nat) :
    Answers sim (sim.sweep cfg order decisionTs vis) order.ref := by
  rw [sweep_eq]
  have hcross := cross_extends sim cfg order order.qty
  have hcount : Extends sim ((sim.cross cfg order order.qty).sim.counted order
      (sim.cross cfg order order.qty).filled) :=
    ⟨hcross.log.trans (FillLog.grows_of_same rfl rfl rfl (Nat.le_refl _)), hcross.wheel,
      hcross.decisions⟩
  split
  · exact hcount.answers (pushDecision_answers _ (FillLog.toU32_lt _) _ _)
  · exact hcount.answers (finish_answers _ _ _ (FillLog.toU32_lt _) _)

/-- An order is answered on each path: refused, swept or rested. -/
theorem decideResolved_answers (order : SimInbound) (decisionTs : Nat) :
    Answers sim (sim.decideResolved cfg order decisionTs) order.ref := by
  have hdraw : Extends sim { sim with log := (sim.log.drawJitter cfg).2 } :=
    ⟨FillLog.grows_drawJitter _ cfg, rfl, rfl⟩
  refine hdraw.answers ?_
  unfold decideResolved
  dsimp only
  have hnone : (0 : Nat) < 2 ^ 32 := by decide
  split
  · exact pushDecision_answers _ hnone _ _
  split
  · exact pushDecision_answers _ hnone _ _
  split
  · exact sweep_answers _ _ _ _ _
  · exact finish_answers _ _ _ hnone _

/-- **An order that reaches its decision point is answered**, once. -/
theorem decide_answers (order : SimInbound) (decisionTs : Nat) :
    Answers sim (sim.decide cfg order decisionTs) order.ref := by
  have hopen : Extends sim (sim.withLog (fun l => { l with nowHint := decisionTs })).repegHidden :=
    ⟨FillLog.grows_of_same rfl rfl rfl (Nat.le_refl _), rfl, rfl⟩
  refine hopen.answers ?_
  have href := (resolvePeg_ref order).1
  unfold decide
  dsimp only
  rw [← href]
  generalize (sim.withLog (fun l => { l with nowHint := decisionTs })).repegHidden = sim'
  split
  · split
    · have hnone : (0 : Nat) < 2 ^ 32 := by decide
      exact ⟨(FillLog.grows_drawJitter _ cfg).trans (FillLog.grows_pushDecision _ hnone _ _ _), rfl,
        _, rfl, rfl⟩
    · exact decideResolved_answers _ _ _ _
  · exact decideResolved_answers _ _ _ _

/-- The scheduler's next order is answered, if there is one. -/
theorem decideNext_grows : sim.log.Grows (sim.decideNext cfg).log := by
  unfold decideNext
  split
  · exact .refl _
  · exact (decide_answers { sim with wheel := sim.wheel.popMin.2 } cfg _ _).log

/-! ## The passes of `run_until` -/

/-- A decision takes its order from the scheduler. -/
theorem decideNext_heapSize (h : ¬ sim.wheel.empty) :
    (sim.decideNext cfg).wheel.heapSize = sim.wheel.heapSize - 1 := by
  have hpop := Scheduler.popMin_holds (w := sim.wheel) (P := fun _ => True) (fun _ _ => trivial) h
  have hwheel := (decide_answers { sim with wheel := sim.wheel.popMin.2 } cfg
    sim.wheel.popMin.1.order sim.wheel.popMin.1.visibleTs).wheel
  unfold decideNext
  rw [if_neg h, hwheel]
  exact hpop.2.2

/-- A pass of `run_until`, where something is due. -/
def Due (untilTs : Nat) : Prop := ¬ sim.wheel.empty ∧ sim.wheel.peekMinTs ≤ untilTs

/-- Where nothing is due, nothing happens. -/
theorem runUntil_idle {untilTs : Nat} (h : ¬ sim.Due untilTs) : sim.runUntil cfg untilTs = sim := by
  unfold runUntil
  cases sim.wheel.heapSize with
  | zero => rfl
  | succ n =>
      rw [runLoop]
      exact if_neg h

/-- Where something is due, it is decided first. -/
theorem runUntil_due {untilTs : Nat} (h : sim.Due untilTs) :
    sim.runUntil cfg untilTs = (sim.decideNext cfg).runUntil cfg untilTs := by
  have hne : sim.wheel.heapSize ≠ 0 := h.1
  have hsize := decideNext_heapSize sim cfg h.1
  unfold runUntil
  rw [hsize]
  cases hn : sim.wheel.heapSize with
  | zero => exact absurd hn hne
  | succ n =>
      rw [runLoop]
      refine (if_pos h).trans ?_
      unfold decideNext
      rw [if_neg h.1]
      rfl

/-- The passes of `run_until` add to the logs one after another. -/
theorem runUntil_grows (untilTs : Nat) : sim.log.Grows (sim.runUntil cfg untilTs).log := by
  obtain ⟨n, hn⟩ := runUntil_passes sim cfg untilTs
  rw [hn]
  clear hn
  induction n with
  | zero => exact .refl _
  | succ n ih =>
      rw [Function.iterate_succ_apply']
      exact ih.trans (decideNext_grows _ cfg)

/-- A submission draws a jitter and queues nothing. -/
theorem submit_grows (order : SimInbound) (arrivalTs : Nat) :
    sim.log.Grows (sim.submit cfg order arrivalTs).2.log := FillLog.grows_drawJitter _ cfg

/-- **A call queues occurrences** in the order of their stamps and loses none. -/
theorem call_grows (c : SimCall) : sim.log.Grows (sim.call cfg c).log := by
  cases c with
  | seedExternal ref s qty price => exact .refl _
  | seedIceberg spec =>
      show sim.log.Grows (sim.seedIceberg spec).2.log
      unfold seedIceberg
      dsimp only
      split <;> exact .refl _
  | submit order arrivalTs => exact submit_grows sim cfg order arrivalTs
  | decideNext => exact decideNext_grows sim cfg
  | applyExternal s price qty => exact (applyExternal_extends sim cfg s price qty).log
  | advanceTime dtNs drawnBuy drawnSell scaled =>
      exact (advanceTime_extends sim cfg dtNs drawnBuy drawnSell scaled).log
  | cancelStrategy ref => exact (cancelStrategy_extends sim ref).log
  | replaceStrategy orig fresh qty price =>
      exact (replaceStrategy_extends sim orig fresh qty price).log
  | setHalted h => exact .refl _
  | setStpMode m => exact .refl _

end ExecutionSimulator

end Mog
