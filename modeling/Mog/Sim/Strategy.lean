import Mathlib.Order.WithBot
import Mog.Sim.Past

/-!
# The strategy runner

`StrategyRunner` drives a simulator and calls a strategy's hooks. The simulator queues
what happens in three logs; the runner merges them by stamp after each step, calls one
hook for each record, and clears them.

What a hook does is the strategy's business; a run of the runner is the list of the hook
calls it makes.
-/

namespace Mog

structure BookUpdate where
  ts : Nat
  bidPx : Int
  bidQty : Nat
  askPx : Int
  askQty : Nat
deriving DecidableEq, Repr

structure OrderAck where
  ts : Nat
  seq : Nat
  ref : Nat
  filled : Nat
  cancelled : Nat
  notional : Nat
  fee : Int
  kind : Nat
  buy : Nat
deriving DecidableEq, Repr

structure OrderFill where
  ts : Nat
  seq : Nat
  ref : Nat
  px : Int
  qty : Nat
  fee : Int
  buy : Nat
deriving DecidableEq, Repr

/-- The number a decision's kind goes by. -/
def DecisionKind.code : DecisionKind → Nat
  | rested => 0
  | filled => 1
  | partialThenRest => 2
  | partialThenCancelled => 3
  | rejectedWouldCross => 4
  | rejectedStp => 5
  | rejectedUnknown => 6

/-- A call of one of the strategy's hooks. -/
inductive Hook where
  | onOrderBookUpdate (u : BookUpdate)
  | onTrade (t : SimTrade)
  | onOrderFill (f : OrderFill)
  | onOrderAck (a : OrderAck)
deriving DecidableEq

namespace Hook

/-- The fill hook's argument. -/
def ofReport (r : SimFillReport) : Hook :=
  onOrderFill { ts := r.visibleTs, seq := r.seq, ref := r.ref, px := r.priceTicks, qty := r.qty
                fee := r.fee, buy := if r.side = .buy then 1 else 0 }

/-- The ack hook's argument. -/
def ofDecision (d : SimDecision) : Hook :=
  onOrderAck { ts := d.visibleTs, seq := d.seq, ref := d.ref, filled := d.filledQty
               cancelled := d.cancelledQty, notional := d.filledNotional, fee := d.fee
               kind := d.kind.code, buy := if d.side = .buy then 1 else 0 }

/-- The one hook call a record is due. -/
def ofOccurrence : Occurrence → Hook
  | .trade t => onTrade t
  | .fill r => ofReport r
  | .decision d => ofDecision d

/-- The hooks that deliver records, all but the book updates. -/
def Delivers : Hook → Prop
  | onOrderBookUpdate _ => False
  | _ => True

instance (h : Hook) : Decidable h.Delivers := by
  cases h <;> unfold Delivers <;> infer_instance

end Hook

/-- The hook calls among `hooks` that deliver records. -/
def deliveries (hooks : List Hook) : List Hook := hooks.filter fun h => h.Delivers

structure StrategyRunner (kPageShift : Nat) where
  sim : ExecutionSimulator kPageShift
  clock : Nat := 0
  lastBid : Int := kNoTick
  lastAsk : Int := kNoTick
  lastBidQty : Nat := 0
  lastAskQty : Nat := 0

namespace StrategyRunner

open ExecutionSimulator

variable {k : Nat}

def init (cfg : SimConfig) : StrategyRunner k := { sim := ExecutionSimulator.init cfg }

/-- The displayed quantity at the touch of a side, none where the side is empty. -/
def touchQty (r : StrategyRunner k) (s : Side) : Nat :=
  if r.sim.book.best s = kNoTick then 0
  else (r.sim.book.qtyAt s (r.sim.book.best s) % 2 ^ 64).toNat

/-- Report the top of the book where it has changed. -/
def emitBookUpdate (r : StrategyRunner k) : List Hook × StrategyRunner k :=
  let bidPx := r.sim.book.best .buy
  let askPx := r.sim.book.best .sell
  let bidQty := r.touchQty .buy
  let askQty := r.touchQty .sell
  if bidPx = r.lastBid ∧ askPx = r.lastAsk ∧ bidQty = r.lastBidQty ∧ askQty = r.lastAskQty then
    ([], r)
  else
    ([.onOrderBookUpdate { ts := r.clock, bidPx, bidQty, askPx, askQty }],
      { r with lastBid := bidPx, lastAsk := askPx, lastBidQty := bidQty, lastAskQty := askQty })

/-- The stamp of a log's next record; an exhausted log is past every stamp. -/
def nextSeq {α : Type} (seq : α → Nat) : List α → WithTop Nat
  | [] => ⊤
  | a :: _ => WithTop.some (seq a)

/-- The merge of `drain_pump`; every pass takes one record. -/
def pumpLoop : Nat → List SimTrade → List SimFillReport → List SimDecision → List Hook
  | 0, _, _, _ => []
  | fuel + 1, trades, reports, decisions =>
      let st := nextSeq SimTrade.seq trades
      let sr := nextSeq SimFillReport.seq reports
      let sd := nextSeq SimDecision.seq decisions
      if st ≤ sr ∧ st ≤ sd then
        match trades with
        | [] => []
        | t :: trades => .onTrade t :: pumpLoop fuel trades reports decisions
      else if sr ≤ sd then
        match reports with
        | [] => []
        | r :: reports => .ofReport r :: pumpLoop fuel trades reports decisions
      else
        match decisions with
        | [] => []
        | d :: decisions => .ofDecision d :: pumpLoop fuel trades reports decisions

/-- The hook calls for what a log holds. -/
def pump (l : FillLog) : List Hook :=
  pumpLoop (l.trades.length + l.reports.length + l.decisions.length) l.trades l.reports l.decisions

def drainPump (r : StrategyRunner k) : List Hook × StrategyRunner k :=
  (pump r.sim.log, { r with sim := r.sim.clearEvents })

/-- The end of `advance_time` and of `run_until`. -/
def report (r : StrategyRunner k) : List Hook × StrategyRunner k :=
  let update := r.emitBookUpdate
  let pumped := update.2.drainPump
  (update.1 ++ pumped.1, pumped.2)

variable (cfg : SimConfig)

/-- Submits an order at the current clock. -/
def submit (r : StrategyRunner k) (order : SimInbound) : StrategyRunner k :=
  { r with sim := (r.sim.submit cfg order r.clock).2 }

/-- Advances simulated time and decides what is due. The depletion draws are arguments. -/
def advanceTime (r : StrategyRunner k) (dtNs drawnBuy drawnSell : Nat)
    (scaled : Side → Nat → Nat → Int) : List Hook × StrategyRunner k :=
  let sim := r.sim.advanceTime cfg dtNs drawnBuy drawnSell scaled
  let clock := (r.clock + dtNs) % 2 ^ 64
  ({ r with sim := sim.runUntil cfg clock, clock } : StrategyRunner k).report

/-- Decides what is due without advancing external time. -/
def runUntil (r : StrategyRunner k) (untilTs : Nat) : List Hook × StrategyRunner k :=
  ({ r with sim := r.sim.runUntil cfg untilTs } : StrategyRunner k).report

/-- What the runner's host may call; `simulator` is a call through `sim()`. -/
inductive Call where
  | submit (order : SimInbound)
  | advanceTime (dtNs drawnBuy drawnSell : Nat) (scaled : Side → Nat → Nat → Int)
  | runUntil (untilTs : Nat)
  | simulator (c : SimCall)

/-- The hooks a call makes the runner call, and the runner it leaves. -/
def call (r : StrategyRunner k) : Call → List Hook × StrategyRunner k
  | .submit order => ([], r.submit cfg order)
  | .advanceTime dtNs drawnBuy drawnSell scaled => r.advanceTime cfg dtNs drawnBuy drawnSell scaled
  | .runUntil untilTs => r.runUntil cfg untilTs
  | .simulator c => ([], { r with sim := r.sim.call cfg c })

/-- The hooks of a run, in the order of their calls, and the runner it leaves. -/
def run : List Call → StrategyRunner k → List Hook × StrategyRunner k
  | [], r => ([], r)
  | c :: cs, r =>
      let first := r.call cfg c
      let rest := run cs first.2
      (first.1 ++ rest.1, rest.2)

/-! ## What the simulator produces

The same calls on a simulator whose logs nobody clears: its logs hold every record that
it has ever produced.
-/

/-- What a call at time `now` makes the simulator do. -/
def Call.simulate (now : Nat) : Call → ExecutionSimulator k → ExecutionSimulator k
  | .submit order, sim => (sim.submit cfg order now).2
  | .advanceTime dtNs drawnBuy drawnSell scaled, sim =>
      (sim.advanceTime cfg dtNs drawnBuy drawnSell scaled).runUntil cfg ((now + dtNs) % 2 ^ 64)
  | .runUntil untilTs, sim => sim.runUntil cfg untilTs
  | .simulator c, sim => sim.call cfg c

/-- The clock after a call at time `now`. -/
def Call.clock (now : Nat) : Call → Nat
  | .advanceTime dtNs _ _ _ => (now + dtNs) % 2 ^ 64
  | _ => now

/-- The simulator after the calls of a run that clears nothing. -/
def produced : List Call → Nat → ExecutionSimulator k → ExecutionSimulator k
  | [], _, sim => sim
  | c :: cs, now, sim => produced cs (c.clock now) (c.simulate cfg now sim)

/-- The calls after which the hooks are called. -/
def Call.Pumps : Call → Prop
  | .advanceTime _ _ _ _ => True
  | .runUntil _ => True
  | _ => False

instance (c : Call) : Decidable c.Pumps := by
  cases c <;> unfold Call.Pumps <;> infer_instance

/-! ## The merge -/

/-- A log holds the occurrences `os` and nothing else. -/
structure Holds (l : FillLog) (os : List Occurrence) : Prop where
  trades : l.trades = os.filterMap Occurrence.trade?
  reports : l.reports = os.filterMap Occurrence.fill?
  decisions : l.decisions = os.filterMap Occurrence.decision?

/-- What comes later in one of the logs is stamped later. -/
theorem lt_nextSeq {α : Type} (seq : α → Nat) (get? : Occurrence → Option α)
    (hget : ∀ o a, get? o = some a → o.seq = seq a) {n : Nat} {os : List Occurrence}
    (h : ∀ o ∈ os, n < o.seq) : WithTop.some n < nextSeq seq (os.filterMap get?) := by
  cases hl : os.filterMap get? with
  | nil => exact WithTop.coe_lt_top n
  | cons a l =>
      have hmem : a ∈ os.filterMap get? := by rw [hl]; exact List.mem_cons_self
      obtain ⟨o, ho, hoa⟩ := List.mem_filterMap.mp hmem
      show WithTop.some n < WithTop.some (seq a)
      rw [← hget o a hoa]
      exact WithTop.coe_lt_coe.mpr (h o ho)

/-- **The pump calls the hooks in the order of the stamps**, one for each record. -/
theorem pumpLoop_eq {os : List Occurrence} (hs : os.Pairwise fun a b => a.seq < b.seq)
    {fuel : Nat} (hf : os.length ≤ fuel) :
    pumpLoop fuel (os.filterMap Occurrence.trade?) (os.filterMap Occurrence.fill?)
      (os.filterMap Occurrence.decision?) = os.map Hook.ofOccurrence := by
  have ht : ∀ (o : Occurrence) t, o.trade? = some t → o.seq = t.seq := by
    intro o t h
    cases o <;> cases h
    rfl
  have hr : ∀ (o : Occurrence) r, o.fill? = some r → o.seq = r.seq := by
    intro o r h
    cases o <;> cases h
    rfl
  have hd : ∀ (o : Occurrence) d, o.decision? = some d → o.seq = d.seq := by
    intro o d h
    cases o <;> cases h
    rfl
  induction os generalizing fuel with
  | nil => cases fuel <;> rfl
  | cons o os ih =>
      obtain ⟨habove, hs'⟩ := List.pairwise_cons.mp hs
      cases fuel with
      | zero => exact absurd hf (by simp)
      | succ fuel =>
          have hrest := ih hs' (Nat.le_of_succ_le_succ hf)
          have htrade := lt_nextSeq SimTrade.seq Occurrence.trade? ht habove
          have hreport := lt_nextSeq SimFillReport.seq Occurrence.fill? hr habove
          have hdecision := lt_nextSeq SimDecision.seq Occurrence.decision? hd habove
          rw [List.map_cons, ← hrest]
          -- The first occurrence heads its own log; the other two start later.
          cases o with
          | trade t => exact if_pos ⟨hreport.le, hdecision.le⟩
          | fill r =>
              refine (if_neg fun h => absurd h.1 (not_le_of_gt htrade)).trans ?_
              exact if_pos hdecision.le
          | decision d =>
              refine (if_neg fun h => absurd h.2 (not_le_of_gt htrade)).trans ?_
              exact if_neg (not_le_of_gt hreport)

theorem pump_eq {l : FillLog} {os : List Occurrence} (h : Holds l os)
    (hs : os.Pairwise fun a b => a.seq < b.seq) : pump l = os.map Hook.ofOccurrence := by
  unfold pump
  rw [h.trades, h.reports, h.decisions]
  refine pumpLoop_eq hs ?_
  clear h hs
  induction os with
  | nil => exact Nat.le_refl _
  | cons o os ih =>
      cases o <;>
        simp only [List.filterMap_cons, Occurrence.trade?, Occurrence.fill?, Occurrence.decision?,
          List.length_cons] <;> omega

theorem Holds.append {l l' : FillLog} {os os' : List Occurrence} (h : Holds l os)
    (hq : l.Queues l' os') : Holds l' (os ++ os') where
  trades := by rw [hq.trades, h.trades, List.filterMap_append]
  reports := by rw [hq.reports, h.reports, List.filterMap_append]
  decisions := by rw [hq.decisions, h.decisions, List.filterMap_append]

theorem deliveries_append (a b : List Hook) :
    deliveries (a ++ b) = deliveries a ++ deliveries b := List.filter_append ..

/-- Every record's hook delivers it. -/
theorem deliveries_map (os : List Occurrence) :
    deliveries (os.map Hook.ofOccurrence) = os.map Hook.ofOccurrence := by
  refine List.filter_eq_self.mpr fun h hh => ?_
  obtain ⟨o, -, rfl⟩ := List.mem_map.mp hh
  cases o <;> exact decide_eq_true trivial

/-! ## What one call does -/

variable {cfg}

theorem emitBookUpdate_fst (r : StrategyRunner k) : deliveries r.emitBookUpdate.1 = [] := by
  unfold emitBookUpdate
  dsimp only
  split
  · rfl
  · rfl

/-- The update leaves the present top of the book remembered, reported or not. -/
theorem emitBookUpdate_snd (r : StrategyRunner k) :
    r.emitBookUpdate.2 = { r with
      lastBid := r.sim.book.best .buy
      lastAsk := r.sim.book.best .sell
      lastBidQty := r.touchQty .buy
      lastAskQty := r.touchQty .sell } := by
  unfold emitBookUpdate
  dsimp only
  split
  · rename_i hsame
    obtain ⟨h1, h2, h3, h4⟩ := hsame
    rw [h1, h2, h3, h4]
  · rfl

theorem report_fst (r : StrategyRunner k) : deliveries r.report.1 = deliveries (pump r.sim.log) := by
  show deliveries (r.emitBookUpdate.1 ++ pump r.emitBookUpdate.2.sim.log) = _
  rw [deliveries_append, emitBookUpdate_fst, emitBookUpdate_snd]
  rfl

theorem report_snd (r : StrategyRunner k) :
    r.report.2 =
      { sim := r.sim.clearEvents
        clock := r.clock
        lastBid := r.sim.book.best .buy
        lastAsk := r.sim.book.best .sell
        lastBidQty := r.touchQty .buy
        lastAskQty := r.touchQty .sell } := by
  show (r.emitBookUpdate.2.drainPump).2 = _
  rw [emitBookUpdate_snd]
  rfl

theorem simulate_withPast (p : FillLog) (now : Nat) (c : Call) (sim : ExecutionSimulator k) :
    c.simulate cfg now (sim.withPast p) = (c.simulate cfg now sim).withPast p := by
  cases c with
  | submit order => exact call_withPast p sim cfg (.submit order now)
  | advanceTime dtNs drawnBuy drawnSell scaled =>
      show ((sim.withPast p).advanceTime cfg dtNs drawnBuy drawnSell scaled).runUntil cfg _ = _
      rw [advanceTime_withPast, runUntil_withPast]
      rfl
  | runUntil untilTs => exact runUntil_withPast p sim cfg untilTs
  | simulator c => exact call_withPast p sim cfg c

theorem simulate_grows (now : Nat) (c : Call) (sim : ExecutionSimulator k) :
    sim.log.Grows (c.simulate cfg now sim).log := by
  cases c with
  | submit order => exact submit_grows sim cfg order now
  | advanceTime dtNs drawnBuy drawnSell scaled =>
      exact (advanceTime_extends sim cfg dtNs drawnBuy drawnSell scaled).log.trans
        (runUntil_grows _ cfg _)
  | runUntil untilTs => exact runUntil_grows sim cfg untilTs
  | simulator c => exact call_grows sim cfg c

theorem call_quiet {c : Call} (hc : ¬ c.Pumps) (r : StrategyRunner k) :
    (r.call cfg c).1 = [] ∧ (r.call cfg c).2.sim = c.simulate cfg r.clock r.sim
      ∧ (r.call cfg c).2.clock = c.clock r.clock := by
  cases c with
  | submit order => exact ⟨rfl, rfl, rfl⟩
  | advanceTime dtNs drawnBuy drawnSell scaled => exact absurd trivial hc
  | runUntil untilTs => exact absurd trivial hc
  | simulator c => exact ⟨rfl, rfl, rfl⟩

theorem call_pumps {c : Call} (hc : c.Pumps) (r : StrategyRunner k) :
    deliveries (r.call cfg c).1 = deliveries (pump (c.simulate cfg r.clock r.sim).log)
      ∧ (r.call cfg c).2.sim = (c.simulate cfg r.clock r.sim).clearEvents
      ∧ (r.call cfg c).2.clock = c.clock r.clock := by
  cases c with
  | submit order => exact absurd hc nofun
  | advanceTime dtNs drawnBuy drawnSell scaled =>
      refine ⟨report_fst _, ?_, ?_⟩
      · exact congrArg StrategyRunner.sim (report_snd _)
      · exact congrArg StrategyRunner.clock (report_snd _)
  | runUntil untilTs =>
      refine ⟨report_fst _, ?_, ?_⟩
      · exact congrArg StrategyRunner.sim (report_snd _)
      · show ({ r with sim := r.sim.runUntil cfg untilTs } : StrategyRunner k).report.2.clock = _
        rw [report_snd]
        rfl
  | simulator c => exact absurd hc nofun

/-! ## Whole runs -/

theorem queues_withPast {l l' : FillLog} {os : List Occurrence} (h : l.Queues l' os)
    (p : FillLog) : (FillLog.withPast p l).Queues (FillLog.withPast p l') os where
  trades := by
    show p.trades ++ l'.trades = p.trades ++ l.trades ++ _
    rw [h.trades, List.append_assoc]
  reports := by
    show p.reports ++ l'.reports = p.reports ++ l.reports ++ _
    rw [h.reports, List.append_assoc]
  decisions := by
    show p.decisions ++ l'.decisions = p.decisions ++ l.decisions ++ _
    rw [h.decisions, List.append_assoc]
  seq_le := h.seq_le
  above := h.above
  below := h.below
  sorted := h.sorted

/-- What the simulator has produced so far in `made`, of which `os` has been delivered in `hooks`
and `pending` waits in the logs of the runner's simulator. -/
structure Delivered (base : FillLog) (made : ExecutionSimulator k) (hooks : List Hook)
    (r : StrategyRunner k) (os pending : List Occurrence) : Prop where
  queued : base.Queues made.log (os ++ pending)
  hooks : deliveries hooks = os.map Hook.ofOccurrence
  pending : Holds r.sim.log pending
  /-- The runner's simulator is `made`, without what has been cleared. -/
  past : ∃ p, Holds p os ∧ made = r.sim.withPast p

/-- What is pending and what is queued next are one list in the order of the stamps. -/
theorem Delivered.sorted {base : FillLog} {made : ExecutionSimulator k} {hooks : List Hook}
    {r : StrategyRunner k} {os pending new : List Occurrence}
    (h : Delivered base made hooks r os pending) {l : FillLog} (hnew : r.sim.log.Queues l new) :
    (pending ++ new).Pairwise fun a b => a.seq < b.seq := by
  obtain ⟨p, -, hmade⟩ := h.past
  have hqueued := h.queued
  rw [hmade] at hqueued
  have hall := (hqueued.trans (queues_withPast hnew p)).sorted
  rw [List.append_assoc] at hall
  exact (List.pairwise_append.mp hall).2.1

/-- A cleared simulator, with all that was in its logs before. -/
theorem Delivered.cleared {p : FillLog} {os pending : List Occurrence} {sim : ExecutionSimulator k}
    (hp : Holds p os) (hsim : Holds sim.log pending) :
    ∃ p', Holds p' (os ++ pending) ∧ sim.withPast p = sim.clearEvents.withPast p' := by
  refine ⟨FillLog.withPast p sim.log, ⟨?_, ?_, ?_⟩, ?_⟩
  · show p.trades ++ sim.log.trades = _
    rw [hp.trades, hsim.trades, List.filterMap_append]
  · show p.reports ++ sim.log.reports = _
    rw [hp.reports, hsim.reports, List.filterMap_append]
  · show p.decisions ++ sim.log.decisions = _
    rw [hp.decisions, hsim.decisions, List.filterMap_append]
  · unfold clearEvents ExecutionSimulator.withPast withLog FillLog.withPast
    dsimp only
    rw [List.append_nil, List.append_nil, List.append_nil]

/-- **One call** queues its occurrences, and delivers all that is queued or nothing. -/
theorem Delivered.step (cfg : SimConfig) {base : FillLog} {made : ExecutionSimulator k} {hooks : List Hook}
    {r : StrategyRunner k} {os pending : List Occurrence} (h : Delivered base made hooks r os pending)
    (c : Call) : ∃ os' pending', Delivered base (c.simulate cfg r.clock made)
      (hooks ++ (r.call cfg c).1) (r.call cfg c).2 os' pending' ∧ (c.Pumps → pending' = []) := by
  obtain ⟨new, hnew, -⟩ := @simulate_grows _ cfg r.clock c r.sim
  obtain ⟨p, hp, hmade⟩ := h.past
  have hall : base.Queues (c.simulate cfg r.clock made).log (os ++ (pending ++ new)) := by
    rw [← List.append_assoc]
    refine h.queued.trans ?_
    rw [hmade, simulate_withPast]
    exact queues_withPast hnew p
  have hhold := h.pending.append hnew
  by_cases hc : c.Pumps
  · obtain ⟨hfst, hsim, -⟩ := @call_pumps _ cfg _ hc r
    refine ⟨os ++ (pending ++ new), [], ⟨?_, ?_, ?_, ?_⟩, fun _ => rfl⟩
    · rw [List.append_nil]
      exact hall
    · rw [deliveries_append, h.hooks, hfst, pump_eq hhold (h.sorted hnew), deliveries_map,
        ← List.map_append]
    · rw [hsim]
      exact ⟨rfl, rfl, rfl⟩
    · rw [hsim, hmade, simulate_withPast]
      exact Delivered.cleared hp hhold
  · obtain ⟨hfst, hsim, -⟩ := @call_quiet _ cfg _ hc r
    refine ⟨os, pending ++ new, ⟨hall, ?_, ?_, ?_⟩, fun hc' => absurd hc' hc⟩
    · rw [hfst, List.append_nil]
      exact h.hooks
    · rw [hsim]
      exact hhold
    · rw [hsim, hmade, simulate_withPast]
      exact ⟨p, hp, rfl⟩

theorem call_clock (c : Call) (r : StrategyRunner k) : (r.call cfg c).2.clock = c.clock r.clock := by
  by_cases hc : c.Pumps
  · exact (call_pumps hc r).2.2
  · exact (call_quiet hc r).2.2

/-- **A run** from a runner that has delivered `os`. -/
theorem Delivered.run (cfg : SimConfig) {base : FillLog} (cs : List Call)
    {made : ExecutionSimulator k} {hooks : List Hook} {r : StrategyRunner k} {os pending : List Occurrence}
    (h : Delivered base made hooks r os pending) : ∃ os' pending',
      Delivered base (produced cfg cs r.clock made) (hooks ++ (r.run cfg cs).1) (r.run cfg cs).2
        os' pending'
      ∧ (∀ c, cs.getLast? = some c → c.Pumps → pending' = []) := by
  induction cs generalizing made hooks r os pending with
  | nil =>
      refine ⟨os, pending, ?_, fun c hc => absurd hc nofun⟩
      show Delivered base made (hooks ++ []) r os pending
      rw [List.append_nil]
      exact h
  | cons c cs ih =>
      obtain ⟨os', pending', h', hpump⟩ := h.step cfg c
      cases cs with
      | nil =>
          refine ⟨os', pending', ?_, ?_⟩
          · show Delivered base (c.simulate cfg r.clock made) (hooks ++ ((r.call cfg c).1 ++ [])) _ _ _
            rw [List.append_nil]
            exact h'
          · intro c' hlast hc'
            cases hlast
            exact hpump hc'
      | cons c' cs =>
          obtain ⟨os'', pending'', h'', hlast⟩ := ih h'
          rw [call_clock, List.append_assoc] at h''
          exact ⟨os'', pending'', h'', fun d hd => hlast d (by rw [← hd]; rfl)⟩

end StrategyRunner

namespace ExecutionSimulator

variable {k : Nat} (sim : ExecutionSimulator k) (cfg : SimConfig)

/-! ## Splitting the window of `run_until` -/

/-- **A window and then a longer one** are the longer one. -/
theorem runUntil_runUntil {t t' : Nat} (hle : t' ≤ t) (sim : ExecutionSimulator k) :
    (sim.runUntil cfg t').runUntil cfg t = sim.runUntil cfg t := by
  -- The induction is on what waits in the scheduler.
  generalize hn : sim.wheel.heapSize = n
  induction n generalizing sim with
  | zero =>
      have hidle : ¬ sim.Due t' := fun h => h.1 hn
      rw [runUntil_idle sim cfg hidle]
  | succ n ih =>
      by_cases hdue : sim.Due t'
      · have hdue' : sim.Due t := ⟨hdue.1, Nat.le_trans hdue.2 hle⟩
        rw [runUntil_due sim cfg hdue, runUntil_due sim cfg hdue']
        exact ih _ (by rw [decideNext_heapSize sim cfg hdue.1, hn]; rfl)
      · rw [runUntil_idle sim cfg hdue]

end ExecutionSimulator

namespace StrategyRunner

open ExecutionSimulator

variable {k : Nat} {cfg : SimConfig}

theorem runUntil_snd (r : StrategyRunner k) (t : Nat) :
    (r.runUntil cfg t).2 =
      { sim := (r.sim.runUntil cfg t).clearEvents
        clock := r.clock
        lastBid := (r.sim.runUntil cfg t).book.best .buy
        lastAsk := (r.sim.runUntil cfg t).book.best .sell
        lastBidQty := touchQty { r with sim := r.sim.runUntil cfg t } .buy
        lastAskQty := touchQty { r with sim := r.sim.runUntil cfg t } .sell } := report_snd _

/-- **One split** delivers the same, in the same order, and leaves the same runner. -/
theorem runUntil_split (cfg : SimConfig) {base : FillLog} {made : ExecutionSimulator k} {hooks : List Hook}
    {r : StrategyRunner k} {os pending : List Occurrence} (h : Delivered base made hooks r os pending)
    {t t' : Nat} (hle : t' ≤ t) :
    deliveries (r.runUntil cfg t').1 ++ deliveries ((r.runUntil cfg t').2.runUntil cfg t).1
        = deliveries (r.runUntil cfg t).1
      ∧ ((r.runUntil cfg t').2.runUntil cfg t).2 = (r.runUntil cfg t).2 := by
  have hsim : (r.runUntil cfg t').2.sim = (r.sim.runUntil cfg t').clearEvents :=
    congrArg StrategyRunner.sim (runUntil_snd r t')
  have hclock : (r.runUntil cfg t').2.clock = r.clock := by rw [runUntil_snd]
  generalize hmid : r.sim.runUntil cfg t' = mid at hsim
  -- The second window decides what the rest of the longer window would have.
  have hfull : r.sim.runUntil cfg t = (mid.clearEvents.runUntil cfg t).withPast mid.log := by
    rw [← runUntil_withPast, withPast_clearEvents, ← hmid, runUntil_runUntil cfg hle]
  constructor
  · obtain ⟨new, hnew, -⟩ := runUntil_grows r.sim cfg t'
    rw [hmid] at hnew
    obtain ⟨new', hnew', -⟩ := runUntil_grows mid.clearEvents cfg t
    have hrest : mid.log.Queues (r.sim.runUntil cfg t).log new' := by
      rw [hfull]
      have hpast := queues_withPast hnew' mid.log
      have hmidlog : FillLog.withPast mid.log mid.clearEvents.log = mid.log :=
        congrArg ExecutionSimulator.log (withPast_clearEvents mid)
      rw [hmidlog] at hpast
      exact hpast
    have hall := hnew.trans hrest
    have hsorted := h.sorted hall
    have hfirst : deliveries (r.runUntil cfg t').1 = (pending ++ new).map Hook.ofOccurrence := by
      refine (report_fst _).trans ?_
      show deliveries (pump (r.sim.runUntil cfg t').log) = _
      rw [hmid, pump_eq (h.pending.append hnew) (h.sorted hnew), deliveries_map]
    have hsecond : deliveries ((r.runUntil cfg t').2.runUntil cfg t).1
        = new'.map Hook.ofOccurrence := by
      refine (report_fst _).trans ?_
      show deliveries (pump ((r.runUntil cfg t').2.sim.runUntil cfg t).log) = _
      have hempty : Holds mid.clearEvents.log [] := ⟨rfl, rfl, rfl⟩
      rw [hsim, pump_eq (hempty.append hnew') hnew'.sorted, List.nil_append, deliveries_map]
    have hone : deliveries (r.runUntil cfg t).1
        = (pending ++ (new ++ new')).map Hook.ofOccurrence := by
      refine (report_fst _).trans ?_
      show deliveries (pump (r.sim.runUntil cfg t).log) = _
      rw [pump_eq (h.pending.append hall) hsorted, deliveries_map]
    rw [hfirst, hsecond, hone, ← List.map_append, List.append_assoc]
  · rw [runUntil_snd, runUntil_snd r t, hsim, hclock, hfull]
    rfl

/-- Several windows and then one that ends no earlier. -/
theorem runUntil_windows {base : FillLog} (ts : List Nat) {t : Nat} (hle : ∀ t' ∈ ts, t' ≤ t)
    {made : ExecutionSimulator k} {hooks : List Hook} {r : StrategyRunner k}
    {os pending : List Occurrence} (h : Delivered base made hooks r os pending) :
    deliveries (r.run cfg (ts.map .runUntil ++ [.runUntil t])).1 = deliveries (r.runUntil cfg t).1
      ∧ (r.run cfg (ts.map .runUntil ++ [.runUntil t])).2 = (r.runUntil cfg t).2 := by
  induction ts generalizing made hooks r os pending with
  | nil =>
      refine ⟨?_, rfl⟩
      show deliveries ((r.runUntil cfg t).1 ++ []) = _
      rw [List.append_nil]
  | cons t' ts ih =>
      obtain ⟨os', pending', h', -⟩ := h.step cfg (.runUntil t')
      obtain ⟨hrest, hleft⟩ := ih (fun x hx => hle x (List.mem_cons_of_mem _ hx)) h'
      obtain ⟨hsplit, hsame⟩ := runUntil_split cfg h (hle t' List.mem_cons_self)
      constructor
      · show deliveries ((r.runUntil cfg t').1 ++ _) = _
        rw [deliveries_append, ← hsplit]
        exact congrArg (deliveries (r.runUntil cfg t').1 ++ ·) hrest
      · rw [← hsame]
        exact hleft

/-- **Hook delivery is exact and independent of batching.** In every run the records that the
simulator has produced are one list in the order of their stamps, of which the hooks have been
called for the beginning, each record's once, and the rest waits in the logs; nothing waits after
a call that pumps. From there on any windows that end by `t` and then one that ends at `t` call
the same hooks in the same order as the last alone, and leave the same runner. -/
theorem hooks_deliver_each_once (cfg : SimConfig) (cs : List Call) :
    (∃ os pending : List Occurrence,
      (ExecutionSimulator.init cfg : ExecutionSimulator k).log.Queues
        (produced cfg cs 0 (ExecutionSimulator.init cfg : ExecutionSimulator k)).log (os ++ pending)
      ∧ deliveries ((init cfg : StrategyRunner k).run cfg cs).1 = os.map Hook.ofOccurrence
      ∧ Holds ((init cfg : StrategyRunner k).run cfg cs).2.sim.log pending
      ∧ (∀ c, cs.getLast? = some c → c.Pumps → pending = []))
    ∧ ((init cfg : StrategyRunner k).run cfg cs).2.sim.clearEvents
        = (produced cfg cs 0 (ExecutionSimulator.init cfg)).clearEvents
    ∧ ∀ (ts : List Nat) (t : Nat), (∀ t' ∈ ts, t' ≤ t) →
        deliveries (((init cfg : StrategyRunner k).run cfg cs).2.run cfg
            (ts.map .runUntil ++ [.runUntil t])).1
          = deliveries (((init cfg : StrategyRunner k).run cfg cs).2.runUntil cfg t).1
        ∧ (((init cfg : StrategyRunner k).run cfg cs).2.run cfg
            (ts.map .runUntil ++ [.runUntil t])).2
          = (((init cfg : StrategyRunner k).run cfg cs).2.runUntil cfg t).2 := by
  have hstart : Delivered (ExecutionSimulator.init cfg : ExecutionSimulator k).log
      (ExecutionSimulator.init cfg) [] (init cfg : StrategyRunner k) [] [] :=
    { queued := FillLog.queues_nil rfl rfl rfl (Nat.le_refl _)
      hooks := rfl
      pending := ⟨rfl, rfl, rfl⟩
      past := ⟨{}, ⟨rfl, rfl, rfl⟩, rfl⟩ }
  obtain ⟨os, pending, hrun, hlast⟩ := hstart.run cfg cs
  refine ⟨⟨os, pending, hrun.queued, hrun.hooks, hrun.pending, hlast⟩, ?_, ?_⟩
  · obtain ⟨p, -, hmade⟩ := hrun.past
    have hcleared := congrArg clearEvents hmade
    exact hcleared.symm
  · intro ts t hle
    exact runUntil_windows ts hle hrun

/-- A bid decided in the second of two windows. -/
theorem hooks_deliver_each_once_bid :
    deliveries (((init deskConfig : StrategyRunner 4).run deskConfig
        [.submit { ref := 100, qty := 5, price := 3 }]).2.run deskConfig [.runUntil 0, .runUntil 9]).1
      = deliveries (((init deskConfig : StrategyRunner 4).run deskConfig
        [.submit { ref := 100, qty := 5, price := 3 }]).2.runUntil deskConfig 9).1 :=
  ((hooks_deliver_each_once deskConfig [.submit { ref := 100, qty := 5, price := 3 }]).2.2 [0] 9
    (by decide)).1

end StrategyRunner

end Mog
