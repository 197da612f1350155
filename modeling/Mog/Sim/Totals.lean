import Mog.Sim.Conserve

/-!
# Fill accounting

The counters of the log are sums over what it has reported and decided, and the notional
and the fee of a decision are those of what it has executed. One exit breaks the second:
a sweep that self-trade prevention stops leaves its notional unwritten, whatever it has
filled. The counters have 64 bits and the quantities of reports and decisions 32, so that
orders must be narrow for the sums to agree.
-/

namespace Mog

open QueueSum TrackTable

/-- Price times quantity, summed over executions. -/
def executedValue (es : List Execution) : Int := (es.map (fun e => e.price * e.qty)).sum

/-- A notional is its price times its quantity, cut to 64 bits. -/
theorem notionalOf_eq (price qty : Int) : (notionalOf price qty : Int) = price * qty % 2 ^ 64 := by
  unfold notionalOf toU64
  rw [Int.natCast_emod, Int.natCast_mul, Int.toNat_of_nonneg (Int.emod_nonneg _ (by decide)),
    Int.toNat_of_nonneg (Int.emod_nonneg _ (by decide))]
  exact (Int.mul_emod price qty (2 ^ 64)).symm

/-- What a sweep counts is the value of what it executes, cut to 64 bits. -/
theorem executedNotional_eq (es : List Execution) :
    ((executedNotional es % 2 ^ 64 : Nat) : Int) = executedValue es % 2 ^ 64 := by
  induction es with
  | nil => rfl
  | cons e es ih =>
      have hn : executedNotional (e :: es) = notionalOf e.price e.qty + executedNotional es := by
        simp [executedNotional]
      have hv : executedValue (e :: es) = e.price * e.qty + executedValue es := by
        simp [executedValue]
      have he := notionalOf_eq e.price e.qty
      rw [hn, hv]
      omega

/-- The fee of a notional within its bounds. -/
theorem feeBpsOf_eq {n : Nat} {bps : Int} (hn : n < 2 ^ 63 / 10000) (hb : bps.natAbs ≤ 10000) :
    feeBpsOf n bps = ((n : Int) * bps).tdiv 10000 := by
  have hlt : n * bps.natAbs < 2 ^ 64 := by
    calc n * bps.natAbs ≤ n * 10000 := Nat.mul_le_mul_left n hb
      _ < 2 ^ 64 := by omega
  unfold feeBpsOf
  dsimp only
  rw [Nat.mod_eq_of_lt hlt]
  by_cases hneg : bps < 0
  · rw [if_pos hneg]
    have hbps : bps = -(bps.natAbs : Int) := by omega
    rw [hbps, Int.mul_neg, Int.neg_tdiv, Int.natAbs_neg, Int.natAbs_natCast, ← Int.natCast_mul]
    rfl
  · rw [if_neg hneg]
    have hbps : bps = (bps.natAbs : Int) := by omega
    rw [hbps, Int.natAbs_natCast, ← Int.natCast_mul]
    rfl

namespace FillLog

/-! ## Sums over a log -/

/-- The value of the fill reports and the notionals of the decisions. -/
def value (l : FillLog) : Int :=
  (l.reports.map (fun r => r.priceTicks * (r.qty : Int))).sum
    + (l.decisions.map (fun d => (d.filledNotional : Int))).sum

def fees (l : FillLog) : Int :=
  (l.reports.map SimFillReport.fee).sum + (l.decisions.map SimDecision.fee).sum

/-- The reports, and the decisions that filled something. -/
def fills (l : FillLog) : Nat :=
  l.reports.length + (l.decisions.filter (fun d => 0 < d.filledQty)).length

def decidedQty (l : FillLog) : Nat := (l.decisions.map SimDecision.filledQty).sum

def filledQty (l : FillLog) : Nat := (l.reports.map SimFillReport.qty).sum + l.decidedQty

/-- The counters of a log are the sums over its reports and decisions. -/
structure Totalled (l : FillLog) : Prop where
  notional : (l.totalFilledNotional : Int) = l.value % 2 ^ 64
  fees : l.totalFees = l.fees
  count : l.fillCount = l.fills
  model : l.modelFilled = l.filledQty % 2 ^ 64
  aggressive : l.aggressiveFilled = l.decidedQty % 2 ^ 64

theorem totalled_empty : Totalled {} := ⟨rfl, rfl, rfl, rfl, rfl⟩

theorem Totalled.quiet {l l' : FillLog} (h : l.Totalled) (hq : l.Quiet l') : l'.Totalled where
  notional := by rw [hq.totalFilledNotional, value, hq.reports, hq.decisions]; exact h.notional
  fees := by rw [hq.totalFees, FillLog.fees, hq.reports, hq.decisions]; exact h.fees
  count := by rw [hq.fillCount, fills, hq.reports, hq.decisions]; exact h.count
  model := by
    rw [hq.modelFilled, filledQty, decidedQty, hq.reports, hq.decisions]
    exact h.model
  aggressive := by rw [hq.aggressiveFilled, decidedQty, hq.decisions]; exact h.aggressive

/-- A fill of a narrow quantity is reported and counted. -/
theorem Totalled.settled {l : FillLog} (h : l.Totalled) (cfg : SimConfig) (vis ref : Nat)
    (price : Int) {qty : Int} (side : Side) (h0 : 0 ≤ qty) (h1 : qty < 2 ^ 32) :
    (l.settle cfg vis ref price qty side).Totalled := by
  have hq : (toU32 qty : Int) = qty := toU32_of_narrow h0 h1
  refine { notional := ?_, fees := ?_, count := ?_, model := ?_, aggressive := h.aggressive }
  · have hval : (l.settle cfg vis ref price qty side).value = l.value + price * qty := by
      unfold value settle
      dsimp only
      rw [List.map_append, List.sum_append, List.map_singleton, List.sum_singleton]
      dsimp only
      rw [hq]
      omega
    have hn := h.notional
    have hp := notionalOf_eq price qty
    rw [hval]
    show (((l.totalFilledNotional + notionalOf price qty) % 2 ^ 64 : Nat) : Int) = _
    omega
  · have hf := h.fees
    unfold FillLog.fees at hf ⊢
    unfold settle
    dsimp only
    rw [List.map_append, List.sum_append, List.map_singleton, List.sum_singleton]
    dsimp only
    omega
  · have hc := h.count
    unfold fills at hc ⊢
    unfold settle
    dsimp only
    rw [List.length_append, List.length_singleton]
    omega
  · have hm := h.model
    have h64 : toU64 qty = toU32 qty := by
      unfold toU64 toU32
      omega
    unfold filledQty at hm ⊢
    unfold settle
    dsimp only
    rw [List.map_append, List.sum_append, List.map_singleton, List.sum_singleton, h64]
    show (l.modelFilled + toU32 qty) % 2 ^ 64
      = (_ + toU32 qty + l.decidedQty) % 2 ^ 64
    omega

theorem Totalled.shown {l : FillLog} (h : l.Totalled) (cfg : SimConfig) {e : Execution}
    (h0 : 0 ≤ e.qty) (h1 : cfg.externalRefLimit ≤ e.ref → e.qty < 2 ^ 32) :
    (l.displayedFill cfg e).Totalled := by
  have hexec : (l.execute e).Totalled := ⟨h.notional, h.fees, h.count, h.model, h.aggressive⟩
  rcases displayedFill_cases l cfg e with ⟨_, heq⟩ | ⟨hown, vis, heq⟩
  · rw [heq]
    exact hexec
  · rw [heq]
    exact (hexec.quiet (quiet_drawJitter _ cfg)).settled cfg vis e.ref e.price e.side h0 (h1 hown)

/-- A decision whose fill has been counted is pushed. -/
theorem Totalled.pushed {l m : FillLog} (h : l.Totalled) (d : SimDecision) (vis ref : Nat)
    (side : Side) (hr : m.reports = l.reports) (hd : m.decisions = l.decisions)
    (hn : m.totalFilledNotional = l.totalFilledNotional) (hf : m.totalFees = l.totalFees)
    (hc : m.fillCount = l.fillCount)
    (hm : m.modelFilled = (l.modelFilled + d.filledQty) % 2 ^ 64)
    (ha : m.aggressiveFilled = (l.aggressiveFilled + d.filledQty) % 2 ^ 64) :
    (m.pushDecision d vis ref side).Totalled := by
  have hqty : (m.pushDecision d vis ref side).decidedQty = l.decidedQty + d.filledQty := by
    unfold decidedQty pushDecision
    dsimp only
    rw [hd, List.map_append, List.sum_append, List.map_singleton, List.sum_singleton]
  refine { notional := ?_, fees := ?_, count := ?_, model := ?_, aggressive := ?_ }
  · have hval : (m.pushDecision d vis ref side).value = l.value + d.filledNotional := by
      unfold value pushDecision
      dsimp only
      rw [hd, hr, List.map_append, List.sum_append, List.map_singleton, List.sum_singleton]
      dsimp only
      omega
    have := h.notional
    rw [hval]
    show (((m.totalFilledNotional + d.filledNotional) % 2 ^ 64 : Nat) : Int) = _
    rw [hn]
    omega
  · have := h.fees
    unfold FillLog.fees at this ⊢
    unfold pushDecision
    dsimp only
    rw [hd, hr, hf, List.map_append, List.sum_append, List.map_singleton, List.sum_singleton]
    dsimp only
    omega
  · have := h.count
    unfold fills at this ⊢
    unfold pushDecision
    dsimp only
    rw [hd, hr, hc, List.filter_append, List.length_append]
    by_cases hpos : 0 < d.filledQty
    · rw [if_pos hpos, List.filter_cons_of_pos (by simpa using hpos), List.filter_nil,
        List.length_singleton]
      omega
    · rw [if_neg hpos, List.filter_cons_of_neg (by simpa using hpos), List.filter_nil,
        List.length_nil]
      omega
  · have := h.model
    unfold filledQty at this ⊢
    rw [hqty]
    show m.modelFilled = _
    rw [hm, show (m.pushDecision d vis ref side).reports = l.reports from hr]
    omega
  · have := h.aggressive
    rw [hqty]
    show m.aggressiveFilled = _
    rw [ha]
    omega

end FillLog

namespace ExecutionSimulator

open Sweep

variable {k : Nat} {cfg : SimConfig} {sim sim' mid : ExecutionSimulator k} {order o : SimInbound}
  {ts : Nat}

/-! ## Narrow quantities -/

/-- What the strategy has resting fits the fields of a report, and the log is totalled. -/
structure NarrowInv (cfg : SimConfig) (sim : ExecutionSimulator k) : Prop where
  entry : ∀ h ∈ sim.hidden, 0 ≤ h.qtyRemaining ∧ h.qtyRemaining < 2 ^ 32
  shown : ShownNarrow cfg sim
  totals : sim.log.Totalled

theorem NarrowInv.counted (h : NarrowInv cfg sim) : LedgerCounted sim.hidden :=
  fun e he => (h.entry e he).1

theorem keptByTaking_narrow : KeptByTaking (fun q => 0 ≤ q ∧ q < 2 ^ 32) := by
  rintro r q hr ⟨h0, h1⟩ hne
  omega

theorem Trade.narrowInv (h : NarrowInv cfg sim) (hinv : SimInv cfg sim) (ht : Trade cfg sim sim') :
    NarrowInv cfg sim' := by
  refine { entry := ht.entries keptByTaking_narrow h.entry, shown := ht.shownNarrow h.shown hinv,
           totals := ?_ }
  cases ht with
  | idle hi => exact h.totals.quiet hi.log
  | repeg hr => rw [hr]; exact h.totals
  | fill i take hf =>
      have hle := hf.le
      rw [hf.log]
      refine h.totals.shown cfg (Int.le_of_lt hf.pos) (fun hown => ?_)
      have hlt := h.shown i ⟨hf.live, hown⟩
      show take < 2 ^ 32
      omega
  | slice ib rest i hr => rw [hr.log]; exact h.totals
  | withdraw i hown ht => rw [ht.log]; exact h.totals
  | tap t e kept l he =>
      have hmem : e ∈ sim.hidden := by rw [he.before]; simp
      obtain ⟨h0, h1⟩ := h.entry e hmem
      have hrem := he.remaining
      have hamt : 0 ≤ t.amount e ∧ t.amount e < 2 ^ 32 := by
        unfold Tap.amount
        omega
      have hexec : (t.log.execute (t.execution e)).Totalled := by
        rw [he.log]
        exact ⟨h.totals.notional, h.totals.fees, h.totals.count, h.totals.model,
          h.totals.aggressive⟩
      rw [he.after]
      exact hexec.settled cfg t.log.nowHint e.ref e.priceTicks e.side hamt.1 hamt.2

theorem Trades.narrowInv (h : NarrowInv cfg sim) (hinv : SimInv cfg sim)
    (ht : Trades cfg sim sim') : NarrowInv cfg sim' := by
  induction ht with
  | refl => exact h
  | tail hab hb ih => exact hb.1.narrowInv ih (Trades.inv hinv hab)

/-- What is placed of a narrow order is narrow. -/
theorem NarrowInv.leftOver (h : NarrowInv cfg sim) (hinv : SimInv cfg sim)
    (hq : order.qty < 2 ^ 32) (hr : sim.resolved order = some o) {remaining : Int}
    (hleft : LeftOver cfg (sim.opened cfg ts) o remaining) : remaining < 2 ^ 32 := by
  rw [← (resolved_fields hr).2.2.1] at hq
  rcases hleft with rfl | ⟨_, w, hm, rfl⟩
  · exact hq
  · have hopen := opened_exchanges hinv ts
    have hl : LedgerCounted (sim.opened cfg ts).hidden :=
      Trades.counted h.counted (Exchanges.trades hopen hinv)
    have hmono := hm.filled_mono (Exchanges.inv hinv hopen).clearSync hl
    have hz : ((sim.opened cfg ts).crossStart o.qty).filled = 0 := rfl
    omega

/-! ## Decisions -/

/-- Whatever becomes of a remainder, one decision is pushed with the fill it was given. -/
theorem FinishCase.log {remaining : Int} {out : SimDecision} {vis : Nat}
    (hf : FinishCase mid o remaining out vis sim') :
    ∃ d, sim'.log = mid.log.pushDecision d vis o.ref o.side ∧ d.filledQty = out.filledQty
      ∧ d.filledNotional = out.filledNotional ∧ d.fee = out.fee := by
  cases hf with
  | refused => exact ⟨_, rfl, rfl, rfl, rfl⟩
  | displayed => exact ⟨_, rfl, rfl, rfl, rfl⟩
  | ledger => exact ⟨_, rfl, rfl, rfl, rfl⟩
  | cancelled d _ hd => exact ⟨d, rfl, by rw [hd], by rw [hd], by rw [hd]⟩

/-- A decision keeps the log totalled. -/
theorem decide_totalled (h : NarrowInv cfg sim) (hinv : SimInv cfg sim)
    (hq : order.qty < 2 ^ 32) (hd : DecideCase cfg sim order ts sim') : sim'.log.Totalled := by
  have hopen := opened_exchanges hinv ts
  have hoinv := Exchanges.inv hinv hopen
  have ho := Trades.narrowInv h hinv (Exchanges.trades hopen hinv)
  -- nothing has been filled
  have hnone : ∀ (d : SimDecision) (vis : Nat) (o : SimInbound), d.filledQty = 0 →
      ((sim.opened cfg ts).log.pushDecision d vis o.ref o.side).Totalled := by
    intro d vis o hz
    have h1 := ho.totals.model
    have h2 := ho.totals.aggressive
    exact ho.totals.pushed d vis o.ref o.side rfl rfl rfl rfl rfl (by rw [hz]; omega)
      (by rw [hz]; omega)
  -- a sweep has filled what it counts
  have hsome : ∀ (o : SimInbound) (w : Sweep k) (d : SimDecision) (vis : Nat),
      sim.resolved order = some o → 0 < o.qty →
      Moves cfg o ((sim.opened cfg ts).crossStart o.qty) w → d.filledQty = toU32 w.filled →
      ((w.sim.counted o w.filled).log.pushDecision d vis o.ref o.side).Totalled := by
    intro o w d vis hr hpos hm hqty
    rw [← (resolved_fields hr).2.2.1] at hq
    have hstart : NarrowInv cfg ((sim.opened cfg ts).crossStart o.qty).sim :=
      ⟨ho.entry, ho.shown, ho.totals⟩
    have hw := Trades.narrowInv hstart hoinv.clearSync
      (Exchanges.trades (Moves.exchanges hm hoinv.clearSync).1 hoinv.clearSync)
    have hmono : 0 ≤ w.filled := hm.filled_mono hoinv.clearSync hstart.counted
    obtain ⟨⟨es, ha⟩, _⟩ := hm.accounts (Nat.zero_lt_of_lt (Nat.two_pow_pos 64))
    have hnn := hm.remaining_nonneg (Int.le_of_lt hpos)
    have h1 : w.filled = 0 + executedQty es := ha.filled
    have h2 : w.remaining = o.qty - executedQty es := ha.remaining
    have h64 : toU64 w.filled = toU32 w.filled := by
      unfold toU64 toU32
      omega
    refine hw.totals.pushed d vis o.ref o.side rfl rfl rfl rfl rfl ?_ ?_
    · rw [hqty, ← h64]
      rfl
    · rw [hqty, ← h64]
      rfl
  cases hd with
  | unpriced vis hr => exact hnone {} vis (resolvePeg order) rfl
  | duplicate o vis hr hdup => exact hnone {} vis o rfl
  | wouldCross o vis hr hfree htype hcross =>
      exact hnone { kind := .rejectedWouldCross } vis o rfl
  | placed o vis _ hr hfree hpost hno hf =>
      obtain ⟨d, hlog, hz, _⟩ := hf.log
      rw [hlog]
      exact hnone d vis o hz
  | stopped o vis w hr hfree htype hcross hpos hm hw hrem hstop =>
      exact hsome o w { sweepDecision cfg ts w.filled 0 with
        kind := .rejectedStp, cancelledQty := toU32 (o.qty - w.filled) } vis hr hpos hm rfl
  | swept o vis w _ hr hfree htype hcross hpos hm hw hend hf =>
      obtain ⟨d, hlog, hz, _⟩ := hf.log
      rw [hlog]
      exact hsome o w d vis hr hpos hm hz

/-! ## The price of a decision -/

/-- The one decision made between `sim` and `sim'` has the notional of what it executed, at the
prices of the orders that rested, and the taker fee on it. -/
def DecisionPriced (cfg : SimConfig) (sim sim' : ExecutionSimulator k) : Prop :=
  ∃ d es, sim'.log.decisions = sim.log.decisions ++ [d]
    ∧ sim'.log.executions = sim.log.executions ++ es
    ∧ (d.filledNotional : Int) = executedValue es
    ∧ d.fee = (executedValue es * cfg.takerFeeBps).tdiv 10000

/-- What has been executed between `sim` and `sim'` is within the bound on notionals. -/
def NotionalsFit (sim sim' : ExecutionSimulator k) : Prop :=
  ∀ es, sim'.log.executions = sim.log.executions ++ es →
    0 ≤ executedValue es ∧ executedValue es < 2 ^ 63 / 10000

/-- If self-trade prevention stops the sweep, it has counted no notional by then. -/
def StopsUnvalued (sim : ExecutionSimulator k) (cfg : SimConfig) (order : SimInbound) (ts : Nat) :
    Prop :=
  ∀ o, sim.Sweeps order o → ∀ w ∈ sim.sweepPasses cfg o ts, w.step cfg o = .stpStop →
    w.notional = 0

/-- A notional within the bound is not cut. -/
theorem notional_eq {es : List Execution} {n : Nat} (hn : n = executedNotional es % 2 ^ 64)
    (h0 : 0 ≤ executedValue es) (h1 : executedValue es < 2 ^ 63 / 10000) :
    (n : Int) = executedValue es := by
  rw [hn, executedNotional_eq]
  omega

/-- The fee of a notional within the bound. -/
theorem fee_eq {es : List Execution} {n : Nat} (hb : cfg.takerFeeBps.natAbs ≤ 10000)
    (hn : (n : Int) = executedValue es) (h1 : executedValue es < 2 ^ 63 / 10000) :
    feeBpsOf n cfg.takerFeeBps = (executedValue es * cfg.takerFeeBps).tdiv 10000 := by
  rw [feeBpsOf_eq (by omega) hb, hn]

/-- Where nothing is executed, the notional and the fee are zero. -/
theorem priced_of_still {d : SimDecision} (hd : sim'.log.decisions = sim.log.decisions ++ [d])
    (hx : sim'.log.executions = sim.log.executions) (hn : d.filledNotional = 0) (hf : d.fee = 0) :
    DecisionPriced cfg sim sim' := by
  refine ⟨d, [], hd, by rw [hx, List.append_nil], by rw [hn]; rfl, ?_⟩
  have hz : executedValue [] = 0 := rfl
  rw [hf, hz, Int.zero_mul, Int.zero_tdiv]

theorem unswept_priced (h : SimInv cfg sim) (hno : ∀ o, ¬ sim.Sweeps order o) (ts : Nat) :
    DecisionPriced cfg sim (sim.decide cfg order ts) := by
  have hd := decide_cases h order ts
  generalize sim.decide cfg order ts = r at hd
  cases hd with
  | unpriced => exact priced_of_still rfl rfl rfl rfl
  | duplicate => exact priced_of_still rfl rfl rfl rfl
  | wouldCross => exact priced_of_still rfl rfl rfl rfl
  | placed o vis _ hr hfree hpost hnot hf =>
      have hx := hf.placed.executions
      obtain ⟨d, hlog, _, hn, hfee⟩ := hf.log
      have hdec : r.log.decisions = sim.log.decisions ++ [{ d with
          ref := o.ref, visibleTs := vis, side := o.side
          seq := (sim.opened cfg ts).log.seqCounter + 1 }] := by
        rw [hlog]
        rfl
      exact priced_of_still hdec hx hn hfee
  | stopped o vis w hr hfree htype hcross hpos =>
      obtain ⟨_, _, _, ht⟩ := resolved_fields hr
      exact absurd ⟨hr, hfree, ht ▸ htype, hcross, hpos⟩ (hno o)
  | swept o vis w _ hr hfree htype hcross hpos =>
      obtain ⟨_, _, _, ht⟩ := resolved_fields hr
      exact absurd ⟨hr, hfree, ht ▸ htype, hcross, hpos⟩ (hno o)

/-- **A decision is priced exactly when a stop comes before anything of value.** -/
theorem priced_iff (h : SimInv cfg sim) (hn : order.Named cfg.externalRefLimit)
    (hb : cfg.takerFeeBps.natAbs ≤ 10000)
    (hfit : NotionalsFit sim (sim.decide cfg order ts)) :
    DecisionPriced cfg sim (sim.decide cfg order ts) ↔ sim.StopsUnvalued cfg order ts := by
  by_cases hex : ∃ o, sim.Sweeps order o
  · obtain ⟨o, hs⟩ := hex
    have hone : ∀ o', sim.Sweeps order o' → o' = o := fun o' ho =>
      Option.some.inj (ho.1.symm.trans hs.1)
    obtain ⟨w, hw, hm, hcase⟩ := decide_swept h hs ts
    obtain ⟨es, _, hacc, _, _, _, _, hnot⟩ := swept_accounted h hn hs hm
    generalize sim.decide cfg order ts = r at hcase hfit
    cases hcase with
    | stopped vis hloop hrem hstop =>
        obtain ⟨h0, h1⟩ := hfit es hacc.executions
        have hval := notional_eq hnot h0 h1
        -- the last pass is the one that stops
        have hlast : sim.StopsUnvalued cfg order ts ↔ w.notional = 0 := by
          constructor
          · intro hsafe
            refine hsafe o hs w ?_ hstop
            exact ((end_mem_passes cfg o w .stpStop _ _).mpr ⟨hloop, hrem, by decide⟩).1
          · intro hz o' hs' u hu hus
            cases hone o' hs'
            have hend := (end_mem_passes cfg o u .stpStop _ _).mp ⟨hu, by rw [hus]; rfl⟩
            cases (Prod.mk.inj (hend.1.symm.trans hloop)).1
            exact hz
        rw [hlast]
        constructor
        · rintro ⟨d, es', hdec, hx, hdn, _⟩
          have hx' : w.sim.log.executions = sim.log.executions ++ es' := hx
          cases List.append_cancel_left (hacc.executions.symm.trans hx')
          have hd : w.sim.log.decisions ++ [_] = sim.log.decisions ++ [d] := hdec
          rw [hacc.decisions] at hd
          have hzero := congrArg SimDecision.filledNotional
            (List.singleton_inj.mp (List.append_cancel_left hd))
          change 0 = d.filledNotional at hzero
          omega
        · intro hz
          have hv : executedValue es = 0 := by omega
          refine ⟨_, es, congrArg (fun l => l ++ [_]) hacc.decisions, hacc.executions, ?_, ?_⟩
          · rw [hv]
            rfl
          · exact fee_eq (n := 0) hb (by rw [hv]; rfl) h1
    | done vis _ hloop hend hf =>
        have hx : r.log.executions = sim.log.executions ++ es :=
          hf.placed.executions.trans hacc.executions
        obtain ⟨h0, h1⟩ := hfit es hx
        have hval := notional_eq hnot h0 h1
        refine iff_of_true ?_ ?_
        · obtain ⟨d, hlog, _, hdn, hfee⟩ := hf.log
          refine ⟨{ d with
            ref := o.ref, visibleTs := vis, side := o.side, seq := w.sim.log.seqCounter + 1 }, es,
            ?_, hx, ?_, ?_⟩
          · rw [hlog]
            exact congrArg (fun l => l ++ [_]) hacc.decisions
          · exact (congrArg Nat.cast hdn).trans hval
          · exact hfee.trans (fee_eq hb hval h1)
        · intro o' hs' u hu hus
          cases hone o' hs'
          have hstop := (end_mem_passes cfg o u .stpStop _ _).mp ⟨hu, by rw [hus]; rfl⟩
          exact absurd (hstop.1.symm.trans hloop) (by simp)
  · refine iff_of_true (unswept_priced h (fun o hs => hex ⟨o, hs⟩) ts) (fun o hs => ?_)
    exact absurd ⟨o, hs⟩ hex

/-! ## Whole runs -/

/-- Orders and replaces are narrower than a report's field, and no replace rewrites an entry of
the ledger to less than nothing. -/
def NarrowCall (cfg : SimConfig) (sim : ExecutionSimulator k) : SimCall → Prop
  | .submit order _ => order.qty < 2 ^ 32
  | .replaceStrategy orig fresh qty price =>
      (∀ i, Holds cfg sim orig i → sim.book.Replaceable i fresh qty price → qty < 2 ^ 32)
        ∧ ((∀ i, ¬ Holds cfg sim orig i) → (∃ h ∈ sim.hidden, h.ref = orig) →
          0 ≤ qty ∧ qty < 2 ^ 32)
  | _ => True

theorem call_narrowInv {c : SimCall} (h : NarrowInv cfg sim) (hinv : SimInv cfg sim)
    (hw : sim.wheel.Holds (fun e => e.order.qty < 2 ^ 32)) (hl : c.Legal cfg.externalRefLimit)
    (hok : NarrowCall cfg sim c) : NarrowInv cfg (sim.call cfg c) := by
  have hpop : NarrowInv cfg { sim with wheel := sim.wheel.popMin.2 } := ⟨h.entry, h.shown, h.totals⟩
  have hnext : c = .decideNext → ¬ sim.wheel.empty → ∀ remaining, NextRemainder cfg sim remaining →
      0 ≤ remaining ∧ remaining < 2 ^ 32 := by
    rintro _ hne remaining ⟨o, hr, hleft, _, hpos⟩
    refine ⟨Int.le_of_lt hpos, ?_⟩
    exact hpop.leftOver (popped_inv hinv hne) (Scheduler.popMin_holds hw hne).1 hr hleft
  have hentry := call_entries (P := fun q => 0 ≤ q ∧ q < 2 ^ 32) keptByTaking_narrow h.entry hinv
    hl hnext (fun orig fresh qty price hc => by subst hc; exact hok.2)
  have hshown := call_shownNarrow h.shown hinv hl (fun hc hne r hr => (hnext hc hne r hr).2)
    (fun orig fresh qty price hc => by subst hc; exact hok.1)
  refine { entry := hentry, shown := hshown, totals := ?_ }
  have hc := call_cases hinv hl
  generalize sim.call cfg c = r at hc
  have hcount : ∀ l : FillLog, sim.log.Quiet l → l.Totalled := fun l hq => h.totals.quiet hq
  cases hc with
  | still | seed | iceberg | halt | stpMode => exact h.totals
  | submit order ts => exact hcount _ (FillLog.quiet_drawJitter _ cfg)
  | cancelledHidden | replacedHidden => exact hcount _ ⟨rfl, rfl, rfl, rfl, rfl, rfl, rfl, rfl⟩
  | flow _ _ _ ht => exact (Trades.narrowInv h hinv (Exchanges.trades ht hinv)).totals
  | decide sim' hne hd =>
      exact decide_totalled hpop (popped_inv hinv hne) (Scheduler.popMin_holds hw hne).1 hd
  | cancelled ref i mid t hh hw' =>
      show mid.log.Totalled
      rw [hw'.log]
      exact h.totals
  | replaced _ _ _ _ _ _ _ _ _ _ hd => rw [hd.log]; exact h.totals

/-- With cancel-newest, two external offers at five stand before one of the strategy's. -/
def ownBehind : List SimCall :=
  [.setStpMode .cancelNewest, .seedExternal 1 .sell 2 5,
    .submit { ref := 100, side := .sell, qty := 3, price := 5 } 0, .decideNext]

end ExecutionSimulator

end Mog
