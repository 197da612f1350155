import Mog.Sim.Account

/-!
# A halted market stands still

While the book is halted the host may go on calling: orders are submitted and decided,
prints are injected, time passes, liquidity is seeded and the strategy's own orders are
cancelled and replaced. None of this trades. Limits rest, immediate orders are cancelled
in full, and what others have in the book stays as it was.
-/

namespace Mog

open ExecutionSimulator

/-- Nothing has traded from `l` to `l'`. -/
structure FillLog.Untraded (l l' : FillLog) : Prop where
  executions : l'.executions = l.executions
  reports : l'.reports = l.reports
  trades : l'.trades = l.trades
  fillCount : l'.fillCount = l.fillCount
  totalFees : l'.totalFees = l.totalFees
  modelFilled : l'.modelFilled = l.modelFilled

theorem FillLog.Untraded.refl (l : FillLog) : l.Untraded l := ⟨rfl, rfl, rfl, rfl, rfl, rfl⟩

theorem FillLog.Untraded.trans {l l' l'' : FillLog} (h : l.Untraded l') (h' : l'.Untraded l'') :
    l.Untraded l'' :=
  ⟨h'.executions.trans h.executions, h'.reports.trans h.reports, h'.trades.trans h.trades,
    h'.fillCount.trans h.fillCount, h'.totalFees.trans h.totalFees,
    h'.modelFilled.trans h.modelFilled⟩

theorem FillLog.untraded_pushDecision (l : FillLog) {d : SimDecision} (hqty : d.filledQty = 0)
    (hfee : d.fee = 0) (vis ref : Nat) (s : Side) : l.Untraded (l.pushDecision d vis ref s) where
  executions := rfl
  reports := rfl
  trades := rfl
  fillCount := by
    unfold pushDecision
    dsimp only
    rw [hqty]
    exact if_neg (Nat.lt_irrefl 0)
  totalFees := by
    unfold pushDecision
    dsimp only
    rw [hfee, Int.add_zero]
  modelFilled := rfl

/-- The decision `d` gives the order all it can have without a trade: a place of its own, if
it is of a type that rests, and otherwise its whole quantity back. -/
structure Withheld (order : SimInbound) (d : SimDecision) : Prop where
  ref : d.ref = order.ref
  filledQty : d.filledQty = 0
  filledNotional : d.filledNotional = 0
  fee : d.fee = 0
  kind : d.kind = .rejectedUnknown ∨
    (d.kind = .rested ∧ d.cancelledQty = 0 ∧ restsAfter order.type ∧ 0 < order.qty) ∨
    (d.kind = .partialThenCancelled ∧ d.cancelledQty = toU32 (max 0 order.qty)
      ∧ ¬ (restsAfter order.type ∧ 0 < order.qty))

theorem Withheld.resolved {k : Nat} {sim : ExecutionSimulator k} {order o : SimInbound}
    {d : SimDecision} (h : Withheld o d) (hr : sim.resolved order = some o) : Withheld order d := by
  obtain ⟨href, _, hqty, htype⟩ := resolved_fields hr
  obtain ⟨h1, h2, h3, h4, h5⟩ := h
  rw [hqty, htype] at h5
  exact ⟨h1.trans href, h2, h3, h4, h5⟩

namespace ExecutionSimulator

variable {k : Nat} {cfg : SimConfig} {P : SimInbound → Prop} {sim mid sim' : ExecutionSimulator k}
  {order : SimInbound}

/-- From `sim` to `sim'` the market has stood still; `P` says which orders may have been decided. -/
structure Frozen (cfg : SimConfig) (P : SimInbound → Prop) (sim sim' : ExecutionSimulator k) :
    Prop where
  untraded : sim.log.Untraded sim'.log
  decisions : ∃ ds, sim'.log.decisions = sim.log.decisions ++ ds
    ∧ ∀ d ∈ ds, ∃ order, P order ∧ Withheld order d
  icebergs : sim.icebergs <+: sim'.icebergs
  external : ∀ i, sim.book.live i → (sim.book.order i).orderRef < cfg.externalRefLimit →
    sim'.book.live i ∧ (sim'.book.order i).view = (sim.book.order i).view

theorem Frozen.trans (h : Frozen cfg P sim mid) (h' : Frozen cfg P mid sim') :
    Frozen cfg P sim sim' where
  untraded := h.untraded.trans h'.untraded
  decisions := by
    obtain ⟨ds, hds, hall⟩ := h.decisions
    obtain ⟨ds', hds', hall'⟩ := h'.decisions
    refine ⟨ds ++ ds', by rw [hds', hds, List.append_assoc], fun d hd => ?_⟩
    rcases List.mem_append.mp hd with hd | hd
    · exact hall d hd
    · exact hall' d hd
  icebergs := h.icebergs.trans h'.icebergs
  external i hl hext := by
    obtain ⟨hl', hv⟩ := h.external i hl hext
    obtain ⟨hl'', hv'⟩ := h'.external i hl' ((Order.view_eq hv).1 ▸ hext)
    exact ⟨hl'', hv'.trans hv⟩

/-- A call that decides nothing. -/
theorem Frozen.keeps (hlog : sim.log.Untraded sim'.log)
    (hdec : sim'.log.decisions = sim.log.decisions)
    (hkeep : KeepsExternal cfg.externalRefLimit sim sim') : Frozen cfg P sim sim' where
  untraded := hlog
  decisions := ⟨[], by rw [hdec, List.append_nil], fun _ hd => absurd hd List.not_mem_nil⟩
  icebergs := by rw [hkeep.icebergs]
  external := hkeep.order

theorem Frozen.refl (sim : ExecutionSimulator k) : Frozen cfg P sim sim :=
  .keeps (.refl _) rfl (.same rfl rfl)

/-- One order has been decided. -/
theorem Frozen.decided {d : SimDecision} (hlog : sim.log.Untraded sim'.log)
    (hdec : sim'.log.decisions = sim.log.decisions ++ [d]) (hp : P order) (hd : Withheld order d)
    (hkeep : KeepsExternal cfg.externalRefLimit sim sim') : Frozen cfg P sim sim' where
  untraded := hlog
  decisions := ⟨[d], hdec, fun x hx => ⟨order, hp, by rw [List.mem_singleton.mp hx]; exact hd⟩⟩
  icebergs := by rw [hkeep.icebergs]
  external := hkeep.order

/-- An order that does not cross is placed or handed back. -/
theorem finish_frozen {o : SimInbound} {decisionTs vis : Nat}
    (hf : FinishCase sim o o.qty { decisionTs } vis sim') : ∃ d, sim.log.Untraded sim'.log
      ∧ sim'.log.decisions = sim.log.decisions ++ [d] ∧ Withheld o d
      ∧ KeepsExternal cfg.externalRefLimit sim sim' := by
  cases hf with
  | refused hrests =>
      exact ⟨_, FillLog.untraded_pushDecision _ rfl rfl _ _ _, rfl, ⟨rfl, rfl, rfl, rfl, Or.inl rfl⟩,
        .same rfl rfl⟩
  | displayed i b hrests _ _ hr =>
      exact ⟨_, FillLog.untraded_pushDecision _ rfl rfl _ _ _, rfl,
        ⟨rfl, rfl, rfl, rfl, Or.inr (Or.inl ⟨rfl, rfl, hrests⟩)⟩, .rested rfl hr⟩
  | ledger hrests =>
      exact ⟨_, FillLog.untraded_pushDecision _ rfl rfl _ _ _, rfl,
        ⟨rfl, rfl, rfl, rfl, Or.inr (Or.inl ⟨rfl, rfl, hrests⟩)⟩, .same rfl rfl⟩
  | cancelled d hno hd =>
      subst hd
      refine ⟨_, FillLog.untraded_pushDecision _ rfl rfl _ _ _, rfl,
        ⟨rfl, rfl, rfl, rfl, Or.inr (Or.inr ⟨rfl, ?_, hno⟩)⟩, .same rfl rfl⟩
      show (if 0 < o.qty then toU32 o.qty else 0) = toU32 (max 0 o.qty)
      split
      · rename_i hpos
        rw [Int.max_eq_right (Int.le_of_lt hpos)]
      · rename_i hneg
        rw [Int.max_eq_left (Int.not_lt.mp hneg)]
        rfl

/-- **A decision while the book is halted.** -/
theorem decide_frozen {ts : Nat} (hd : DecideCase cfg sim order ts sim') (hhalt : sim.halted = true)
    (hp : P order) : Frozen cfg P sim sim' := by
  have hopen : sim.log.Untraded (sim.opened cfg ts).log := ⟨rfl, rfl, rfl, rfl, rfl, rfl⟩
  have hkeep : KeepsExternal cfg.externalRefLimit sim (sim.opened cfg ts) := .same rfl rfl
  have hcross : ∀ o, ¬ (sim.opened cfg ts).crosses o := fun o hc => by
    have hlive : sim.halted = false := hc.1
    rw [hhalt] at hlive
    cases hlive
  have hrefused : ∀ {o : SimInbound} {vis : Nat}, o.ref = order.ref →
      Frozen cfg P sim ((sim.opened cfg ts).pushDecision {} vis o) := fun href =>
    .decided (hopen.trans (FillLog.untraded_pushDecision _ rfl rfl _ _ _)) rfl hp
      ⟨href, rfl, rfl, rfl, Or.inl rfl⟩ (hkeep.trans (.same rfl rfl))
  cases hd with
  | unpriced vis hr => exact hrefused (resolvePeg_ref order).1
  | duplicate o vis hr hdup => exact hrefused (resolved_fields hr).1
  | wouldCross o vis hr _ _ hc => exact absurd hc (hcross o)
  | placed o vis _ hr _ _ _ hf =>
      obtain ⟨d, hlog, hdec, hwith, hk⟩ := finish_frozen hf
      exact .decided (hopen.trans hlog) hdec hp (hwith.resolved hr) (hkeep.trans hk)
  | stopped o vis w hr _ _ hc => exact absurd hc (hcross o)
  | swept o vis w _ hr _ _ hc => exact absurd hc (hcross o)

/-- **A call while the book is halted.** -/
theorem call_frozen {c : SimCall} (h : SimInv cfg sim) (hl : c.Legal cfg.externalRefLimit)
    (hhalt : sim.halted = true) (hw : sim.wheel.Holds fun e => P e.order) :
    Frozen cfg P sim (sim.call cfg c) := by
  -- Every call is refused, only adds external liquidity, or moves the strategy's own orders; none
  -- lets an external order trade.
  cases c with
  | seedExternal ref s qty price =>
      rcases OrderBook.add_cases h.book ref s qty price with ⟨_, _, i, hi⟩ | ⟨_, _, hb⟩
      · exact .keeps (.refl _) rfl (.rested rfl hi)
      · exact .keeps (.refl _) rfl (.same rfl hb)
  | seedIceberg spec =>
      rw [call]
      rcases seedIceberg_cases h spec with ⟨_, _, i, b, hr, heq⟩ | ⟨_, heq⟩
      · rw [heq]
        have hrest : KeepsExternal cfg.externalRefLimit sim { sim with book := b } :=
          .rested rfl hr
        exact ⟨.refl _, ⟨[], (List.append_nil _).symm, fun _ hd => absurd hd List.not_mem_nil⟩,
          List.prefix_append _ _, hrest.order⟩
      · rw [heq]
        exact .refl sim
  | submit order arrivalTs => exact .keeps ⟨rfl, rfl, rfl, rfl, rfl, rfl⟩ rfl (.same rfl rfl)
  | decideNext =>
      rw [call, decideNext]
      split
      · exact .refl sim
      · rename_i hne
        have hpop := Scheduler.popMin_holds hw hne
        have hd := decide_cases (popped_inv h hne) sim.wheel.popMin.1.order
          sim.wheel.popMin.1.visibleTs
        have hf : Frozen cfg P { sim with wheel := sim.wheel.popMin.2 } _ :=
          decide_frozen hd hhalt hpop.1
        exact ⟨hf.untraded, hf.decisions, hf.icebergs, hf.external⟩
  | applyExternal s price qty =>
      rw [call, applyExternal, if_pos hhalt]
      exact .refl sim
  | advanceTime dtNs drawnBuy drawnSell scaled =>
      rw [call, advanceTime, if_pos (Or.inr hhalt)]
      exact .refl sim
  | cancelStrategy ref =>
      have hc := cancelStrategy_cases h ref
      rw [call]
      generalize sim.cancelStrategy ref = r at *
      cases hc with
      | tracked i mid hh hwd =>
          have hkeep : KeepsExternal cfg.externalRefLimit sim mid :=
            .reduced hwd.icebergs hwd.book hh.own.2
          refine .keeps ?_ (congrArg FillLog.decisions hwd.log) (hkeep.trans (.same rfl rfl))
          show sim.log.Untraded mid.log
          rw [hwd.log]
          exact .refl _
      | hidden hno hmem => exact .keeps ⟨rfl, rfl, rfl, rfl, rfl, rfl⟩ rfl (.same rfl rfl)
      | unknown => exact .refl sim
  | replaceStrategy orig fresh qty price =>
      have hc := replaceStrategy_cases h orig hl.2 qty price
      rw [call]
      generalize sim.replaceStrategy orig fresh qty price = r at *
      cases hc with
      | tracked i j b _ hh hc _ hr =>
          have hgone : KeepsExternal cfg.externalRefLimit sim { sim with book := b } :=
            .reduced rfl hr.gone hh.own.2
          refine .keeps ?_ (congrArg FillLog.decisions hr.log)
            (hgone.trans (.rested hr.icebergs hr.rested))
          rw [hr.log]
          exact .refl _
      | refused => exact .refl sim
      | hidden e hno hfind => exact .keeps ⟨rfl, rfl, rfl, rfl, rfl, rfl⟩ rfl (.same rfl rfl)
      | unknown => exact .refl sim
  | setHalted b => exact .keeps (.refl _) rfl (.same rfl rfl)
  | setStpMode m => exact .keeps (.refl _) rfl (.same rfl rfl)

/-! ## While the halt lasts -/

theorem call_halted {c : SimCall} (h : SimInv cfg sim) (hl : c.Legal cfg.externalRefLimit)
    (hhalt : sim.halted = true) (hc : c ≠ .setHalted false) : (sim.call cfg c).halted = true := by
  by_cases hset : ∃ b, c = .setHalted b
  · obtain ⟨b, rfl⟩ := hset
    cases b with
    | true => rfl
    | false => exact absurd rfl hc
  · rw [(call_modes h hl).1 fun b hb => hset ⟨b, hb⟩]
    exact hhalt

/-- The orders that wait are orders that were submitted. -/
theorem waiting_fold {calls : List SimCall} (hc : OrderBook.ConfigOk k cfg.book)
    (h : Reachable cfg sim) (hw : sim.wheel.Holds fun e => P e.order)
    (hl : ∀ c ∈ calls, c.Legal cfg.externalRefLimit)
    (hp : ∀ order ts, SimCall.submit order ts ∈ calls → P order) :
    Reachable cfg (calls.foldl (fun s c => s.call cfg c) sim)
      ∧ (calls.foldl (fun s c => s.call cfg c) sim).wheel.Holds fun e => P e.order := by
  induction calls generalizing sim with
  | nil => exact ⟨h, hw⟩
  | cons c calls ih =>
      have hlc := hl c List.mem_cons_self
      have hw' := call_wheel (h.simInv hc) hw hlc fun order ts hs =>
        hp order ts (hs ▸ List.mem_cons_self)
      exact ih (h.step c hlc trivial) hw' (fun x hx => hl x (List.mem_cons_of_mem _ hx))
        fun order ts hs => hp order ts (List.mem_cons_of_mem _ hs)

theorem frozen_fold {calls : List SimCall} (hc : OrderBook.ConfigOk k cfg.book)
    (h : Reachable cfg sim) (hhalt : sim.halted = true) (hw : sim.wheel.Holds fun e => P e.order)
    (hl : ∀ c ∈ calls, c.Legal cfg.externalRefLimit)
    (hp : ∀ order ts, SimCall.submit order ts ∈ calls → P order)
    (hstay : SimCall.setHalted false ∉ calls) :
    Frozen cfg P sim (calls.foldl (fun s c => s.call cfg c) sim) := by
  induction calls generalizing sim with
  | nil => exact .refl sim
  | cons c calls ih =>
      have hlc := hl c List.mem_cons_self
      have hstep := call_frozen (h.simInv hc) hlc hhalt hw
      have hhalt' := call_halted (h.simInv hc) hlc hhalt fun hs => hstay (hs ▸ List.mem_cons_self)
      have hw' := call_wheel (h.simInv hc) hw hlc fun order ts hs =>
        hp order ts (hs ▸ List.mem_cons_self)
      exact hstep.trans (ih (h.step c hlc trivial) hhalt' hw'
        (fun x hx => hl x (List.mem_cons_of_mem _ hx))
        (fun order ts hs => hp order ts (List.mem_cons_of_mem _ hs))
        fun hs => hstay (List.mem_cons_of_mem _ hs))

/-- The orders that a list of calls submits. -/
def Submitted (calls : List SimCall) (order : SimInbound) : Prop :=
  ∃ ts, SimCall.submit order ts ∈ calls

/--
**A halt holds.**

In every run, from the call that halts the book to the one that lifts the halt, nothing
executes: no fill, print or fee is added, every decision made answers a submitted order
with a place of its own or with its whole quantity back, and the orders and icebergs of
others are all where they were, with what they had.
-/
theorem halted_frozen (hc : OrderBook.ConfigOk k cfg.book) (before during : List SimCall)
    (hl : ∀ c ∈ before ++ during, c.Legal cfg.externalRefLimit)
    (hstay : SimCall.setHalted false ∉ during) :
    Frozen cfg (Submitted (before ++ during))
      (run cfg (before ++ [.setHalted true]) : ExecutionSimulator k)
      (run cfg (before ++ .setHalted true :: during)) := by
  have hinit : (init cfg : ExecutionSimulator k).wheel.Holds
      fun e => Submitted (before ++ during) e.order := fun j hj => absurd hj (Nat.not_lt_zero j)
  obtain ⟨hr, hw⟩ := waiting_fold hc .init hinit
    (fun c hmem => hl c (List.mem_append_left _ hmem))
    fun order ts hs => ⟨ts, List.mem_append_left _ hs⟩
  have hr' := hr.step (.setHalted true) trivial trivial
  have hfold := frozen_fold hc hr' rfl hw (fun c hmem => hl c (List.mem_append_right _ hmem))
    (fun order ts hs => ⟨ts, List.mem_append_right _ hs⟩) hstay
  unfold run
  rw [List.foldl_append, List.foldl_append]
  exact hfold

/-- A print and a market order meet a halted book. -/
theorem halted_frozen_print :
    Frozen deskConfig
      (Submitted [.seedExternal 1 .sell 4 5, .submit { ref := 101, qty := 5, type := .market } 0,
        .decideNext, .applyExternal .sell 5 4])
      (run deskConfig [.seedExternal 1 .sell 4 5, .setHalted true] : ExecutionSimulator 4)
      (run deskConfig [.seedExternal 1 .sell 4 5, .setHalted true,
        .submit { ref := 101, qty := 5, type := .market } 0, .decideNext,
        .applyExternal .sell 5 4]) :=
  halted_frozen deskConfig_ok [.seedExternal 1 .sell 4 5]
    [.submit { ref := 101, qty := 5, type := .market } 0, .decideNext, .applyExternal .sell 5 4]
    (by decide) (by simp)

end ExecutionSimulator

end Mog
