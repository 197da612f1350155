import Mog.Sim.Trade

/-!
# Calls, by their effect

`CallCase` says what a legal call can do to a state, and `DecideCase.market` what a
decision does to the market: elementary changes first, then the remainder comes to rest
in the book, in the ledger, or nowhere.

Later files prove a property once for each elementary change and once for each way a remainder
is placed, and these case lemmas turn that into a property of calls. They also say what a call
cannot do: which of them touch the scheduler, and which of them external liquidity.
-/

namespace Mog

open QueueSum TrackTable

namespace ExecutionSimulator

variable {k : Nat} {cfg : SimConfig} {sim sim' : ExecutionSimulator k} {order : SimInbound}

/-! ## Entries of a reference -/

/-- The first entry of a reference, and the two ways of rewriting there. -/
theorem split_of_find {orig : Nat} {l : List Hidden} {h : Hidden}
    (hfind : l.find? (fun h => h.ref = orig) = some h) :
    h.ref = orig ∧ ∃ l₁ l₂, l = l₁ ++ h :: l₂ ∧ eraseHidden orig l = l₁ ++ l₂
      ∧ ∀ fresh qty price, replaceHidden orig fresh qty price l
        = l₁ ++ { h with ref := fresh, priceTicks := price, qtyRemaining := qty } :: l₂ := by
  induction l with
  | nil => exact absurd hfind (by simp)
  | cons a l ih =>
      by_cases ha : a.ref = orig
      · rw [List.find?_cons_of_pos (by simpa using ha)] at hfind
        cases Option.some.inj hfind
        refine ⟨ha, [], l, rfl, ?_, fun fresh qty price => ?_⟩
        · rw [eraseHidden, if_pos ha, List.nil_append]
        · rw [replaceHidden, if_pos ha, List.nil_append]
      · rw [List.find?_cons_of_neg (by simpa using ha)] at hfind
        obtain ⟨href, l₁, l₂, hl, her, hre⟩ := ih hfind
        refine ⟨href, a :: l₁, l₂, by rw [hl]; rfl, ?_, fun fresh qty price => ?_⟩
        · rw [eraseHidden, if_neg ha, her, List.cons_append]
        · rw [replaceHidden, if_neg ha, hre, List.cons_append]

/-! ## The market side of a decision -/

/-- Book, registry, ledger, executions, fill reports and modes are the same. -/
structure MarketSame (sim sim' : ExecutionSimulator k) : Prop where
  book : sim'.book = sim.book
  icebergs : sim'.icebergs = sim.icebergs
  hidden : sim'.hidden = sim.hidden
  executions : sim'.log.executions = sim.log.executions
  reports : sim'.log.reports = sim.log.reports
  wheel : sim'.wheel = sim.wheel
  halted : sim'.halted = sim.halted
  stp : sim'.stp = sim.stp

/-- The ledger entry of a remainder. -/
def entryOf (o : SimInbound) (remaining : Int) : Hidden :=
  { ref := o.ref, side := o.side, priceTicks := o.price, qtyRemaining := remaining
    peg := o.peg, pegOffset := o.pegOffsetTicks, pegged := o.peg ≠ .none }

/-- A remainder has found its place. -/
inductive Placed (mid : ExecutionSimulator k) (o : SimInbound) (remaining : Int)
    (sim' : ExecutionSimulator k) : Prop where
  | nowhere (h : MarketSame mid sim')
  | displayed (i : Nat) (hrests : restsAfter o.type ∧ 0 < remaining)
      (hadd : mid.book.Addable o.ref o.side remaining o.price)
      (hr : OrderBook.Rested mid.book mid.book.levelSlots sim'.book i
        ⟨o.ref, remaining, o.price, o.side⟩)
      (h : MarketSame { mid with book := sim'.book } sim')
  | ledger (hrests : restsAfter o.type ∧ 0 < remaining)
      (h : MarketSame { mid with hidden := mid.hidden ++ [entryOf o remaining] } sim')

theorem pushDecision_same (sim : ExecutionSimulator k) (d : SimDecision) (vis : Nat)
    (o : SimInbound) : MarketSame sim (sim.pushDecision d vis o) :=
  ⟨rfl, rfl, rfl, rfl, rfl, rfl, rfl, rfl⟩

theorem FinishCase.placed {o : SimInbound} {remaining : Int} {out : SimDecision} {vis : Nat}
    (hf : FinishCase sim o remaining out vis sim') : Placed sim o remaining sim' := by
  cases hf with
  | refused => exact .nowhere (pushDecision_same _ _ _ _)
  | displayed i b hrests _ hadd hr =>
      exact .displayed i hrests hadd hr ⟨rfl, rfl, rfl, rfl, rfl, rfl, rfl, rfl⟩
  | ledger hrests => exact .ledger hrests ⟨rfl, rfl, rfl, rfl, rfl, rfl, rfl, rfl⟩
  | cancelled => exact .nowhere (pushDecision_same _ _ _ _)

/-- What is left of the order when it is placed: all of it, or what a sweep has left. -/
def LeftOver (cfg : SimConfig) (sim : ExecutionSimulator k) (o : SimInbound) (remaining : Int) :
    Prop :=
  remaining = o.qty ∨ (0 < o.qty ∧ ∃ w, Sweep.Moves cfg o (sim.crossStart o.qty) w
    ∧ remaining = o.qty - w.filled)

/-- **What a decision does to the market.** -/
theorem DecideCase.market {ts : Nat} (hd : DecideCase cfg sim order ts sim') (h : SimInv cfg sim) :
    ∃ mid, Exchanges cfg sim mid ∧ SimInv cfg mid
      ∧ (MarketSame mid sim' ∨ ∃ o remaining, sim.resolved order = some o
        ∧ (sim.book.findHandle order.ref).index = kNullIndex
        ∧ ¬ (order.type = .postOnly ∧ (sim.opened cfg ts).crosses o)
        ∧ LeftOver cfg (sim.opened cfg ts) o remaining ∧ Placed mid o remaining sim') := by
  have hopen := opened_exchanges h ts
  have hinv := Exchanges.inv h hopen
  -- a sweep from the opened state, and then its post-pass
  have hswept : ∀ (o : SimInbound) (w : Sweep k),
      Sweep.Moves cfg o ((sim.opened cfg ts).crossStart o.qty) w →
      Exchanges cfg sim w.sim ∧ SimInv cfg w.sim := by
    intro o w hm
    have hstart : Exchanges cfg (sim.opened cfg ts) ((sim.opened cfg ts).crossStart o.qty).sim :=
      (Exchange.idle (crossStart_idle _ o.qty)).once hinv.clearSync
    obtain ⟨ht, hw⟩ := hm.exchanges hinv.clearSync
    exact ⟨(hopen.trans hstart).trans ht, hw⟩
  cases hd with
  | unpriced vis hr => exact ⟨_, hopen, hinv, Or.inl (pushDecision_same _ _ _ _)⟩
  | duplicate o vis hr hdup => exact ⟨_, hopen, hinv, Or.inl (pushDecision_same _ _ _ _)⟩
  | wouldCross o vis hr => exact ⟨_, hopen, hinv, Or.inl (pushDecision_same _ _ _ _)⟩
  | placed o vis _ hr hfree hpost hno hf =>
      exact ⟨_, hopen, hinv, Or.inr ⟨o, o.qty, hr, hfree, hpost, Or.inl rfl, hf.placed⟩⟩
  | stopped o vis w hr hfree htype hcross hpos hm hw hrem hstop =>
      obtain ⟨ht, hw'⟩ := hswept o w hm
      exact ⟨w.sim, ht, hw', Or.inl ⟨rfl, rfl, rfl, rfl, rfl, rfl, rfl, rfl⟩⟩
  | swept o vis w _ hr hfree htype hcross hpos hm hw hend hf =>
      obtain ⟨ht, hw'⟩ := hswept o w hm
      have hset := Sweep.settle_inv hw' o.side.opp
      have hset' := ht.trans ((Exchange.idle (settle_idle w o.side.opp)).once hset)
      refine ⟨w.settle o.side.opp, hset', hset, Or.inr ⟨o, o.qty - w.filled, hr, hfree,
        fun hp => htype hp.1, Or.inr ⟨hpos, w, hm, rfl⟩, ?_⟩⟩
      -- counting the fills touches no part of the market
      cases hf.placed with
      | nowhere hs =>
          exact .nowhere ⟨hs.book, hs.icebergs, hs.hidden, hs.executions, hs.reports, hs.wheel,
            hs.halted, hs.stp⟩
      | displayed i hrests hadd hr hs =>
          exact .displayed i hrests hadd hr
            ⟨hs.book, hs.icebergs, hs.hidden, hs.executions, hs.reports, hs.wheel, hs.halted,
              hs.stp⟩
      | ledger hrests hs =>
          exact .ledger hrests
            ⟨hs.book, hs.icebergs, hs.hidden, hs.executions, hs.reports, hs.wheel, hs.halted,
              hs.stp⟩

/-! ## Calls -/

/-- **What a call can do**, by its effect. -/
inductive CallCase (cfg : SimConfig) (sim : ExecutionSimulator k) :
    SimCall → ExecutionSimulator k → Prop where
  /-- Refused, or nothing to do. -/
  | still (c : SimCall) : CallCase cfg sim c sim
  | flow (c : SimCall) (sim' : ExecutionSimulator k) (hc : c ≠ .decideNext)
      (ht : Exchanges cfg sim sim') : CallCase cfg sim c sim'
  | seed (ref : Nat) (s : Side) (qty price : Int) (i : Nat) (b : OrderBook k)
      (hok : (sim.seedExternal ref s qty price).1.ok)
      (hr : OrderBook.Rested sim.book sim.book.levelSlots b i ⟨ref, qty, price, s⟩) :
      CallCase cfg sim (.seedExternal ref s qty price) { sim with book := b }
  | iceberg (spec : IcebergSpec) (i : Nat) (b : OrderBook k)
      (hok : (sim.seedIceberg spec).1.ok)
      (hadd : sim.book.Addable spec.ref spec.side spec.display spec.price)
      (hr : OrderBook.Rested sim.book sim.book.levelSlots b i
        ⟨spec.ref, spec.display, spec.price, spec.side⟩) :
      CallCase cfg sim (.seedIceberg spec) { sim with
        book := b
        icebergs := sim.icebergs ++
          [{ ref := spec.ref, side := spec.side, priceTicks := spec.price, display := spec.display
             hidden := spec.total - spec.display }] }
  | submit (order : SimInbound) (arrivalTs : Nat) :
      CallCase cfg sim (.submit order arrivalTs) (sim.submit cfg order arrivalTs).2
  | decide (sim' : ExecutionSimulator k) (hne : ¬ sim.wheel.empty)
      (hd : DecideCase cfg { sim with wheel := sim.wheel.popMin.2 } sim.wheel.popMin.1.order
        sim.wheel.popMin.1.visibleTs sim') : CallCase cfg sim .decideNext sim'
  | cancelled (ref i : Nat) (mid : ExecutionSimulator k) (t : TrackTable)
      (hh : Holds cfg sim ref i) (hw : Withdrawn cfg sim mid i) :
      CallCase cfg sim (.cancelStrategy ref) { mid with track := t }
  | cancelledHidden (ref : Nat)
      (hno : ∀ i, sim.book.Own cfg.externalRefLimit i → (sim.book.order i).orderRef ≠ ref)
      (hmem : ∃ h ∈ sim.hidden, h.ref = ref) :
      CallCase cfg sim (.cancelStrategy ref) { sim with
        hidden := eraseHidden ref sim.hidden
        log := { sim.log with seqCounter := sim.log.seqCounter + 1 } }
  | replaced (orig fresh : Nat) (qty price : Int) (i j : Nat) (b : OrderBook k)
      (sim' : ExecutionSimulator k) (hh : Holds cfg sim orig i)
      (hc : sim.book.Replaceable i fresh qty price)
      (hr : Replaced cfg sim sim' i j fresh qty price b) :
      CallCase cfg sim (.replaceStrategy orig fresh qty price) sim'
  | replacedHidden (orig fresh : Nat) (qty price : Int) (e : Hidden)
      (hno : ∀ i, sim.book.Own cfg.externalRefLimit i → (sim.book.order i).orderRef ≠ orig)
      (hfind : sim.hidden.find? (fun h => h.ref = orig) = some e) :
      CallCase cfg sim (.replaceStrategy orig fresh qty price) { sim with
        hidden := replaceHidden orig fresh qty price sim.hidden
        log := { sim.log with seqCounter := sim.log.seqCounter + 1 } }
  | halt (h : Bool) : CallCase cfg sim (.setHalted h) (sim.setHalted h)
  | stpMode (m : StpMode) : CallCase cfg sim (.setStpMode m) (sim.setStpMode m)

/-- The state a decision starts from keeps the invariant. -/
theorem popped_inv (h : SimInv cfg sim) (hne : ¬ sim.wheel.empty) :
    SimInv cfg { sim with wheel := sim.wheel.popMin.2 } :=
  { book := h.book, mirror := h.mirror, icebergs := h.icebergs, hidden := h.hidden
    wheel := (Scheduler.popMin_holds h.wheel hne).2.1 }

/-- **What `seed_iceberg` can do.** -/
theorem seedIceberg_cases (h : SimInv cfg sim) (spec : IcebergSpec) :
    ((sim.seedIceberg spec).1.ok ∧ sim.book.Addable spec.ref spec.side spec.display spec.price
        ∧ ∃ i b, OrderBook.Rested sim.book sim.book.levelSlots b i
            ⟨spec.ref, spec.display, spec.price, spec.side⟩
          ∧ (sim.seedIceberg spec).2 = { sim with
            book := b
            icebergs := sim.icebergs ++
              [{ ref := spec.ref, side := spec.side, priceTicks := spec.price
                 display := spec.display, hidden := spec.total - spec.display }] })
      ∨ (¬ (sim.seedIceberg spec).1.ok ∧ (sim.seedIceberg spec).2 = sim) := by
  unfold seedIceberg
  dsimp only
  rcases OrderBook.add_cases h.book spec.ref spec.side spec.display spec.price with
    ⟨hadd, hok, i, hi⟩ | ⟨_, hok, hb⟩
  · rw [if_neg (not_not.mpr hok)]
    exact Or.inl ⟨hok, hadd, i, _, hi, rfl⟩
  · rw [if_pos hok, hb]
    exact Or.inr ⟨hok, rfl⟩

theorem call_cases (h : SimInv cfg sim) {c : SimCall} (hl : c.Legal cfg.externalRefLimit) :
    CallCase cfg sim c (sim.call cfg c) := by
  cases c with
  | seedExternal ref s qty price =>
      rcases OrderBook.add_cases h.book ref s qty price with ⟨_, hok, i, hi⟩ | ⟨_, _, hb⟩
      · exact .seed ref s qty price i _ hok hi
      · have hstill : sim.call cfg (.seedExternal ref s qty price) = sim := by
          rw [call, seedExternal]
          dsimp only
          rw [hb]
        rw [hstill]
        exact .still _
  | seedIceberg spec =>
      rcases seedIceberg_cases h spec with ⟨hok, hadd, i, b, hr, heq⟩ | ⟨_, heq⟩
      · rw [call, heq]
        exact .iceberg spec i b hok hadd hr
      · rw [call, heq]
        exact .still _
  | submit order arrivalTs => exact .submit order arrivalTs
  | decideNext =>
      rw [call, decideNext]
      split
      · exact .still _
      · rename_i hne
        exact .decide _ hne (decide_cases (popped_inv h hne) _ _)
  | applyExternal s price qty => exact .flow _ _ (by simp) (applyExternal_exchanges h s price qty)
  | advanceTime dtNs drawnBuy drawnSell scaled =>
      exact .flow _ _ (by simp) (advanceTime_exchanges h dtNs drawnBuy drawnSell scaled)
  | cancelStrategy ref =>
      have hc := cancelStrategy_cases h ref
      rw [call]
      generalize sim.cancelStrategy ref = r at *
      cases hc with
      | tracked i mid hh hw => exact .cancelled ref i mid _ hh hw
      | hidden hno hmem => exact .cancelledHidden ref hno hmem
      | unknown => exact .still _
  | replaceStrategy orig fresh qty price =>
      have hc := replaceStrategy_cases h orig hl.2 qty price
      rw [call]
      generalize sim.replaceStrategy orig fresh qty price = r at *
      cases hc with
      | tracked i j b _ hh hc _ hr => exact .replaced orig fresh qty price i j b _ hh hc hr
      | refused => exact .still _
      | hidden e hno hfind => exact .replacedHidden orig fresh qty price e hno hfind
      | unknown => exact .still _
  | setHalted b => exact .halt b
  | setStpMode m => exact .stpMode m

theorem DecideCase.wheel {ts : Nat} (hd : DecideCase cfg sim order ts sim')
    (h : SimInv cfg sim) : sim'.wheel = sim.wheel := by
  obtain ⟨mid, ht, _, hs | ⟨o, remaining, _, _, _, _, hp⟩⟩ := hd.market h
  · exact hs.wheel.trans (Trades.wheel (Exchanges.trades ht h))
  · refine Eq.trans ?_ (Trades.wheel (Exchanges.trades ht h))
    cases hp with
    | nowhere hs => exact hs.wheel
    | displayed _ _ _ _ hs => exact hs.wheel
    | ledger _ hs => exact hs.wheel

/-- **Orders wait for their decision as they were submitted.** -/
theorem call_wheel {P : SimInbound → Prop} {c : SimCall} (h : SimInv cfg sim)
    (hw : sim.wheel.Holds (fun e => P e.order)) (hl : c.Legal cfg.externalRefLimit)
    (hsubmit : ∀ order ts, c = .submit order ts → P order) :
    (sim.call cfg c).wheel.Holds (fun e => P e.order) := by
  have hc := call_cases h hl
  generalize sim.call cfg c = r at hc
  cases hc with
  | still => exact hw
  | flow _ _ _ ht => rw [Trades.wheel (Exchanges.trades ht h)]; exact hw
  | seed | iceberg | cancelledHidden | replacedHidden | halt | stpMode => exact hw
  | submit order ts => exact Scheduler.push_holds hw (hsubmit order ts rfl)
  | decide sim' hne hd =>
      rw [hd.wheel (popped_inv h hne)]
      exact (Scheduler.popMin_holds hw hne).2.1
  | cancelled ref i mid t hh hwd =>
      show mid.wheel.Holds _
      rw [hwd.env.wheel]
      exact hw
  | replaced _ _ _ _ _ _ _ _ _ _ hd => rw [hd.env.wheel]; exact hw

/-! ## External liquidity -/

/-- The registry is as it was, and so are the external orders in their slots. -/
structure KeepsExternal (limit : Nat) (sim sim' : ExecutionSimulator k) : Prop where
  icebergs : sim'.icebergs = sim.icebergs
  order : ∀ i, sim.book.live i → (sim.book.order i).orderRef < limit →
    sim'.book.live i ∧ (sim'.book.order i).view = (sim.book.order i).view

theorem KeepsExternal.same {limit : Nat} (hi : sim'.icebergs = sim.icebergs)
    (hb : sim'.book = sim.book) : KeepsExternal limit sim sim' :=
  ⟨hi, fun i hl _ => by rw [hb]; exact ⟨hl, rfl⟩⟩

/-- An order of the strategy goes. -/
theorem KeepsExternal.reduced {limit i : Nat} {qty : Int} (hi : sim'.icebergs = sim.icebergs)
    (hr : OrderBook.Reduced sim.book sim.book.levelSlots sim'.book i qty)
    (hown : limit ≤ (sim.book.order i).orderRef) : KeepsExternal limit sim sim' := by
  refine ⟨hi, fun j hl hext => ?_⟩
  have hji : j ≠ i := fun he => by
    rw [he] at hext
    omega
  exact ⟨(hr.live j).mpr ⟨hl, fun hh => hji hh.1⟩, hr.frame j hji⟩

/-- An order comes to rest. -/
theorem KeepsExternal.rested {limit i : Nat} {v : OrderView} (hi : sim'.icebergs = sim.icebergs)
    (hr : OrderBook.Rested sim.book sim.book.levelSlots sim'.book i v) :
    KeepsExternal limit sim sim' := by
  refine ⟨hi, fun j hl _ => ?_⟩
  have hji : j ≠ i := fun he => hr.fresh (he ▸ hl)
  exact ⟨(hr.live j).mpr (Or.inr hl), hr.frame j hji⟩

theorem KeepsExternal.trans {limit : Nat} {mid : ExecutionSimulator k}
    (h : KeepsExternal limit sim mid) (h' : KeepsExternal limit mid sim') :
    KeepsExternal limit sim sim' := by
  refine ⟨h'.icebergs.trans h.icebergs, fun i hl hext => ?_⟩
  obtain ⟨hl', hv⟩ := h.order i hl hext
  obtain ⟨hl'', hv'⟩ := h'.order i hl' ((Order.view_eq hv).1 ▸ hext)
  exact ⟨hl'', hv'.trans hv⟩

theorem KeepsExternal.placed {limit : Nat} {o : SimInbound} {remaining : Int}
    (hp : Placed sim o remaining sim') : KeepsExternal limit sim sim' := by
  cases hp with
  | nowhere hs => exact .same hs.icebergs hs.book
  | displayed i _ _ hr hs => exact .rested hs.icebergs hr
  | ledger _ hs => exact .same hs.icebergs hs.book

/-- **Only executions and new icebergs touch external liquidity.** -/
theorem call_external {c : SimCall} (h : SimInv cfg sim) (hl : c.Legal cfg.externalRefLimit)
    (hc : ∀ spec, c ≠ .seedIceberg spec) : ∃ start mid, KeepsExternal cfg.externalRefLimit sim start
      ∧ SimInv cfg start ∧ Exchanges cfg start mid
      ∧ KeepsExternal cfg.externalRefLimit mid (sim.call cfg c) := by
  have hcase := call_cases h hl
  generalize sim.call cfg c = r at hcase
  have hself : KeepsExternal cfg.externalRefLimit sim sim := .same rfl rfl
  cases hcase with
  | still => exact ⟨sim, sim, hself, h, .refl, hself⟩
  | flow _ _ _ ht => exact ⟨sim, _, hself, h, ht, .same rfl rfl⟩
  | seed _ _ _ _ _ b _ hr => exact ⟨sim, sim, hself, h, .refl, .rested rfl hr⟩
  | iceberg spec => exact absurd rfl (hc spec)
  | submit | cancelledHidden | replacedHidden | halt | stpMode =>
      exact ⟨sim, sim, hself, h, .refl, .same rfl rfl⟩
  | decide _ hne hd =>
      obtain ⟨mid, ht, _, hcase⟩ := hd.market (popped_inv h hne)
      refine ⟨{ sim with wheel := sim.wheel.popMin.2 }, mid, .same rfl rfl, popped_inv h hne, ht, ?_⟩
      rcases hcase with hs | ⟨o, remaining, _, _, _, _, hp⟩
      · exact .same hs.icebergs hs.book
      · exact .placed hp
  | cancelled _ i mid t hh hw =>
      have hgone : KeepsExternal cfg.externalRefLimit sim mid :=
        .reduced hw.icebergs hw.book hh.own.2
      exact ⟨sim, sim, hself, h, .refl, hgone.trans (.same rfl rfl)⟩
  | replaced orig fresh qty price i j b _ hh _ hd =>
      have hgone : KeepsExternal cfg.externalRefLimit sim { sim with book := b } :=
        .reduced rfl hd.gone hh.own.2
      exact ⟨sim, sim, hself, h, .refl, hgone.trans (.rested hd.icebergs hd.rested)⟩

end ExecutionSimulator

end Mog
