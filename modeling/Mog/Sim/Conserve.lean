import Mog.Sim.Losses
import Mog.Sim.Marketable
import Mog.Sim.Priority

/-!
# Inbound quantity is conserved

A decision fills, cancels or rests what it was given. What a sweep takes it takes from
orders that rest; what it leaves goes into the book, into the ledger or nowhere. One exit
loses quantity: the book may refuse a remainder after the sweep has traded, and the order
is then reported as if nothing had happened.

The other way to lose count is an entry of the ledger at less than nothing: a sweep that taps
it has more left than before and may leave with more than it came with. Only a replace can
bring such an entry in.
-/

namespace Mog

open QueueSum TrackTable

/-- No entry of the ledger holds less than nothing. -/
def LedgerCounted (l : List Hidden) : Prop := ∀ e ∈ l, 0 ≤ e.qtyRemaining

theorem toU32_of_narrow {q : Int} (h0 : 0 ≤ q) (h1 : q < 2 ^ 32) : (toU32 q : Int) = q := by
  unfold toU32
  rw [Int.emod_eq_of_lt h0 h1]
  exact Int.toNat_of_nonneg h0

/-- The end that a pass brings the loop to, if it does. -/
def SweepStep.ends {k : Nat} : SweepStep k → Option SweepEnd
  | .more _ => none
  | .leave => some .done
  | .stpStop => some .stpStop

/-- A kind that says the order has done nothing. -/
def DecisionKind.Refused (kind : DecisionKind) : Prop :=
  kind = .rejectedUnknown ∨ kind = .rejectedWouldCross

namespace ExecutionSimulator

variable {k : Nat} {cfg : SimConfig} {sim sim' : ExecutionSimulator k} {order : SimInbound}

/-! ## Elementary changes -/

theorem keptByTaking_counted : KeptByTaking (fun q => 0 ≤ q) := by
  intro r q hr h0 hne
  omega

/-- No elementary change leaves the ledger with less than nothing. -/
theorem Trades.counted (h : LedgerCounted sim.hidden) (ht : Trades cfg sim sim') :
    LedgerCounted sim'.hidden := Trades.entries keptByTaking_counted h ht

/-- Repegging moves prices, not quantities. -/
theorem ledgerQty_repeg (sim : ExecutionSimulator k) (ref : Nat) :
    ledgerQty sim.repegHidden.hidden ref = ledgerQty sim.hidden ref := by
  unfold ledgerQty repegHidden
  dsimp only
  rw [List.map_map]
  refine congrArg List.sum (List.map_congr_left (fun e _ => ?_))
  dsimp only [Function.comp]
  split
  · split <;> rfl
  · rfl

/-- A slice or a victim that leaves changes no ladder's pages. -/
theorem Shown.pages {mid : ExecutionSimulator k} {ref : Nat} (h : Shown mid sim' ref)
    (hmid : ∀ ib ∈ mid.icebergs, IcebergOk cfg.externalRefLimit mid.book ib) (s : Side) :
    (sim'.book.ladderFor s).touched = (mid.book.ladderFor s).touched
      ∧ OrderBook.SameConfig mid.book sim'.book := by
  rcases h with ⟨rfl, _⟩ | ⟨ib, rest, i, _, hrep⟩
  · exact ⟨rfl, .refl _⟩
  · refine ⟨?_, hrep.book.config⟩
    have hpage := (hmid ib (hrep.entry.mem_iff.mpr List.mem_cons_self)).page
    rw [hrep.book.touched]
    split
    · rename_i hs
      subst hs
      -- the iceberg's page was claimed when it was registered
      exact Finset.insert_eq_of_mem hpage
    · rfl

end ExecutionSimulator

/-! ## Sweeps -/

namespace Sweep

open ExecutionSimulator

variable {k : Nat} {cfg : SimConfig} {w w' w'' : Sweep k} {order : SimInbound} {ref : Nat}

/-- The executions `es` between two points of a sweep, and what is left for an order named
`ref` that is not in the book. -/
structure Takes (ref : Nat) (w w' : Sweep k) (es : List Execution) : Prop where
  executions : w'.sim.log.executions = w.sim.log.executions ++ es
  ledger : ledgerQty w'.sim.hidden ref + executedOf es ref = ledgerQty w.sim.hidden ref
  touched : ∀ s, (w'.sim.book.ladderFor s).touched = (w.sim.book.ladderFor s).touched
  config : OrderBook.SameConfig w.sim.book w'.sim.book

theorem Takes.refl (ref : Nat) (w : Sweep k) : Takes ref w w [] where
  executions := (List.append_nil _).symm
  ledger := Int.add_zero _
  touched _ := rfl
  config := .refl _

theorem Takes.trans {es es' : List Execution} (h : Takes ref w w' es) (h' : Takes ref w' w'' es') :
    Takes ref w w'' (es ++ es') where
  executions := by rw [h'.executions, h.executions, List.append_assoc]
  ledger := by
    have h1 := h.ledger
    have h2 := h'.ledger
    rw [executedOf_append]
    omega
  touched s := (h'.touched s).trans (h.touched s)
  config := h.config.trans h'.config

theorem Move.takes (hm : Move cfg order w w') (h : SimInv cfg w.sim)
    (hfree : ¬ w.sim.InBook ref) : ∃ es, Takes ref w w' es := by
  cases hm with
  | fill i l take mid ht hstp hf htake hs hc =>
      obtain ⟨hhid, hlog, _⟩ := Shown.fields hs
      have hmid : SimInv cfg mid := hf.inv h
      have hname : (w.sim.book.order i).orderRef ≠ ref := fun he => hfree ⟨i, hf.live, he⟩
      refine ⟨[w.sim.executionOf i take],
        { executions := ?_, ledger := ?_, touched := fun s => ?_, config := ?_ }⟩
      · rw [hlog, hf.log, FillLog.displayedFill_executions]
      · rw [hhid, hf.hidden]
        have hnone : executedOf [w.sim.executionOf i take] ref = 0 := by
          show (if (w.sim.book.order i).orderRef = ref then take else 0) + 0 = 0
          rw [if_neg hname, Int.add_zero]
        rw [hnone, Int.add_zero]
      · rw [(Shown.pages hs hmid.icebergs s).1, hf.book.touched]
      · exact hf.book.config.trans (Shown.pages hs hmid.icebergs .buy).2
  | tap t e kept l hside hbound he hrem hc =>
      refine ⟨[t.execution e],
        { executions := ?_, ledger := ?_, touched := fun s => by rw [he.after],
          config := by rw [he.after]; exact .refl _ }⟩
      · rw [he.after]
        show t.log.executions ++ [t.execution e] = _
        rw [he.log]
      · have hone : executedOf [t.execution e] ref = if e.ref = ref then t.amount e else 0 :=
          Int.add_zero _
        rw [hone]
        exact he.ledger ref
  | remove i l ht hown hstp hr =>
      refine ⟨[],
        { executions := ?_, ledger := ?_, touched := hr.book.touched, config := hr.book.config }⟩
      · rw [hr.log, List.append_nil]
      · rw [hr.hidden]
        exact Int.add_zero _

/-- **A sweep takes from orders that rest** and keeps clear of a fresh reference of the
strategy's. -/
theorem Moves.takes (hm : Moves cfg order w w') (h : SimInv cfg w.sim)
    (hown : cfg.externalRefLimit ≤ ref) (hfree : ¬ w.sim.InBook ref) :
    ¬ w'.sim.InBook ref ∧ ∃ es, Takes ref w w' es := by
  have hkeeps : ∀ {u : Sweep k}, Moves cfg order w u → SimInv cfg u.sim ∧ ¬ u.sim.InBook ref := by
    intro u hu
    obtain ⟨hex, hinv⟩ := hu.exchanges h
    have ht := Exchanges.trades hex h
    exact ⟨hinv, fun hin => hfree ((Trades.refs h ht).1 ref hown hin)⟩
  refine ⟨(hkeeps hm).2, ?_⟩
  clear hfree
  induction hm with
  | refl => exact ⟨[], .refl ref w⟩
  | tail hab hb ih =>
      obtain ⟨es, hes⟩ := ih
      obtain ⟨hinv, hno⟩ := hkeeps hab
      obtain ⟨es', hes'⟩ := hb.1.takes hinv hno
      exact ⟨es ++ es', hes.trans hes'⟩

/-- A sweep over a ledger without negative entries fills nothing negative. -/
theorem Moves.filled_mono (hm : Moves cfg order w w') (h : SimInv cfg w.sim)
    (hl : LedgerCounted w.sim.hidden) : w.filled ≤ w'.filled := by
  induction hm with
  | refl => exact Int.le_refl _
  | @tail a b hab hb ih =>
      have hla : LedgerCounted a.sim.hidden :=
        Trades.counted hl (Exchanges.trades (Moves.exchanges hab h).1 h)
      cases hb.1 with
      | fill i l take mid ht hstp hf htake hs hc =>
          have := hf.pos
          have := hc.filled
          omega
      | tap t e kept l hside hbound he hrem hc =>
          have hq := hla e (by rw [he.before]; simp)
          have := he.remaining
          have hamt : 0 ≤ t.amount e := by
            unfold Tap.amount
            omega
          have := hc.filled
          omega
      | remove i l ht hown hstp hr => rw [hr.filled]; exact ih

/-- **The last pass of a sweep** is where its loop ends with quantity left. -/
theorem end_mem_passes (cfg : SimConfig) (order : SimInbound) (u : Sweep k) (e : SweepEnd) :
    ∀ fuel (w : Sweep k), (u ∈ passes cfg order fuel w ∧ (u.step cfg order).ends = some e)
      ↔ (w.loop cfg order fuel = (u, e) ∧ 0 < u.remaining ∧ e ≠ .outOfFuel) := by
  intro fuel
  induction fuel with
  | zero =>
      intro w
      rw [passes, loop]
      refine iff_of_false (fun h => List.not_mem_nil h.1) ?_
      rintro ⟨he, _, hne⟩
      exact hne (Prod.mk.inj he).2.symm
  | succ fuel ih =>
      intro w
      rw [passes, loop]
      by_cases hrem : w.remaining ≤ 0
      · rw [if_pos hrem, if_pos hrem]
        refine iff_of_false (fun h => List.not_mem_nil h.1) ?_
        rintro ⟨he, hpos, _⟩
        rw [← (Prod.mk.inj he).1] at hpos
        omega
      rw [if_neg hrem, if_neg hrem]
      cases hs : w.step cfg order with
      | more w' =>
          dsimp only
          rw [← ih w', List.mem_cons, or_and_right]
          refine or_iff_right ?_
          rintro ⟨rfl, hl⟩
          rw [hs] at hl
          exact absurd hl (by simp [SweepStep.ends])
      | leave | stpStop =>
          dsimp only
          rw [List.mem_singleton]
          constructor
          · rintro ⟨rfl, he⟩
            rw [hs] at he
            cases Option.some.inj he
            exact ⟨rfl, by omega, by decide⟩
          · rintro ⟨he, _⟩
            cases Prod.mk.inj he with
            | intro h1 h2 =>
                subst h1 h2
                exact ⟨rfl, by rw [hs]; rfl⟩

theorem leave_mem_passes {u w : Sweep k} {fuel : Nat} :
    (u ∈ passes cfg order fuel w ∧ u.step cfg order = .leave)
      ↔ (w.loop cfg order fuel = (u, .done) ∧ 0 < u.remaining) := by
  have hends : u.step cfg order = .leave ↔ (u.step cfg order).ends = some .done := by
    cases u.step cfg order <;> simp [SweepStep.ends]
  rw [hends, end_mem_passes]
  simp

end Sweep

namespace ExecutionSimulator

open Sweep

variable {k : Nat} {cfg : SimConfig} {sim sim' mid : ExecutionSimulator k} {order o : SimInbound}
  {ts : Nat}

/-! ## Decisions that sweep -/

/-- How the decision of an order that sweeps ends, its loop having left `w`. -/
inductive SweptCase (cfg : SimConfig) (sim : ExecutionSimulator k) (o : SimInbound) (ts : Nat)
    (w : Sweep k) : ExecutionSimulator k → Prop where
  | stopped (vis : Nat) (hloop : (sim.opened cfg ts).crossLoop cfg o o.qty = (w, .stpStop))
      (hrem : 0 < w.remaining) (hstop : w.step cfg o = .stpStop) :
      SweptCase cfg sim o ts w
        ((w.sim.counted o w.filled).pushDecision
          { sweepDecision cfg ts w.filled 0 with
            kind := .rejectedStp, cancelledQty := toU32 (o.qty - w.filled) } vis o)
  | done (vis : Nat) (sim' : ExecutionSimulator k)
      (hloop : (sim.opened cfg ts).crossLoop cfg o o.qty = (w, .done))
      (hend : w.remaining ≤ 0 ∨ (0 < w.remaining ∧ w.step cfg o = .leave))
      (hf : FinishCase ((w.settle o.side.opp).counted o w.filled) o (o.qty - w.filled)
        (sweepDecision cfg ts w.filled w.notional) vis sim') :
      SweptCase cfg sim o ts w sim'

theorem decide_sweeps (hs : sim.Sweeps order o) (ts : Nat) :
    sim.decide cfg order ts = (sim.opened cfg ts).sweep cfg o ts
      ((ts + cfg.wireLatencyNs + cfg.jitter sim.log.drawn) % 2 ^ 64) := by
  obtain ⟨hres, hfree, htype, hcross, hpos⟩ := hs
  have hdec : sim.decide cfg order ts
      = (sim.withLog (fun l => { l with nowHint := ts })).repegHidden.decideResolved cfg o ts := by
    have href : (sim.withLog (fun l => { l with nowHint := ts })).repegHidden.hiddenReference
        (resolvePeg order).peg (resolvePeg order).pegOffsetTicks
        = sim.hiddenReference (resolvePeg order).peg (resolvePeg order).pegOffsetTicks := rfl
    unfold decide
    unfold resolved at hres
    dsimp only
    rw [href]
    by_cases hpeg : (resolvePeg order).peg ≠ .none
    · rw [if_pos hpeg] at hres ⊢
      by_cases hpx : sim.hiddenReference (resolvePeg order).peg (resolvePeg order).pegOffsetTicks
          = kNoTick
      · rw [if_pos hpx] at hres
        exact absurd hres (by simp)
      · rw [if_neg hpx] at hres ⊢
        rw [← Option.some.inj hres]
    · rw [if_neg hpeg] at hres ⊢
      rw [← Option.some.inj hres]
  have hbook : ((sim.opened cfg ts).book.findHandle o.ref).index = kNullIndex := by
    rw [(resolved_fields hres).1]
    exact hfree
  have hgo : (sim.opened cfg ts).crosses o ∧ 0 < o.qty := ⟨hcross, hpos⟩
  rw [hdec]
  unfold decideResolved
  dsimp only
  exact (if_neg (not_not.mpr hbook)).trans
    ((if_neg (fun hp => htype hp.1)).trans (if_pos hgo))

/-- **What the decision of an order that sweeps does.** -/
theorem decide_swept (h : SimInv cfg sim) (hs : sim.Sweeps order o) (ts : Nat) :
    ∃ w, SimInv cfg w.sim ∧ Moves cfg o ((sim.opened cfg ts).crossStart o.qty) w
      ∧ SweptCase cfg sim o ts w (sim.decide cfg order ts) := by
  have hopen := Exchanges.inv h (opened_exchanges h ts)
  have hrun := loop_rule
    (I := fun w => Moves cfg o ((sim.opened cfg ts).crossStart o.qty) w)
    (fun _ _ hinv hm hrem hstep => hm.trans (step_moves hinv hrem hstep))
    ((sim.opened cfg ts).crossStart o.qty).fuel ((sim.opened cfg ts).crossStart o.qty)
    hopen.clearSync .refl (by rw [Sweep.fuel_eq]; exact Nat.lt_succ_self _)
  rw [decide_sweeps hs, sweep_eq, cross_eq]
  change SimInv cfg ((sim.opened cfg ts).crossLoop cfg o o.qty).1.sim
    ∧ Moves cfg o ((sim.opened cfg ts).crossStart o.qty) ((sim.opened cfg ts).crossLoop cfg o o.qty).1
    ∧ Ended cfg o ((sim.opened cfg ts).crossLoop cfg o o.qty).1
      ((sim.opened cfg ts).crossLoop cfg o o.qty).2 at hrun
  generalize hloop : (sim.opened cfg ts).crossLoop cfg o o.qty = r at *
  obtain ⟨w, e⟩ := r
  obtain ⟨hinv, hm, hend⟩ := hrun
  refine ⟨w, hinv, hm, ?_⟩
  have hset : SimInv cfg ((w.settle o.side.opp).counted o w.filled) :=
    (Sweep.settle_inv hinv _).logged _
  dsimp only at hend ⊢
  cases hend with
  | filled hle => exact .done _ _ hloop (Or.inl hle) (finish_cases hset _ _ _ _)
  | left hrem hl => exact .done _ _ hloop (Or.inr ⟨hrem, hl⟩) (finish_cases hset _ _ _ _)
  | stopped hrem hstop => exact .stopped _ hloop hrem hstop

/-! ## What is conserved -/

/-- What rests under a reference, in the book and in the ledger. -/
def restingOf (sim : ExecutionSimulator k) (ref : Nat) : Int :=
  sim.book.remainingOf ref + ledgerQty sim.hidden ref

/-- What has come to rest under a reference while `es` were executed: what rests there now,
less what rested there before and has not been executed. -/
def newlyResting (sim sim' : ExecutionSimulator k) (ref : Nat) (es : List Execution) : Int :=
  sim'.restingOf ref - (sim.restingOf ref - executedOf es ref)

/-- Book, ledger and fill reports are as they were, but for repegging. -/
structure Untouched (sim sim' : ExecutionSimulator k) : Prop where
  book : sim'.book = sim.book
  hidden : sim'.hidden = sim.repegHidden.hidden
  reports : sim'.log.reports = sim.log.reports

/-- The decision `d`, the executions `es` and the withdrawals `ws` account for all of `order` and
for all that other orders have lost. -/
structure Conserves (cfg : SimConfig) (sim sim' : ExecutionSimulator k) (order : SimInbound)
    (d : SimDecision) (es : List Execution) (ws : List Withdrawal) : Prop where
  decided : sim'.log.decisions = sim.log.decisions ++ [d]
  executed : sim'.log.executions = sim.log.executions ++ es
  opposing : ∀ e ∈ es, e.side = order.side.opp
  filled : (d.filledQty : Int) = executedQty es
  /-- Every other order, with the reserve behind it, has lost its executions or was withdrawn. -/
  orders : ∀ ref, ref ≠ 0 → ref ≠ order.ref →
    sim'.book.remainingOf ref + reserveOf sim'.icebergs ref + shownOf es ref + withdrawnOf ws ref
      = sim.book.remainingOf ref + reserveOf sim.icebergs ref
  /-- So have the levels that the order can trade with. -/
  levels : ∀ p, sim'.book.qtyAt order.side.opp p + reserveAt sim'.icebergs order.side.opp p
    + shownAt es order.side.opp p + withdrawnAt ws order.side.opp p
      = sim.book.qtyAt order.side.opp p + reserveAt sim.icebergs order.side.opp p
  /-- Every other entry of the ledger has lost its executions, and so have its levels. -/
  entries : ∀ ref, ref ≠ order.ref →
    ledgerQty sim'.hidden ref + tappedOf es ref = ledgerQty sim.hidden ref
  ledger : ∀ p, ledgerAt sim'.hidden order.side.opp p + tappedAt es order.side.opp p
    = ledgerAt sim.repegHidden.hidden order.side.opp p
  withdrawn : ∀ x ∈ ws, Withdraws cfg order sim sim' x
  refused : d.kind.Refused → d.filledQty = 0 ∧ sim.Untouched sim'
  balanced : ¬ d.kind.Refused →
    (d.filledQty : Int) + d.cancelledQty + sim.newlyResting sim' order.ref es = order.qty

/-- The step from `sim` to `sim'` makes one decision, which accounts for all of `order`. -/
def Conserved (cfg : SimConfig) (sim sim' : ExecutionSimulator k) (order : SimInbound) : Prop :=
  ∃ d es ws, sim.Conserves cfg sim' order d es ws

theorem not_refused_restKind (out : SimDecision) : ¬ (restKind out).Refused := by
  unfold restKind DecisionKind.Refused
  split <;> simp

/-- A reference that names no order in the book has nothing there. -/
theorem remainingOf_absent (h : SimInv cfg sim) {ref : Nat} (hr : ref ≠ 0)
    (hno : ¬ sim.InBook ref) : sim.book.remainingOf ref = 0 :=
  h.book.remainingOf_dead hr (fun i hi he => hno ⟨i, hi, he⟩)

/-- What the placing of a remainder needs to know of what came before it, in `mid`. -/
structure Accounted (cfg : SimConfig) (sim mid : ExecutionSimulator k) (o : SimInbound)
    (es : List Execution) (ws : List Withdrawal) : Prop where
  decisions : mid.log.decisions = sim.log.decisions
  opposing : ∀ e ∈ es, e.side = o.side.opp
  ledger : ledgerQty mid.hidden o.ref + executedOf es o.ref = ledgerQty sim.hidden o.ref
  before : ¬ sim.InBook o.ref
  after : ¬ mid.InBook o.ref
  lost : Lost sim.repegHidden mid es ws
  withdrawn : ∀ x ∈ ws, Withdraws cfg o sim mid x

/-- At most a remainder of `o` has been placed. -/
structure Rests (o : SimInbound) (mid sim' : ExecutionSimulator k) : Prop where
  executions : sim'.log.executions = mid.log.executions
  icebergs : sim'.icebergs = mid.icebergs
  orders : ∀ ref, ref ≠ 0 → ref ≠ o.ref → sim'.book.remainingOf ref = mid.book.remainingOf ref
  levels : ∀ p, sim'.book.qtyAt o.side.opp p = mid.book.qtyAt o.side.opp p
  entries : ∀ ref, ref ≠ o.ref → ledgerQty sim'.hidden ref = ledgerQty mid.hidden ref
  ledger : ∀ p, ledgerAt sim'.hidden o.side.opp p = ledgerAt mid.hidden o.side.opp p
  inBook : ∀ ref, ref ≠ o.ref → sim'.InBook ref → mid.InBook ref

/-- A decision that places nothing. -/
theorem Rests.none (o : SimInbound) (d : SimDecision) (vis : Nat) (mid : ExecutionSimulator k) :
    Rests o mid (mid.pushDecision d vis o) :=
  ⟨rfl, rfl, fun _ _ _ => rfl, fun _ => rfl, fun _ _ => rfl, fun _ => rfl, fun _ _ h => h⟩

theorem FinishCase.rests {remaining : Int} {out : SimDecision} {vis : Nat} (hmid : SimInv cfg mid)
    (hf : FinishCase mid o remaining out vis sim') : Rests o mid sim' := by
  have hopp := Side.opp_ne o.side
  cases hf with
  | refused hrests hshown hno => exact .none o _ vis mid
  | displayed i b hrests hshown hadd hrest =>
      refine ⟨rfl, rfl, fun ref hne href => ?_, fun p => ?_, fun _ _ => rfl, fun _ => rfl,
        fun ref href => ?_⟩
      · exact (hrest.lookup hmid.book hne href).2
      · have hlevel := hrest.qtyAt hmid.book o.side.opp p
        rw [if_neg fun hc => hopp hc.1, Int.add_zero] at hlevel
        exact hlevel
      · rintro ⟨j, hj, hjref⟩
        rcases (hrest.live j).mp hj with rfl | hlive
        · exact absurd (hjref.symm.trans (congrArg OrderView.orderRef hrest.self)) href
        · have hne : j ≠ i := fun hc => hrest.fresh (hc ▸ hlive)
          exact ⟨j, hlive, (Order.view_eq (hrest.frame j hne)).1.symm.trans hjref⟩
  | ledger hrests hhid =>
      refine ⟨rfl, rfl, fun _ _ _ => rfl, fun _ => rfl, fun ref href => ?_, fun p => ?_, fun _ _ h => h⟩
      · have hone : ledgerQty [entryOf o remaining] ref = 0 := by
          rw [ledgerQty_cons, if_neg (show (entryOf o remaining).ref ≠ ref from Ne.symm href)]
          rfl
        exact (ledgerQty_append _ _ _).trans ((congrArg _ hone).trans (Int.add_zero _))
      · have hone : ledgerAt [entryOf o remaining] o.side.opp p = 0 := by
          rw [ledgerAt_cons, if_neg fun hc => hopp (show o.side = _ from hc.1).symm]
          rfl
        exact (ledgerAt_append _ _ _ _).trans ((congrArg _ hone).trans (Int.add_zero _))
  | cancelled d hno hd => exact .none o _ vis mid

theorem Accounted.executions {es : List Execution} {ws : List Withdrawal}
    (ha : Accounted cfg sim mid o es ws) : mid.log.executions = sim.log.executions ++ es :=
  ha.lost.executions

/-- Counting and settling come between the last execution and the placing. -/
theorem Accounted.congr {mid' : ExecutionSimulator k} {es : List Execution} {ws : List Withdrawal}
    (ha : Accounted cfg sim mid o es ws) (hb : mid'.book = mid.book)
    (hi : mid'.icebergs = mid.icebergs) (hh : mid'.hidden = mid.hidden)
    (hd : mid'.log.decisions = mid.log.decisions) (hx : mid'.log.executions = mid.log.executions) :
    Accounted cfg sim mid' o es ws where
  decisions := hd.trans ha.decisions
  opposing := ha.opposing
  ledger := by rw [hh]; exact ha.ledger
  before := ha.before
  after := by unfold InBook; rw [hb]; exact ha.after
  lost := by
    have hl := ha.lost.trans (.still hb hi hh hx)
    rwa [List.append_nil, List.append_nil] at hl
  withdrawn x hx :=
    { ha.withdrawn x hx with gone := by unfold InBook; rw [hb]; exact (ha.withdrawn x hx).gone }

/-- **What has been traded and what has been placed** make up what the decision says. -/
theorem Accounted.conserves {es : List Execution} {ws : List Withdrawal} {d : SimDecision}
    (ha : Accounted cfg sim mid o es ws) (hp : Rests o mid sim')
    (hdec : sim'.log.decisions = mid.log.decisions ++ [d])
    (hfill : (d.filledQty : Int) = executedQty es)
    (hrefused : d.kind.Refused → d.filledQty = 0 ∧ sim.Untouched sim')
    (hbalanced : ¬ d.kind.Refused →
      (d.filledQty : Int) + d.cancelledQty + sim.newlyResting sim' o.ref es = o.qty) :
    Conserved cfg sim sim' o := by
  refine ⟨d, es, ws,
    { decided := by rw [hdec, ha.decisions], executed := hp.executions.trans ha.executions,
      opposing := ha.opposing, filled := hfill, refused := hrefused, balanced := hbalanced,
      orders := fun ref hne href => ?_, levels := fun p => ?_, entries := fun ref href => ?_,
      ledger := fun p => ?_, withdrawn := fun x hx => ?_ }⟩
  · rw [hp.orders ref hne href, hp.icebergs]
    exact ha.lost.orders ref hne
  · rw [hp.levels, hp.icebergs]
    exact ha.lost.levels _ p
  · rw [hp.entries ref href]
    exact (ha.lost.entries ref).trans (ledgerQty_repeg sim ref)
  · rw [hp.ledger]
    exact ha.lost.ledger _ p
  · have hw := ha.withdrawn x hx
    have hother : x.ref ≠ o.ref := fun hc => ha.before (hc ▸ hw.found)
    exact { hw with gone := fun hin => hw.gone (hp.inBook _ hother hin) }

theorem Accounted.newlyResting {es : List Execution} {ws : List Withdrawal}
    (ha : Accounted cfg sim mid o es ws) (h : SimInv cfg sim) (hr : o.ref ≠ 0)
    (sim' : ExecutionSimulator k) {b l : Int} (hb : sim'.book.remainingOf o.ref = b)
    (hl : ledgerQty sim'.hidden o.ref = ledgerQty mid.hidden o.ref + l) :
    sim.newlyResting sim' o.ref es = b + l := by
  have hz := remainingOf_absent h hr ha.before
  have := ha.ledger
  unfold ExecutionSimulator.newlyResting restingOf
  omega

/-- **A remainder that finds its place is accounted for**, and so is one that is cancelled;
one that the book refuses is when nothing has been executed. -/
theorem FinishCase.conserves {es : List Execution} {ws : List Withdrawal} {remaining : Int}
    {out : SimDecision} {vis : Nat} (hf : FinishCase mid o remaining out vis sim')
    (ha : Accounted cfg sim mid o es ws) (h : SimInv cfg sim) (hmid : SimInv cfg mid)
    (hr : o.ref ≠ 0) (hfill : (out.filledQty : Int) = executedQty es)
    (hcancel : out.cancelledQty = 0) (hrem : remaining = o.qty - executedQty es)
    (h0 : 0 ≤ remaining) (h1 : remaining < 2 ^ 32)
    (hrefused : restsAfter o.type ∧ 0 < remaining →
      ¬ (o.nonDisplayed = true ∨ o.peg ≠ .none) →
      ¬ mid.book.Addable o.ref o.side remaining o.price →
      out.filledQty = 0 ∧ sim.Untouched mid) : Conserved cfg sim sim' o := by
  -- The order stands nowhere while it is swept; where its remainder ends up is the case at hand.
  have habsent := remainingOf_absent hmid hr ha.after
  have hrests' := hf.rests hmid
  cases hf with
  | refused hrests hshown hno =>
      obtain ⟨hz, hun⟩ := hrefused hrests hshown hno
      exact ha.conserves hrests' rfl hfill (fun _ => ⟨hz, hun.book, hun.hidden, hun.reports⟩)
        fun hn => absurd (Or.inl rfl) hn
  -- What rests in the book is the remainder, under the order's own reference.
  | displayed i b hrests hshown hadd hrest =>
      have hb : b.remainingOf o.ref = remaining := by
        have hself := hrest.rem_self
        have hname : (b.order i).orderRef = o.ref := congrArg OrderView.orderRef hrest.self
        rw [← hname, hrest.valid.remainingOf_live ((hrest.live i).mpr (Or.inl rfl)), hself]
      refine ha.conserves hrests' rfl hfill (fun hk => absurd hk (not_refused_restKind out))
        fun _ => ?_
      have hnew := ha.newlyResting h hr (({ mid with
        book := b
        track := mid.track.trackResting b o.ref o.side remaining o.price } :
          ExecutionSimulator k).pushDecision { out with kind := restKind out } vis o) hb
        (Int.add_zero _).symm
      rw [hnew]
      dsimp only
      omega
  -- What is hidden is one more entry of the ledger.
  | ledger hrests hhid =>
      refine ha.conserves hrests' rfl hfill (fun hk => absurd hk (not_refused_restKind out))
        fun _ => ?_
      have hone : ledgerQty [entryOf o remaining] o.ref = remaining := by
        show (if o.ref = o.ref then remaining else 0) + 0 = remaining
        rw [if_pos rfl, Int.add_zero]
      have hnew := ha.newlyResting h hr (({ mid with
        hidden := mid.hidden ++ [entryOf o remaining] } :
          ExecutionSimulator k).pushDecision { out with kind := restKind out } vis o)
        (l := remaining) habsent ((ledgerQty_append _ _ _).trans (by rw [hone]))
      rw [entryOf] at hnew
      rw [hnew]
      dsimp only
      omega
  -- What is cancelled is written down, narrowed to the 32 bits that it fits.
  | cancelled d hno hd =>
      have hnew := ha.newlyResting h hr (mid.pushDecision d vis o) habsent (Int.add_zero _).symm
      have hone : d.kind = .filled ∨ d.kind = .partialThenCancelled := by
        rw [hd]
        exact ite_eq_or_eq _ _ _
      have hkind : ¬ d.kind.Refused := by
        unfold DecisionKind.Refused
        rcases hone with hk | hk
        · rw [hk]
          decide
        · rw [hk]
          decide
      refine ha.conserves hrests' rfl (by rw [hd]; exact hfill) (fun hk => absurd hk hkind)
        fun _ => ?_
      rw [hnew, hd]
      dsimp only
      have hnarrow := toU32_of_narrow h0 h1
      by_cases hpos : 0 < remaining
      · rw [if_pos hpos]
        omega
      · rw [if_neg hpos]
        omega

/-! ## Decisions -/

/-- Resolving its peg changes nothing of an order that counts here. -/
theorem Conserved.resolved (h : Conserved cfg sim sim' o) (hr : sim.resolved order = some o) :
    Conserved cfg sim sim' order := by
  obtain ⟨href, hside, hqty, _⟩ := resolved_fields hr
  obtain ⟨d, es, ws, hc⟩ := h
  exact ⟨d, es, ws,
    { decided := hc.decided, executed := hc.executed, filled := hc.filled, refused := hc.refused
      opposing := hside ▸ hc.opposing, orders := href ▸ hc.orders, levels := hside ▸ hc.levels
      entries := href ▸ hc.entries, ledger := hside ▸ hc.ledger
      withdrawn := fun x hx => { hc.withdrawn x hx with side := hside ▸ (hc.withdrawn x hx).side }
      balanced := fun hk => href ▸ hqty ▸ hc.balanced hk }⟩

/-- A decision that does not sweep conserves its order. -/
theorem unswept_conserved (h : SimInv cfg sim) (hn : order.Named cfg.externalRefLimit)
    (h0 : 0 < order.qty) (h1 : order.qty < 2 ^ 32) (hno : ∀ o, ¬ sim.Sweeps order o) (ts : Nat) :
    Conserved cfg sim (sim.decide cfg order ts) order := by
  have hopen := Exchanges.inv h (opened_exchanges h ts)
  -- one of the two early refusals
  have hrefuse : ∀ (d : SimDecision) (vis : Nat) (o : SimInbound), d.kind.Refused →
      d.filledQty = 0 → Conserved cfg sim ((sim.opened cfg ts).pushDecision d vis o) order :=
    fun d vis o hk hz => ⟨_, [], [],
      { decided := rfl, executed := (List.append_nil _).symm,
        opposing := fun _ he => absurd he List.not_mem_nil, filled := congrArg Nat.cast hz,
        orders := fun _ _ _ => (Int.add_zero _).trans (Int.add_zero _),
        levels := fun _ => (Int.add_zero _).trans (Int.add_zero _),
        entries := fun ref _ => (Int.add_zero _).trans (ledgerQty_repeg sim ref),
        ledger := fun _ => Int.add_zero _, withdrawn := fun _ hx => absurd hx List.not_mem_nil,
        refused := fun _ => ⟨hz, rfl, rfl, rfl⟩, balanced := fun hnk => absurd hk hnk }⟩
  have hd := decide_cases h order ts
  generalize sim.decide cfg order ts = r at hd
  cases hd with
  | unpriced vis hr => exact hrefuse _ _ _ (Or.inl rfl) rfl
  | duplicate o vis hr hdup => exact hrefuse _ _ _ (Or.inl rfl) rfl
  | wouldCross o vis hr hfree htype hcross => exact hrefuse _ _ _ (Or.inr rfl) rfl
  | placed o vis _ hr hfree hpost hnot hf =>
      obtain ⟨href, hside, hqty, _⟩ := resolved_fields hr
      have hfresh : ¬ sim.InBook o.ref := by
        rintro ⟨i, hi, he⟩
        rw [href] at he
        exact (h.book.idFind_null_iff hn.2).mp hfree i hi he
      have hacc : Accounted cfg sim (sim.opened cfg ts) o [] [] :=
        { decisions := rfl, opposing := fun _ he => absurd he List.not_mem_nil,
          ledger := (Int.add_zero _).trans (ledgerQty_repeg sim o.ref), before := hfresh,
          after := hfresh, lost := .still rfl rfl rfl rfl,
          withdrawn := fun _ hx => absurd hx List.not_mem_nil }
      exact (hf.conserves hacc h hopen (by rw [href]; exact hn.2) rfl rfl (Int.sub_zero _).symm
        (by omega) (by omega) fun _ _ _ => ⟨rfl, rfl, rfl, rfl⟩).resolved hr
  | stopped o vis w hr hfree htype hcross hpos =>
      obtain ⟨_, _, _, ht⟩ := resolved_fields hr
      exact absurd ⟨hr, hfree, ht ▸ htype, hcross, hpos⟩ (hno o)
  | swept o vis w _ hr hfree htype hcross hpos =>
      obtain ⟨_, _, _, ht⟩ := resolved_fields hr
      exact absurd ⟨hr, hfree, ht ▸ htype, hcross, hpos⟩ (hno o)

/-- What the sweep of `o` has done when its loop ends in `w`. -/
theorem swept_accounted (h : SimInv cfg sim) (hn : order.Named cfg.externalRefLimit)
    (hs : sim.Sweeps order o) {w : Sweep k}
    (hm : Moves cfg o ((sim.opened cfg ts).crossStart o.qty) w) :
    ∃ es ws, Accounted cfg sim w.sim o es ws ∧ Takes o.ref ((sim.opened cfg ts).crossStart o.qty) w es
      ∧ w.filled = executedQty es ∧ w.remaining = o.qty - executedQty es ∧ 0 ≤ w.remaining
      ∧ w.notional = executedNotional es % 2 ^ 64 := by
  obtain ⟨hr, hfree, _, _, hpos⟩ := hs
  obtain ⟨href, hside, hqty, _⟩ := resolved_fields hr
  have hopen := Exchanges.inv h (opened_exchanges h ts)
  have hfresh : ¬ sim.InBook o.ref := by
    rintro ⟨i, hi, he⟩
    rw [href] at he
    exact (h.book.idFind_null_iff hn.2).mp hfree i hi he
  have hown : cfg.externalRefLimit ≤ o.ref := by
    rw [href]
    exact hn.1
  obtain ⟨hafter, es, ht⟩ := hm.takes hopen.clearSync hown hfresh
  obtain ⟨⟨es', ha⟩, _⟩ := hm.accounts (Nat.zero_lt_of_lt (Nat.two_pow_pos 64))
  -- both lists are what the sweep has added to the log
  cases List.append_cancel_left (ht.executions.symm.trans ha.executions)
  obtain ⟨es', ws, hlost, hws⟩ := hm.lost hopen.clearSync
  cases List.append_cancel_left (ht.executions.symm.trans hlost.executions)
  have hled : ledgerQty ((sim.opened cfg ts).crossStart o.qty).sim.hidden o.ref
      = ledgerQty sim.hidden o.ref := ledgerQty_repeg sim o.ref
  have hacc : Accounted cfg sim w.sim o es ws :=
    { decisions := (hm.exchanges hopen.clearSync).1.decisions,
      opposing := fun e he => (ha.within e he).1, ledger := ht.ledger.trans hled,
      before := hfresh, after := hafter
      lost := ⟨hlost.executions, hlost.orders, hlost.levels, hlost.entries, hlost.ledger⟩
      withdrawn := fun x hx =>
        let hx := hws x hx
        ⟨hx.mode, hx.own, hx.side, hx.pos, hx.found, hx.gone⟩ }
  refine ⟨es, ws, hacc, ht, ?_, ha.remaining, hm.remaining_nonneg (Int.le_of_lt hpos), ?_⟩
  · exact ha.filled.trans (Int.zero_add _)
  · have hn : w.notional = (0 + executedNotional es) % 2 ^ 64 := ha.notional
    rw [hn, Nat.zero_add]

/-- Should the sweep of `o` leave with quantity left, the book has a place for it: its price
lies in the band, its page is there or can be claimed, and the arena has a slot. -/
def HasPlace (sim : ExecutionSimulator k) (cfg : SimConfig) (o : SimInbound) (ts : Nat) : Prop :=
  ∀ w ∈ sim.sweepPasses cfg o ts, w.step cfg o = .leave →
    sim.book.inBand o.price ∧ (sim.book.ladderFor o.side).claimable o.price
      ∧ w.sim.book.arena.liveCount < w.sim.book.arena.capacity

/-- If the order sweeps and its remainder would be displayed, there is a place for it. -/
def RemainderSafe (sim : ExecutionSimulator k) (cfg : SimConfig) (order : SimInbound) (ts : Nat) :
    Prop :=
  ∀ o, sim.Sweeps order o → restsAfter o.type → ¬ (o.nonDisplayed = true ∨ o.peg ≠ .none) →
    sim.HasPlace cfg o ts

/-- A sweep that ends with quantity left has no more of it than the order came with. -/
def FillsCounted (sim : ExecutionSimulator k) (cfg : SimConfig) (order : SimInbound) (ts : Nat) :
    Prop :=
  ∀ o, sim.Sweeps order o → ∀ w ∈ sim.sweepPasses cfg o ts, (w.step cfg o).ends ≠ none →
    w.remaining ≤ o.qty

/-- The book takes a remainder exactly when it has a place for it. -/
theorem addable_iff {w : Sweep k} {es : List Execution} {ws : List Withdrawal} (h : SimInv cfg sim)
    (hn : order.Named cfg.externalRefLimit) (hs : sim.Sweeps order o) (hw : SimInv cfg w.sim)
    (hacc : Accounted cfg sim w.sim o es ws)
    (ht : Takes o.ref ((sim.opened cfg ts).crossStart o.qty) w es) {remaining : Int}
    (hrem : 0 < remaining) :
    w.sim.book.Addable o.ref o.side remaining o.price
      ↔ sim.book.inBand o.price ∧ (sim.book.ladderFor o.side).claimable o.price
        ∧ w.sim.book.arena.liveCount < w.sim.book.arena.capacity := by
  have href : o.ref ≠ 0 := by
    rw [(resolved_fields hs.1).1]
    exact hn.2
  have hband : w.sim.book.inBand o.price ↔ sim.book.inBand o.price := ht.config.inBand_iff _
  have hpage : (w.sim.book.ladderFor o.side).claimable o.price
      ↔ (sim.book.ladderFor o.side).claimable o.price :=
    OrderBook.claimable_congr h.book.ladder hw.book.ladder ht.config ht.touched _ _
  constructor
  · intro ha
    exact ⟨hband.mp ha.band, hpage.mp ha.page, ha.room⟩
  · rintro ⟨h1, h2, h3⟩
    refine { named := href, pos := hrem, band := hband.mpr h1, page := hpage.mpr h2,
             free := ?_, room := h3 }
    exact (hw.book.idFind_null_iff href).mpr (fun i hi he => hacc.after ⟨i, hi, he⟩)

/-- A book that has lost the touch a limit order crossed is not the same book. -/
theorem book_changed (h : SimInv cfg sim) (hs : sim.Sweeps order o) (hrests : restsAfter o.type)
    {w : Sweep k} (hw : SimInv cfg w.sim) (hleave : w.step cfg o = .leave) :
    w.sim.book ≠ sim.book := by
  intro hsame
  have htouch : sim.touches o := by
    refine (hs.2.2.2.1.2).elim (fun hm => ?_) And.left
    rw [hm] at hrests
    exact absurd hrests (by decide)
  obtain ⟨hne, hbound⟩ := htouch
  obtain ⟨i, l, hf⟩ := front_of_best h.book hne
  have hbeyond : beyond o (w.sim.book.order i).priceTicks :=
    leave_displayed hw hleave (by rw [hsame]; exact hf.live) (by rw [hsame]; exact hf.side)
  rw [hsame, hf.price] at hbeyond
  obtain ⟨_, hb⟩ := hbeyond
  cases hside : o.side <;> rw [hside] at hb hbound <;> dsimp only at hb hbound <;> omega

/-- Its loop ends where the decision says. -/
theorem SweptCase.ended {w u : Sweep k} {e : SweepEnd} (hcase : SweptCase cfg sim o ts w sim')
    (hloop : (sim.opened cfg ts).crossLoop cfg o o.qty = (u, e)) : w = u := by
  cases hcase with
  | stopped vis hloop' => exact (Prod.mk.inj (hloop'.symm.trans hloop)).1
  | done vis _ hloop' => exact (Prod.mk.inj (hloop'.symm.trans hloop)).1

/-- The pass in which the sweep of `o` stops or leaves is the last. -/
theorem SweptCase.last {w : Sweep k} (hcase : SweptCase cfg sim o ts w sim') :
    w.remaining ≤ 0 ∨ (w ∈ sim.sweepPasses cfg o ts ∧ (w.step cfg o).ends ≠ none) := by
  cases hcase with
  | stopped vis hloop hrem hstop =>
      refine Or.inr ⟨((end_mem_passes cfg o w .stpStop _ _).mpr ⟨hloop, hrem, by simp⟩).1, ?_⟩
      rw [hstop]
      exact Option.some_ne_none _
  | done vis _ hloop hend hf =>
      refine hend.imp_right fun ⟨hpos, hleave⟩ => ⟨(leave_mem_passes.mpr ⟨hloop, hpos⟩).1, ?_⟩
      rw [hleave]
      exact Option.some_ne_none _

/-- A ledger without negative entries cannot bring a sweep below nothing. -/
theorem fillsCounted_of_counted (h : SimInv cfg sim) (hl : LedgerCounted sim.hidden)
    (order : SimInbound) (ts : Nat) : sim.FillsCounted cfg order ts := by
  intro o hs u hu hends
  obtain ⟨e, hends⟩ := Option.ne_none_iff_exists'.mp hends
  obtain ⟨hloop, -, -⟩ := (end_mem_passes cfg o u e _ _).mp ⟨hu, hends⟩
  obtain ⟨w, hw, hm, hcase⟩ := decide_swept h hs ts
  cases hcase.ended hloop
  have hopen := opened_exchanges h ts
  have hcount : LedgerCounted (sim.opened cfg ts).hidden :=
    Trades.counted hl (Exchanges.trades hopen h)
  have hmono := hm.filled_mono (Exchanges.inv h hopen).clearSync hcount
  obtain ⟨⟨es, ha⟩, -⟩ := hm.accounts (Nat.zero_lt_of_lt (Nat.two_pow_pos 64))
  have hfilled := ha.filled
  have hremain := ha.remaining
  have hz : ((sim.opened cfg ts).crossStart o.qty).filled = 0
      ∧ ((sim.opened cfg ts).crossStart o.qty).remaining = o.qty := ⟨rfl, rfl⟩
  omega

/-- A decision that sweeps conserves its order when its remainder, if displayed, has a place and
what it has filled is not less than nothing. -/
theorem swept_conserved (h : SimInv cfg sim) (hn : order.Named cfg.externalRefLimit)
    (h1 : order.qty < 2 ^ 32) (hs : sim.Sweeps order o) (hsafe : sim.RemainderSafe cfg order ts)
    (hcounted : sim.FillsCounted cfg order ts) :
    Conserved cfg sim (sim.decide cfg order ts) order := by
  obtain ⟨href, hside, hqty, _⟩ := resolved_fields hs.1
  obtain ⟨w, hw, hm, hcase⟩ := decide_swept h hs ts
  obtain ⟨es, ws, hacc, htakes, hfilled, hremain, hnn, _⟩ := swept_accounted h hn hs hm
  have hexec : 0 ≤ executedQty es := by
    have hpos := hs.2.2.2.2
    rcases hcase.last with hle | ⟨hmem, hends⟩
    · omega
    · have := hcounted o hs w hmem hends
      omega
  have hnz : o.ref ≠ 0 := by
    rw [href]
    exact hn.2
  have hnarrow : (toU32 w.filled : Int) = executedQty es := by
    rw [hfilled]
    exact toU32_of_narrow hexec (by omega)
  refine Conserved.resolved ?_ hs.1
  generalize sim.decide cfg order ts = r at hcase
  cases hcase with
  | stopped vis hloop hrem hstop =>
      have hnew := hacc.newlyResting h hnz ((w.sim.counted o w.filled).pushDecision
        { sweepDecision cfg ts w.filled 0 with
          kind := .rejectedStp, cancelledQty := toU32 (o.qty - w.filled) } vis o)
        (remainingOf_absent hw hnz hacc.after) (Int.add_zero _).symm
      have hacc' : Accounted cfg sim (w.sim.counted o w.filled) o es ws :=
        hacc.congr rfl rfl rfl rfl rfl
      refine hacc'.conserves (.none o _ vis _) rfl hnarrow
        (fun hk => hk.elim (fun hc => DecisionKind.noConfusion hc) fun hc =>
          DecisionKind.noConfusion hc) fun _ => ?_
      rw [hnew]
      have hcancel : (toU32 (o.qty - w.filled) : Int) = o.qty - w.filled :=
        toU32_of_narrow (by omega) (by omega)
      show (toU32 w.filled : Int) + (toU32 (o.qty - w.filled) : Int) + (0 + 0) = o.qty
      omega
  | done vis _ hloop hend hf =>
      have hset : SimInv cfg ((w.settle o.side.opp).counted o w.filled) :=
        (Sweep.settle_inv hw _).logged _
      have hacc' : Accounted cfg sim ((w.settle o.side.opp).counted o w.filled) o es ws :=
        hacc.congr rfl rfl rfl rfl rfl
      refine hf.conserves hacc' h hset hnz hnarrow rfl (by rw [hfilled]) (by omega) (by omega)
        (fun hrests hshown hno => absurd ?_ hno)
      -- the sweep has left with quantity left: there is a place
      rcases hend with hdone | ⟨hpos, hleave⟩
      · omega
      · have hmem := ((leave_mem_passes).mpr ⟨hloop, hpos⟩).1
        exact (addable_iff h hn hs hw hacc htakes hrests.2).mpr
          (hsafe o hs hrests.1 hshown w hmem hleave)

/-- The decision of a sweep that has filled less than nothing says otherwise. -/
theorem fillsCounted_of_conserved (h : SimInv cfg sim) (hn : order.Named cfg.externalRefLimit)
    (hcons : Conserved cfg sim (sim.decide cfg order ts) order) :
    sim.FillsCounted cfg order ts := by
  intro o hs u hu hends
  obtain ⟨e, hends⟩ := Option.ne_none_iff_exists'.mp hends
  obtain ⟨hloop, -, -⟩ := (end_mem_passes cfg o u e _ _).mp ⟨hu, hends⟩
  obtain ⟨w, hw, hm, hcase⟩ := decide_swept h hs ts
  obtain ⟨es, ws, hacc, -, -, hremain, -⟩ := swept_accounted h hn hs hm
  obtain ⟨d, es', ws', hc⟩ := hcons
  cases hcase.ended hloop
  have hx : (sim.decide cfg order ts).log.executions = u.sim.log.executions := by
    generalize sim.decide cfg order ts = r at hcase
    cases hcase with
    | stopped => rfl
    | done vis _ _ hend hf => exact (hf.rests ((Sweep.settle_inv hw _).logged _)).executions
  rw [hc.executed, hacc.executions] at hx
  have hfilled := hc.filled
  rw [List.append_cancel_left hx] at hfilled
  omega

/-- A remainder without a place is lost. -/
theorem not_conserved (h : SimInv cfg sim) (hn : order.Named cfg.externalRefLimit)
    (hs : sim.Sweeps order o) (hrests : restsAfter o.type)
    (hshown : ¬ (o.nonDisplayed = true ∨ o.peg ≠ .none)) (hno : ¬ sim.HasPlace cfg o ts) :
    ¬ Conserved cfg sim (sim.decide cfg order ts) order := by
  unfold HasPlace at hno
  rw [not_forall] at hno
  obtain ⟨u, hu⟩ := hno
  rw [not_forall, not_forall] at hu
  obtain ⟨hmem, hleave, hu⟩ := hu
  obtain ⟨hloop, hpos⟩ := (leave_mem_passes).mp ⟨hmem, hleave⟩
  obtain ⟨w, hw, hm, hcase⟩ := decide_swept h hs ts
  obtain ⟨es, ws, hacc, htakes, hfilled, hremain, hnn, _⟩ := swept_accounted h hn hs hm
  generalize sim.decide cfg order ts = r at hcase
  rintro ⟨d, es', ws', hc⟩
  cases hcase with
  | stopped vis hloop' => exact absurd (hloop.symm.trans hloop') (by simp)
  | done vis _ hloop' hend hf =>
      cases (Prod.mk.inj (hloop.symm.trans hloop')).1
      cases hf with
      | refused _ _ hadd =>
          -- reported as refused, on a book that has lost its touch
          have hlast : { sweepDecision cfg ts u.filled u.notional with
              kind := .rejectedUnknown, ref := o.ref, visibleTs := vis, side := o.side
              seq := ((u.settle o.side.opp).counted o u.filled).log.seqCounter + 1 } = d := by
            have hdec := hc.decided
            have hsame : (u.sim.log.decisions ++ [_] : List SimDecision)
                = sim.log.decisions ++ [d] := hdec
            rw [hacc.decisions] at hsame
            exact List.singleton_inj.mp (List.append_cancel_left hsame)
          have hk : d.kind.Refused := by
            rw [← hlast]
            exact Or.inl rfl
          exact book_changed h hs hrests hw hleave (hc.refused hk).2.book
      | displayed i b hr _ hadd _ =>
          exact hu ((addable_iff h hn hs hw hacc htakes hr.2).mp hadd)
      | ledger _ hhid => exact hshown hhid
      | cancelled _ hnr _ => exact hnr ⟨hrests, by omega⟩

/-! ## Whole runs -/

/-- No replace rewrites an entry of the ledger to less than nothing. -/
def RewritesCounted (cfg : SimConfig) (sim : ExecutionSimulator k) : SimCall → Prop
  | .replaceStrategy orig _ qty _ =>
      (∀ i, ¬ Holds cfg sim orig i) → (∃ h ∈ sim.hidden, h.ref = orig) → 0 ≤ qty
  | _ => True

theorem call_counted {c : SimCall} (h : LedgerCounted sim.hidden) (hinv : SimInv cfg sim)
    (hl : c.Legal cfg.externalRefLimit) (hok : RewritesCounted cfg sim c) :
    LedgerCounted (sim.call cfg c).hidden :=
  call_entries keptByTaking_counted h hinv hl
    (fun _ _ _ ⟨_, _, _, _, hpos⟩ => Int.le_of_lt hpos)
    (fun orig fresh qty price hc => by subst hc; exact hok)

theorem counted_run (hc : OrderBook.ConfigOk k cfg.book)
    (h : Reaches cfg (RewritesCounted cfg) sim) : LedgerCounted sim.hidden := by
  induction h with
  | init => exact fun e he => absurd he List.not_mem_nil
  | step hr c hl hok ih => exact call_counted ih (hr.simInv hc) hl hok

/--
**When a decision conserves its order.**

The decision of an order of 1 to 2^32 - 1 units accounts for all of it, and for all that
other orders, levels and entries lose, exactly when the book has a place for a displayed
remainder, should the sweep leave one, and the sweep does not leave with more than it came
with. The second cannot happen while no entry of the ledger is at less than nothing.
-/
theorem conserved_iff (hc : OrderBook.ConfigOk k cfg.book) (h : Reachable cfg sim)
    (hn : order.Named cfg.externalRefLimit) (h0 : 0 < order.qty) (h1 : order.qty < 2 ^ 32)
    (ts : Nat) :
    (Conserved cfg sim (sim.decide cfg order ts) order
        ↔ sim.RemainderSafe cfg order ts ∧ sim.FillsCounted cfg order ts)
      ∧ (LedgerCounted sim.hidden → sim.FillsCounted cfg order ts) := by
  have hinv := h.simInv hc
  refine ⟨⟨fun hcons => ⟨?_, fillsCounted_of_conserved hinv hn hcons⟩, ?_⟩,
    fun hl => fillsCounted_of_counted hinv hl order ts⟩
  · intro o hs hrests hshown
    by_contra hno
    exact not_conserved hinv hn hs hrests hshown hno hcons
  · rintro ⟨hsafe, hcounted⟩
    by_cases hex : ∃ o, sim.Sweeps order o
    · obtain ⟨o, hs⟩ := hex
      exact swept_conserved hinv hn h1 hs hsafe hcounted
    · exact unswept_conserved hinv hn h0 h1 (fun o hs => hex ⟨o, hs⟩) ts

/-- An order of four in front of an iceberg. -/
def layered : List SimCall :=
  [.seedExternal 1 .sell 4 5,
    .seedIceberg { ref := 2, side := .sell, price := 6, display := 2, total := 5 }]

/-- An ioc for more than is offered. -/
def sweepLayers : SimInbound := { ref := 101, qty := 10, price := 6, type := .ioc }

/-- Of the ten, nine are filled, five of them by three slices, and one is cancelled. -/
theorem conserved_iff_ioc :
    Conserved deskConfig (run deskConfig layered : ExecutionSimulator 4)
      ((run deskConfig layered : ExecutionSimulator 4).decide deskConfig sweepLayers 0)
      sweepLayers := by
  have hiff := conserved_iff deskConfig_ok
    (reachable_run (by decide) : Reachable deskConfig (run deskConfig layered : ExecutionSimulator 4))
    (show sweepLayers.Named 100 from ⟨by decide, by decide⟩) (by decide) (by decide) 0
  refine hiff.1.mpr ⟨fun o hs hrests _ => ?_, hiff.2 ?_⟩
  · rw [(resolved_fields hs.1).2.2.2] at hrests
    exact absurd hrests (by decide)
  · show ∀ e ∈ (run deskConfig layered : ExecutionSimulator 4).hidden, 0 ≤ e.qtyRemaining
    decide +kernel

/-- A limit buy priced outside the band, for more than is offered. -/
def buyOutside : SimInbound := { ref := 101, qty := 5, price := 20 }

/-- Four units trade, the book refuses the fifth, and the order is reported as unknown. -/
theorem remainder_lost :
    Reachable deskConfig (run deskConfig [.seedExternal 1 .sell 4 5] : ExecutionSimulator 4)
      ∧ ¬ Conserved deskConfig (run deskConfig [.seedExternal 1 .sell 4 5] : ExecutionSimulator 4)
        ((run deskConfig [.seedExternal 1 .sell 4 5] : ExecutionSimulator 4).decide deskConfig
          buyOutside 0) buyOutside := by
  refine ⟨reachable_run (by decide), ?_⟩
  rintro ⟨d, es, ws, hc⟩
  have hone : ((run deskConfig [.seedExternal 1 .sell 4 5] : ExecutionSimulator 4).decide deskConfig
      buyOutside 0).log.decisions.map (fun d => (d.kind, d.filledQty)) = [(.rejectedUnknown, 4)] := by
    decide +kernel
  have hnone : (run deskConfig [.seedExternal 1 .sell 4 5] : ExecutionSimulator 4).log.decisions = []
    := by decide +kernel
  rw [hc.decided, hnone, List.nil_append, List.map_singleton] at hone
  obtain ⟨hk, hq⟩ := Prod.mk.inj (List.singleton_inj.mp hone)
  have hz := (hc.refused (Or.inl hk)).1
  omega

end ExecutionSimulator

end Mog
