import Mog.Sim.Account

/-!
# What a decision leaves on the other side

A sweep ends with the order filled or with nothing left that it could trade with,
displayed or not. Whether an order sweeps at all is decided by the displayed touch
alone, so that a non-displayed order within the bound can be passed by.

The sweep looks for the best price on either side of the screen, over and over, and what
it leaves behind is read off its last look: nothing displayed is within the bound then,
and nothing of the ledger, whose best price is that of its best entry. The last holds only
as long as no entry bears the price that stands for "no price". An order may bring such an
entry to the ledger, which checks no prices, and the search passes it by.
-/

namespace Mog

open QueueSum TrackTable

/-- No entry of side `s` is priced at the sentinel for "no price". -/
def LedgerPriced (s : Side) (l : List Hidden) : Prop :=
  ∀ e ∈ l, e.side = s → e.priceTicks ≠ kNoTick

instance (s : Side) (l : List Hidden) : Decidable (LedgerPriced s l) :=
  inferInstanceAs (Decidable (∀ e ∈ l, _))

namespace Sweep

variable {order : SimInbound}

/-- A price behind one that lies beyond the bound lies beyond it too. -/
theorem beyond_mono {a b : Int} (h : beyond order a) (hab : atLeastAsGood order.side.opp a b) :
    beyond order b := by
  obtain ⟨hm, h⟩ := h
  refine ⟨hm, ?_⟩
  cases hs : order.side <;> rw [hs] at h hab <;> simp only [Side.opp, atLeastAsGood] at * <;> omega

/-- Hidden quantity comes first when it is strictly better than the touch, or alone. -/
theorem hiddenBetter_iff (s : Side) (hBest touch : Int) : hiddenBetter s hBest touch
    ↔ hBest ≠ kNoTick ∧ (touch = kNoTick ∨ better s.opp hBest touch) := by
  cases s <;> simp only [hiddenBetter, better, atLeastAsGood, Side.opp, Int.not_le]

end Sweep

namespace ExecutionSimulator

open Sweep

variable {k : Nat} {cfg : SimConfig} {sim sim' : ExecutionSimulator k} {order : SimInbound}

/-! ## The best hidden price -/

/-- **The best hidden price is the best price of an entry with quantity left**, as long as
no entry is priced at the sentinel. -/
theorem bestHiddenPrice_isBest {s : Side} (h : LedgerPriced s sim.hidden) :
    IsBest s (fun p => ∃ e ∈ sim.hidden, e.side = s ∧ e.qtyRemaining ≠ 0 ∧ e.priceTicks = p)
      (sim.bestHiddenPrice s) := by
  -- over the entries seen so far, and those to come
  have hfold : ∀ (l : List Hidden) (occ : Int → Prop) (a : Int), LedgerPriced s l →
      IsBest s occ a → IsBest s (fun p => occ p
        ∨ ∃ e ∈ l, e.side = s ∧ e.qtyRemaining ≠ 0 ∧ e.priceTicks = p)
      (l.foldl (fun best h =>
        if h.side ≠ s ∨ h.qtyRemaining = 0 then best
        else if best = kNoTick then h.priceTicks
        else if s = .buy ∧ best < h.priceTicks then h.priceTicks
        else if s = .sell ∧ h.priceTicks < best then h.priceTicks
        else best) a) := by
    intro l
    induction l with
    | nil =>
        intro occ a _ ha
        exact ha.congr (fun p => by simp)
    | cons e l ih =>
        intro occ a hp ha
        have hpl : LedgerPriced s l := fun x hx => hp x (List.mem_cons_of_mem _ hx)
        rw [List.foldl_cons]
        by_cases hskip : e.side ≠ s ∨ e.qtyRemaining = 0
        · rw [if_pos hskip]
          refine (ih occ a hpl ha).congr (fun p => or_congr_right ?_)
          rw [List.exists_mem_cons_iff]
          refine ⟨fun he => he.resolve_left ?_, Or.inr⟩
          rintro ⟨hs, hq, _⟩
          exact hskip.elim (fun hn => hn hs) hq
        rw [if_neg hskip]
        rw [not_or, not_not] at hskip
        have hne : e.priceTicks ≠ kNoTick := hp e List.mem_cons_self hskip.1
        -- the entry's price is one more occupied price
        have hnext : IsBest s (fun p => occ p ∨ e.priceTicks = p)
            (if a = kNoTick ∨ better s e.priceTicks a then e.priceTicks else a) :=
          OrderBook.isBest_insert ha hne (fun x => by rw [or_comm, eq_comm])
        have hval : (if a = kNoTick then e.priceTicks
            else if s = .buy ∧ a < e.priceTicks then e.priceTicks
            else if s = .sell ∧ e.priceTicks < a then e.priceTicks else a)
            = if a = kNoTick ∨ better s e.priceTicks a then e.priceTicks else a := by
          by_cases ha0 : a = kNoTick
          · rw [if_pos ha0, if_pos (Or.inl ha0)]
          · rw [if_neg ha0]
            cases s <;> simp only [better, atLeastAsGood, ha0] <;> simp
        rw [hval]
        refine (ih _ _ hpl hnext).congr (fun p => ?_)
        rw [List.exists_mem_cons_iff, or_assoc]
        simp only [hskip.1, hskip.2, ne_eq, not_false_eq_true, true_and]
  exact (hfold sim.hidden (fun _ => False) kNoTick h (Or.inl ⟨rfl, fun _ hf => hf⟩)).congr
    (fun p => by rw [false_or])

/-! ## What is left on the other side -/

/-- Quantity is left that the order could trade with, displayed or not. -/
def OpposingWithin (sim : ExecutionSimulator k) (order : SimInbound) : Prop :=
  (∃ i, sim.book.live i ∧ (sim.book.order i).side = order.side.opp
      ∧ ¬ beyond order (sim.book.order i).priceTicks)
    ∨ ∃ e ∈ sim.hidden, e.side = order.side.opp ∧ 0 < e.qtyRemaining
      ∧ ¬ beyond order e.priceTicks

theorem opposingWithin_congr (hb : sim'.book = sim.book) (hh : sim'.hidden = sim.hidden) :
    sim'.OpposingWithin order ↔ sim.OpposingWithin order := by
  rw [OpposingWithin, OpposingWithin, hb, hh]

/-- A remainder comes to rest on its own side. -/
theorem Placed.opposingWithin {o : SimInbound} {remaining : Int}
    (hp : Placed sim o remaining sim') :
    sim'.OpposingWithin o ↔ sim.OpposingWithin o := by
  cases hp with
  | nowhere h => exact opposingWithin_congr h.book h.hidden
  | displayed i hrests hadd hr h =>
      refine or_congr ⟨?_, ?_⟩ (by rw [h.hidden])
      · rintro ⟨j, hj, hside, hwithin⟩
        rcases (hr.live j).mp hj with rfl | hl
        · have hself : (sim'.book.order j).side = o.side := congrArg OrderView.side hr.self
          exact absurd (hside.symm.trans hself) (Side.opp_ne _)
        · have hji : j ≠ i := fun he => hr.fresh (he ▸ hl)
          obtain ⟨_, _, hprice, hside'⟩ := Order.view_eq (hr.frame j hji)
          exact ⟨j, hl, hside' ▸ hside, hprice ▸ hwithin⟩
      · rintro ⟨j, hl, hside, hwithin⟩
        have hji : j ≠ i := fun he => hr.fresh (he ▸ hl)
        obtain ⟨_, _, hprice, hside'⟩ := Order.view_eq (hr.frame j hji)
        exact ⟨j, (hr.live j).mpr (Or.inr hl), hside'.trans hside, by rw [hprice]; exact hwithin⟩
  | ledger hrests h =>
      refine or_congr (by rw [h.book]) ?_
      rw [h.hidden]
      refine ⟨?_, ?_⟩
      · rintro ⟨e, he, hside, hq, hwithin⟩
        rcases List.mem_append.mp he with he | he
        · exact ⟨e, he, hside, hq, hwithin⟩
        · rw [List.mem_singleton.mp he] at hside
          exact absurd hside.symm (Side.opp_ne _)
      · rintro ⟨e, he, hrest⟩
        exact ⟨e, List.mem_append_left _ he, hrest⟩

theorem Placed.executions {o : SimInbound} {remaining : Int} (hp : Placed sim o remaining sim') :
    sim'.log.executions = sim.log.executions := by
  cases hp with
  | nowhere h => exact h.executions
  | displayed _ _ _ _ h => exact h.executions
  | ledger _ h => exact h.executions

theorem Placed.reports {o : SimInbound} {remaining : Int} (hp : Placed sim o remaining sim') :
    sim'.log.reports = sim.log.reports := by
  cases hp with
  | nowhere h => exact h.reports
  | displayed _ _ _ _ h => exact h.reports
  | ledger _ h => exact h.reports

theorem ledgerPriced_repeg {s : Side} (h : LedgerPriced s sim.hidden) :
    LedgerPriced s sim.repegHidden.hidden := by
  intro e he hs
  obtain ⟨x, hx, rfl⟩ := List.mem_map.mp he
  dsimp only at hs ⊢
  split at hs
  · rename_i hpeg
    rw [if_pos hpeg]
    split at hs
    · rename_i hpx
      rw [if_pos hpx]
      exact hpx
    · rename_i hpx
      rw [if_neg hpx]
      exact h x hx hs
  · rename_i hpeg
    rw [if_neg hpeg]
    exact h x hx hs

end ExecutionSimulator

namespace Sweep

open ExecutionSimulator

variable {k : Nat} {cfg : SimConfig} {w w' : Sweep k} {order : SimInbound}

/-- Taking from the ledger prices nothing anew. -/
theorem Moves.ledgerPriced {s : Side} (hm : Moves cfg order w w')
    (h : LedgerPriced s w.sim.hidden) : LedgerPriced s w'.sim.hidden := by
  induction hm with
  | refl => exact h
  | tail _ hb ih =>
      cases hb.1 with
      | fill i l take mid ht hstp hf htake hs hc =>
          rw [(Shown.fields hs).1, hf.hidden]
          exact ih
      | tap t e kept l hside hbound he hrem hc =>
          intro x hx hxs
          rcases he.mem hx with hx | ⟨_, rfl⟩
          · exact ih x hx hxs
          · exact ih e (by rw [he.before]; simp) hxs
      | remove i l ht hown hstp hr => rw [hr.hidden]; exact ih

/-- **A sweep that leaves has nothing displayed left within its bound.** -/
theorem leave_displayed (h : SimInv cfg w.sim) (hs : w.step cfg order = .leave) {i : Nat}
    (hi : w.sim.book.live i) (hside : (w.sim.book.order i).side = order.side.opp) :
    beyond order (w.sim.book.order i).priceTicks := by
  -- the order is behind the touch
  have hnil : w.sim.book.levelSlots order.side.opp (w.sim.book.order i).priceTicks ≠ [] := by
    intro hnil
    have hmem := h.book.mem_queueOf hi
    rw [OrderBook.queueOf, hside, hnil] at hmem
    exact absurd hmem List.not_mem_nil
  obtain ⟨hne, hgood⟩ := h.book.best_good hnil
  have hcase := step_cases order h
  rw [hs] at hcase
  cases hcase with
  | leaveHidden hbetter hbound =>
      rw [hiddenBetter_iff] at hbetter
      have hle := (atLeastAsGood_total order.side.opp (w.sim.book.best order.side.opp)
        (w.sim.bestHiddenPrice order.side.opp)).resolve_left (hbetter.2.resolve_left hne)
      exact beyond_mono hbound (atLeastAsGood_trans hle hgood)
  | leave hahead hbound => exact beyond_mono (hbound.resolve_left hne) hgood

/-- **A sweep that leaves has exhausted its bound.** -/
theorem leave_exhausts (h : SimInv cfg w.sim) (hp : LedgerPriced order.side.opp w.sim.hidden)
    (hs : w.step cfg order = .leave) : ¬ w.sim.OpposingWithin order := by
  rintro (⟨i, hi, hside, hwithin⟩ | ⟨e, he, hside, hq, hwithin⟩)
  · exact hwithin (leave_displayed h hs hi hside)
  -- the entry is behind the best of the ledger
  have hocc : ∃ x ∈ w.sim.hidden, x.side = order.side.opp ∧ x.qtyRemaining ≠ 0
      ∧ x.priceTicks = e.priceTicks := ⟨e, he, hside, by omega, rfl⟩
  have hbest : w.sim.bestHiddenPrice order.side.opp ≠ kNoTick
      ∧ atLeastAsGood order.side.opp (w.sim.bestHiddenPrice order.side.opp) e.priceTicks := by
    rcases bestHiddenPrice_isBest hp with ⟨_, hno⟩ | ⟨hne, _, hgood⟩
    · exact absurd hocc (hno e.priceTicks)
    · exact ⟨hne, hgood e.priceTicks hocc⟩
  have hcase := step_cases order h
  rw [hs] at hcase
  cases hcase with
  | leaveHidden hbetter hbound => exact hwithin (beyond_mono hbound hbest.2)
  | leave hahead hbound =>
      -- the ledger's best is no better than the touch, which is beyond the bound
      rw [hiddenBetter_iff, not_and_or, not_or, better, not_not, not_not] at hahead
      obtain ⟨htouch, hle⟩ := hahead.resolve_left hbest.1
      exact hwithin (beyond_mono (hbound.resolve_left htouch) (atLeastAsGood_trans hle hbest.2))

end Sweep

namespace ExecutionSimulator

open Sweep

variable {k : Nat} {cfg : SimConfig} {sim sim' : ExecutionSimulator k} {order : SimInbound}

/-! ## Whole decisions -/

/-- The order has been filled whole, or nothing it could trade with is left. -/
def Marketed (sim sim' : ExecutionSimulator k) (order : SimInbound) : Prop :=
  (∃ es, sim'.log.executions = sim.log.executions ++ es ∧ executedQty es = order.qty)
    ∨ ¬ sim'.OpposingWithin order

/-- Where nothing has been executed, only an order for nothing is filled. -/
theorem marketed_of_still (hex : sim'.log.executions = sim.log.executions)
    (hleft : sim'.OpposingWithin order ↔ sim.repegHidden.OpposingWithin order) :
    Marketed sim sim' order ↔ order.qty = 0 ∨ ¬ sim.repegHidden.OpposingWithin order := by
  refine or_congr ⟨?_, fun h0 => ⟨[], ?_, h0.symm⟩⟩ (not_congr hleft)
  · rintro ⟨es, happ, hq⟩
    rw [hex] at happ
    rw [← hq, List.append_right_eq_self.mp happ.symm]
    rfl
  · rw [hex, List.append_nil]

/-- The order is fresh, asks for something and crosses the displayed touch. -/
def EntersSweep (sim : ExecutionSimulator k) (order : SimInbound) : Prop :=
  (sim.book.findHandle order.ref).index = kNullIndex ∧ 0 < order.qty ∧ sim.crosses order

/-- An order that sweeps finds all that it could trade with, unless an entry of the ledger bears the
sentinel for "no price"; one that does not must find nothing, or ask for nothing. -/
def Marketable (sim : ExecutionSimulator k) (order : SimInbound) : Prop :=
  (sim.EntersSweep order ∧ LedgerPriced order.side.opp sim.hidden)
    ∨ (¬ sim.EntersSweep order ∧ (order.qty = 0 ∨ ¬ sim.repegHidden.OpposingWithin order))

/-- **A decision without self-trade prevention** sweeps and leaves nothing, or leaves the other side
as it was. -/
theorem marketed_cases (hc : OrderBook.ConfigOk k cfg.book) (hr : Reachable cfg sim)
    (htype : order.type = .dayLimit ∨ order.type = .ioc ∨ order.type = .market)
    (hpeg : order.peg = .none) (hstp : sim.stp = .none) (ts : Nat) :
    (sim.EntersSweep order ∧ (LedgerPriced order.side.opp sim.hidden →
        Marketed sim (sim.decide cfg order ts) order))
      ∨ (¬ sim.EntersSweep order ∧ (Marketed sim (sim.decide cfg order ts) order
        ↔ order.qty = 0 ∨ ¬ sim.repegHidden.OpposingWithin order)) := by
  have hinv := hr.simInv hc
  have hplain : resolvePeg order = order := resolvePeg_plain (by tauto)
  have hres : sim.resolved order = some order := by
    rw [resolved_unpegged (by rw [hplain]; exact hpeg), hplain]
  -- without a sweep, what is left is what was there
  have hstill : ∀ {sim' : ExecutionSimulator k},
      Placed (sim.opened cfg ts) order order.qty sim' →
      (Marketed sim sim' order ↔ order.qty = 0 ∨ ¬ sim.repegHidden.OpposingWithin order) := by
    intro sim' hp
    have hex : sim'.log.executions = sim.log.executions := hp.executions
    have hleft : (sim.opened cfg ts).OpposingWithin order ↔ sim.repegHidden.OpposingWithin order :=
      opposingWithin_congr rfl rfl
    exact marketed_of_still hex (hp.opposingWithin.trans hleft)
  have hd := decide_cases hinv order ts
  generalize sim.decide cfg order ts = r at hd
  cases hd with
  | unpriced vis hnone => exact absurd (hres.symm.trans hnone) (by simp)
  | duplicate o vis ho hdup =>
      exact Or.inr ⟨fun hh => hdup hh.1, hstill (.nowhere (pushDecision_same _ _ _ _))⟩
  | wouldCross o vis ho hfree hpost =>
      rw [hpost] at htype
      exact absurd htype (by decide)
  | placed o vis _ ho hfree hpost hno hf =>
      cases Option.some.inj (hres.symm.trans ho)
      exact Or.inr ⟨fun hh => hno ⟨hh.2.2, hh.2.1⟩, hstill hf.placed⟩
  | stopped o vis w ho hfree htype' hcross hpos hm hw hrem hstop =>
      -- there is no self-trade prevention to stop the sweep
      have hcase := step_cases o hw
      rw [hstop] at hcase
      cases hcase with
      | stop i l ht hown hst =>
          rw [hm.modes.2] at hst
          exact absurd (hstp.symm.trans hst) (by decide)
  | swept o vis w _ ho hfree htype' hcross hpos hm hw hend hf =>
      cases Option.some.inj (hres.symm.trans ho)
      refine Or.inl ⟨⟨hfree, hpos, hcross⟩, fun hpriced => ?_⟩
      have hp := hf.placed
      rcases hend with hdone | ⟨_, hleave⟩
      · -- nothing remains of the order
        obtain ⟨⟨es, ha⟩, _⟩ := hm.accounts (Nat.zero_lt_of_lt (Nat.two_pow_pos 64))
        have hnn := hm.remaining_nonneg (Int.le_of_lt hpos)
        have hrem : w.remaining = order.qty - executedQty es := ha.remaining
        exact Or.inl ⟨es, hp.executions.trans ha.executions, by omega⟩
      · refine Or.inr (fun hleft => ?_)
        have hpr := hm.ledgerPriced (ledgerPriced_repeg hpriced)
        exact leave_exhausts hw hpr hleave
          ((opposingWithin_congr rfl rfl).mp (hp.opposingWithin.mp hleft))

/-- An offer of five at the sentinel. -/
def unpricedOffer : List SimCall :=
  [.submit { ref := 100, side := .sell, qty := 5, price := kNoTick, nonDisplayed := true } 0,
    .decideNext]

/-- It is in the ledger, and to a sweep it is not. -/
example : (run deskConfig unpricedOffer : ExecutionSimulator 4).hidden.length = 1
    ∧ (run deskConfig unpricedOffer : ExecutionSimulator 4).bestHiddenPrice .sell = kNoTick := by
  decide +kernel

/-- An ioc buy of three, up to six. -/
def iocBuy : SimInbound := { ref := 101, qty := 3, price := 6, type := .ioc }

/-- One is displayed at five, and five are offered there without being displayed. -/
def offersAtFive : List SimCall :=
  [.submit { ref := 100, side := .sell, qty := 5, price := 5, nonDisplayed := true } 0, .decideNext,
    .seedExternal 1 .sell 1 5]

/-- A hidden offer of five at five, and a displayed one at seven. -/
def hiddenOffer : List SimCall :=
  [.submit { ref := 100, side := .sell, qty := 5, price := 5, nonDisplayed := true } 0, .decideNext,
    .seedExternal 1 .sell 4 7]

end ExecutionSimulator

end Mog
