import Mog.Sim.Totals

/-!
# When fee arithmetic is exact

The product of notional and rate has 64 bits. The fee of a notional is the truncated quotient
as long as the product fits; beyond, it has lost a multiple of the range, and the fee of a larger
notional may be smaller.

`feeBpsOf` multiplies in 64 bits and divides the magnitude by ten thousand, the sign put back at
the end. So one fee is exact or has lost a multiple of the range before the division, and the
question is only whether the product fits. A sweep's notional is itself a 64-bit sum, compared
here with the exact sum over its executions.
-/

namespace Mog

/-! ## One fee -/

/-- A product cut to 64 bits has its own quotient exactly if it was not cut. -/
theorem wrapped_quotient_iff (x : Int) :
    x % 2 ^ 64 / 10000 = x.tdiv 10000 ↔ 0 ≤ x ∧ x < 2 ^ 64 := by
  by_cases hneg : x < 0
  · -- the exact quotient is not positive, and what is left after the cut is near the range
    have hquot : x.tdiv 10000 = -(-x / 10000) := by
      rw [← Int.tdiv_eq_ediv_of_nonneg (by omega), Int.neg_tdiv, Int.neg_neg]
    rw [hquot]
    omega
  · rw [Int.tdiv_eq_ediv_of_nonneg (by omega)]
    omega

/-- **When a fee is exact**: at rate zero, or where the notional is not negative and its product with
the rate fits. -/
theorem feeBpsOf_exact_iff {n : Nat} {value bps : Int} (hn : (n : Int) = value % 2 ^ 64) :
    feeBpsOf n bps = (value * bps).tdiv 10000
      ↔ bps = 0 ∨ (0 ≤ value ∧ value * bps.natAbs < 2 ^ 64) := by
  have hmag : ((n * bps.natAbs % 2 ^ 64 / 10000 : Nat) : Int)
      = value * bps.natAbs % 2 ^ 64 / 10000 := by
    have hcut : value % 2 ^ 64 * bps.natAbs % 2 ^ 64 = value * bps.natAbs % 2 ^ 64 := by
      rw [Int.mul_emod, Int.emod_emod, ← Int.mul_emod]
    rw [Int.natCast_ediv, Int.natCast_emod, Int.natCast_mul, hn]
    exact congrArg (· / 10000) hcut
  by_cases hzero : bps = 0
  · subst hzero
    refine iff_of_true ?_ (Or.inl rfl)
    rw [Int.mul_zero]
    rfl
  have hpos : 0 < (bps.natAbs : Int) := by omega
  have hsign : 0 ≤ value * bps.natAbs ↔ 0 ≤ value := by
    constructor
    · intro h
      by_contra hneg
      have hlt := Int.mul_neg_of_neg_of_pos (Int.not_le.mp hneg) hpos
      omega
    · exact fun h => Int.mul_nonneg h (Int.le_of_lt hpos)
  have hiff := wrapped_quotient_iff (value * bps.natAbs)
  rw [hsign, ← hmag] at hiff
  rw [or_iff_right hzero, ← hiff]
  unfold feeBpsOf
  dsimp only
  by_cases hneg : bps < 0
  · have hbps : value * bps = -(value * bps.natAbs) := by
      rw [← Int.mul_neg]
      congr 1
      omega
    rw [if_pos hneg, hbps, Int.neg_tdiv]
    exact Int.neg_inj
  · have hbps : value * bps = value * bps.natAbs := by
      congr 1
      omega
    rw [if_neg hneg, hbps]

/-- The fee of a rebate is the credit of the charge. -/
theorem feeBpsOf_neg (n : Nat) (bps : Int) : feeBpsOf n (-bps) = -feeBpsOf n bps := by
  unfold feeBpsOf
  rw [Int.natAbs_neg]
  dsimp only
  rcases Int.lt_trichotomy bps 0 with hneg | rfl | hpos
  · rw [if_neg (by omega), if_pos hneg, Int.neg_neg]
  · simp
  · rw [if_pos (by omega), if_neg (by omega)]

/-- A charge, without its sign. -/
theorem feeBpsOf_nonneg (n : Nat) {bps : Int} (hbps : 0 ≤ bps) :
    feeBpsOf n bps = ((n * bps.natAbs % 2 ^ 64 / 10000 : Nat) : Int) := by
  unfold feeBpsOf
  exact if_neg (Int.not_lt.mpr hbps)

/-- **Up to which notional a charge grows**: as far as the product fits. -/
theorem feeBpsOf_mono_iff {bps : Int} (hbps : 0 ≤ bps) (hle : bps ≤ 10000) (limit : Nat) :
    (∀ m n, m ≤ n → n ≤ limit → feeBpsOf m bps ≤ feeBpsOf n bps)
      ↔ limit * bps.natAbs < 2 ^ 64 := by
  constructor
  · intro hmono
    by_contra hover
    -- the first notional whose product is cut, and the one before it
    have hrate : 0 < bps.natAbs := by
      rcases Nat.eq_zero_or_pos bps.natAbs with hzero | hpos
      · rw [hzero, Nat.mul_zero] at hover
        exact absurd (Nat.two_pow_pos 64) hover
      · exact hpos
    obtain ⟨m, hm, hcut⟩ : ∃ m, m * bps.natAbs < 2 ^ 64 ∧ 2 ^ 64 ≤ (m + 1) * bps.natAbs := by
      refine ⟨(2 ^ 64 - 1) / bps.natAbs, ?_, ?_⟩
      · have hdiv := Nat.div_mul_le_self (2 ^ 64 - 1) bps.natAbs
        omega
      · have hdiv := Nat.lt_div_mul_add hrate (a := 2 ^ 64 - 1)
        rw [Nat.succ_mul]
        omega
    have hlimit : m + 1 ≤ limit := by
      by_contra hbelow
      have hmul := Nat.mul_le_mul_right bps.natAbs (show limit ≤ m by omega)
      omega
    have hfee := hmono m (m + 1) (Nat.le_succ m) hlimit
    rw [feeBpsOf_nonneg m hbps, feeBpsOf_nonneg (m + 1) hbps] at hfee
    rw [Nat.succ_mul] at hcut hfee
    omega
  · intro hfits m n hmn hn
    rw [feeBpsOf_nonneg m hbps, feeBpsOf_nonneg n hbps]
    have hm := Nat.mul_le_mul_right bps.natAbs hmn
    have hn := Nat.mul_le_mul_right bps.natAbs hn
    omega

/-! ## The fee of a sweep -/

namespace ExecutionSimulator

open Sweep

variable {k : Nat} {cfg : SimConfig} {sim : ExecutionSimulator k} {order o : SimInbound} {ts : Nat}

/-- The one decision made between `sim` and `sim'` has the fee of what it executed, truncated. -/
def FeeExact (cfg : SimConfig) (sim sim' : ExecutionSimulator k) : Prop :=
  ∃ d es, sim'.log.decisions = sim.log.decisions ++ [d]
    ∧ sim'.log.executions = sim.log.executions ++ es
    ∧ d.fee = (executedValue es * cfg.takerFeeBps).tdiv 10000

/-- Self-trade prevention stops the sweep. -/
def Stopped (sim : ExecutionSimulator k) (cfg : SimConfig) (o : SimInbound) (ts : Nat) : Prop :=
  ∃ w ∈ sim.sweepPasses cfg o ts, w.step cfg o = .stpStop

/-- The exact notional of the sweep is small enough for the rate: where the sweep is stopped, for a
fee of nothing; elsewhere, for the product. -/
def FeeFits (cfg : SimConfig) (sim sim' : ExecutionSimulator k) (o : SimInbound) (ts : Nat) : Prop :=
  ∀ es, sim'.log.executions = sim.log.executions ++ es →
    (sim.Stopped cfg o ts → (executedValue es * cfg.takerFeeBps).natAbs < 10000)
      ∧ (¬ sim.Stopped cfg o ts → cfg.takerFeeBps = 0
        ∨ (0 ≤ executedValue es ∧ executedValue es * cfg.takerFeeBps.natAbs < 2 ^ 64))

theorem tdiv_eq_zero_iff (x : Int) : 0 = x.tdiv 10000 ↔ x.natAbs < 10000 := by
  by_cases hneg : x < 0
  · have hquot : x.tdiv 10000 = -(-x / 10000) := by
      rw [← Int.tdiv_eq_ediv_of_nonneg (by omega), Int.neg_tdiv, Int.neg_neg]
    rw [hquot]
    omega
  · rw [Int.tdiv_eq_ediv_of_nonneg (by omega)]
    omega

/-- **When the fee of a sweep is exact.** -/
theorem feeExact_iff (h : SimInv cfg sim) (hs : sim.Sweeps order o) (ts : Nat) :
    FeeExact cfg sim (sim.decide cfg order ts) ↔ FeeFits cfg sim (sim.decide cfg order ts) o ts := by
  have hopen := opened_exchanges h ts
  have hoinv := Exchanges.inv h hopen
  obtain ⟨w, hw, hm, hcase⟩ := decide_swept h hs ts
  obtain ⟨⟨es, hacc⟩, -⟩ := hm.accounts (Nat.zero_lt_of_lt (Nat.two_pow_pos 64))
  have hdecisions : w.sim.log.decisions = sim.log.decisions :=
    (hm.exchanges hoinv.clearSync).1.decisions
  have hexecutions : w.sim.log.executions = sim.log.executions ++ es := hacc.executions
  have hnotional : (w.notional : Int) = executedValue es % 2 ^ 64 := by
    have hcount : w.notional = (0 + executedNotional es) % 2 ^ 64 := hacc.notional
    rw [hcount, Nat.zero_add, executedNotional_eq]
  -- the executions and the decision of the outcome are the ones in hand
  have hreduce : ∀ {sim' : ExecutionSimulator k} {d : SimDecision},
      sim'.log.executions = sim.log.executions ++ es →
      sim'.log.decisions = sim.log.decisions ++ [d] →
      (FeeExact cfg sim sim' ↔ d.fee = (executedValue es * cfg.takerFeeBps).tdiv 10000) := by
    intro sim' d hx hd
    constructor
    · intro ⟨d', es', hd', hx', hfee⟩
      obtain rfl := List.singleton_inj.mp (List.append_cancel_left (hd.symm.trans hd'))
      obtain rfl := List.append_cancel_left (hx.symm.trans hx')
      exact hfee
    · exact fun hfee => ⟨d, es, hd, hx, hfee⟩
  generalize sim.decide cfg order ts = r at hcase ⊢
  cases hcase with
  | stopped vis hloop hrem hstop =>
      have hpass := ((end_mem_passes cfg o w .stpStop _ _).mpr ⟨hloop, hrem, by decide⟩).1
      have hstopped : sim.Stopped cfg o ts := ⟨w, hpass, hstop⟩
      -- the notional has been left at zero
      obtain ⟨st, hst, d, hx, hd, hfee⟩ : ∃ st, ((w.sim.counted o w.filled).pushDecision
          { sweepDecision cfg ts w.filled 0 with
            kind := .rejectedStp, cancelledQty := toU32 (o.qty - w.filled) } vis o) = st
          ∧ ∃ d, st.log.executions = sim.log.executions ++ es
            ∧ st.log.decisions = sim.log.decisions ++ [d] ∧ d.fee = feeBpsOf 0 cfg.takerFeeBps :=
        ⟨_, rfl, _, hexecutions, congrArg (fun l => l ++ [_]) hdecisions, rfl⟩
      have hzero : feeBpsOf 0 cfg.takerFeeBps = 0 := by simp [feeBpsOf]
      have hfits : FeeFits cfg sim st o ts
          ↔ (executedValue es * cfg.takerFeeBps).natAbs < 10000 := by
        constructor
        · exact fun hall => (hall es hx).1 hstopped
        · intro hsmall es' hx'
          obtain rfl := List.append_cancel_left (hx.symm.trans hx')
          exact ⟨fun _ => hsmall, fun hno => absurd hstopped hno⟩
      rw [hst, hfits, hreduce hx hd, ← tdiv_eq_zero_iff, hfee, hzero]
  | done vis _ hloop hend hf =>
      have hnot : ¬ sim.Stopped cfg o ts := by
        intro ⟨u, hu, hus⟩
        have hstop := (end_mem_passes cfg o u .stpStop _ _).mp ⟨hu, by rw [hus]; rfl⟩
        exact absurd (hstop.1.symm.trans hloop) (by simp)
      have hx : r.log.executions = sim.log.executions ++ es :=
        hf.placed.executions.trans hexecutions
      obtain ⟨d, hlog, -, -, hfee⟩ := hf.log
      have hd : r.log.decisions = sim.log.decisions ++ [{ d with
          ref := o.ref, visibleTs := vis, side := o.side, seq := w.sim.log.seqCounter + 1 }] := by
        rw [hlog]
        exact congrArg (fun l => l ++ [_]) hdecisions
      have hfits : FeeFits cfg sim r o ts ↔ cfg.takerFeeBps = 0
          ∨ (0 ≤ executedValue es ∧ executedValue es * cfg.takerFeeBps.natAbs < 2 ^ 64) := by
        constructor
        · exact fun hall => (hall es hx).2 hnot
        · intro hsmall es' hx'
          obtain rfl := List.append_cancel_left (hx.symm.trans hx')
          exact ⟨fun hstop => absurd hstop hnot, fun _ => hsmall⟩
      rw [hfits, hreduce hx hd, ← feeBpsOf_exact_iff hnotional]
      exact Eq.congr hfee rfl

/-- **When fee arithmetic is exact.** For every fill and every rate up to a hundred percent the fee
is the truncated quotient exactly if the product of notional and rate fits 64 bits; a charge grows
with the notional exactly as far as it does; the fee is antisymmetric in the rate; and in every
reachable state the fee of a sweep is that of the exact notional exactly if this fits, the sweep of
an order that self-trade prevention stops having none. -/
theorem fees_exact_iff (hc : OrderBook.ConfigOk k cfg.book) (hr : Reachable cfg sim)
    (hs : sim.Sweeps order o) (ts : Nat) :
    (∀ price qty bps : Int, 0 ≤ price → price < 2 ^ 31 → 1 ≤ qty → qty < 2 ^ 32 →
        (feeBpsOf (notionalOf price qty) bps = (price * qty * bps).tdiv 10000
          ↔ price * qty * bps.natAbs < 2 ^ 64))
      ∧ (∀ (bps : Int) (limit : Nat), 0 ≤ bps → bps ≤ 10000 →
        ((∀ m n, m ≤ n → n ≤ limit → feeBpsOf m bps ≤ feeBpsOf n bps)
          ↔ limit * bps.natAbs < 2 ^ 64))
      ∧ (∀ (n : Nat) (bps : Int), feeBpsOf n (-bps) = -feeBpsOf n bps)
      ∧ (FeeExact cfg sim (sim.decide cfg order ts)
          ↔ FeeFits cfg sim (sim.decide cfg order ts) o ts) := by
  refine ⟨fun price qty bps h0 _ h1 _ => ?_, fun bps limit h0 h1 => feeBpsOf_mono_iff h0 h1 limit,
    feeBpsOf_neg, feeExact_iff (hr.simInv hc) hs ts⟩
  have hnonneg : 0 ≤ price * qty := Int.mul_nonneg h0 (by omega)
  rw [feeBpsOf_exact_iff (notionalOf_eq price qty), and_iff_right hnonneg]
  constructor
  · rintro (rfl | hfits)
    · rw [Int.natAbs_zero, Int.natCast_zero, Int.mul_zero]
      decide
    · exact hfits
  · exact Or.inr

/-- The configuration of `deskConfig` with a taker's charge of thirty percent, and an offer of four
units at a price of five. -/
def chargedConfig : SimConfig := { deskConfig with takerFeeBps := 3000 }

def chargedOffer : ExecutionSimulator 4 :=
  (init chargedConfig : ExecutionSimulator 4).call chargedConfig (.seedExternal 1 .sell 4 5)

/-- **An ioc buy of three** that pays for its 15 units of notional the 4 that thirty percent of them
come to, truncated; and the fee and the rebate of a fill that the book admits. -/
theorem fees_exact_ioc :
    FeeExact chargedConfig chargedOffer (chargedOffer.decide chargedConfig iocBuy 0)
      ∧ (chargedOffer.decide chargedConfig iocBuy 0).log.decisions.map (fun d => d.fee) = [4]
      ∧ feeBpsOf (notionalOf 7021 1) 3 = 2 ∧ feeBpsOf (notionalOf 7021 1) (-3) = -2
      ∧ feeBpsOf 15 3000 ≤ feeBpsOf 21063 3000 := by
  have hconfig : OrderBook.ConfigOk 4 chargedConfig.book := deskConfig_ok
  have hreach : Reachable chargedConfig chargedOffer :=
    Reaches.init.step (.seedExternal 1 .sell 4 5) (by decide) trivial
  have hsweeps : chargedOffer.Sweeps iocBuy iocBuy := by decide +kernel
  have h := fees_exact_iff hconfig hreach hsweeps 0
  have hfee := (h.1 7021 1 3 (by decide) (by decide) (by decide) (by decide)).mpr (by decide)
  have hmono := (h.2.1 3000 21063 (by decide) (by decide)).mpr (by decide)
  have hfills : executedValue (chargedOffer.decide chargedConfig iocBuy 0).log.executions = 15 := by
    decide +kernel
  refine ⟨h.2.2.2.mpr fun es hes => ?_, by decide +kernel, hfee.trans rfl,
    (h.2.2.1 _ 3).trans (congrArg Neg.neg (hfee.trans rfl)), hmono 15 21063 (by decide) (by decide)⟩
  have hvalue : executedValue es = 15 := by
    rw [hes] at hfills
    exact hfills
  rw [hvalue]
  have hends : ∀ w ∈ chargedOffer.sweepPasses chargedConfig iocBuy 0,
      (w.step chargedConfig iocBuy).ends ≠ some .stpStop := by decide +kernel
  refine ⟨fun ⟨w, hw, hstop⟩ => absurd ?_ (hends w hw), fun _ => Or.inr (by decide)⟩
  rw [hstop]
  rfl

/-- **The largest fill at a quarter of a percent** wraps. -/
theorem fee_of_largest_fill :
    feeBpsOf (notionalOf 2147483647 4294967295) 25
      ≠ ((2147483647 : Int) * 4294967295 * 25).tdiv 10000 := by decide

end ExecutionSimulator

end Mog
