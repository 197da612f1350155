import Mog.Sim.Flow
import Mog.Sim.Mutate

/-!
# Whole runs of the simulator

The public calls as one function of a state, the states any sequence of legal calls can
reach, and the invariant along every such run. A call is legal when it meets the
contracts the source states on its arguments. `run_until` and `drain` are passes of
`decideNext`, one for each event they process.

The invariant of a run is proved call by call from the case lemmas and the loop rules. Whatever
another file wants of every reachable state it gets from `Reaches`: a property of the initial
simulator that each legal call keeps. A second parameter lets a run be restricted to calls that
meet a condition in the state in which they are made.
-/

namespace Mog

open QueueSum TrackTable

namespace Sweep

variable {k : Nat} {cfg : SimConfig} {w : Sweep k} {order : SimInbound}

theorem settle_inv (h : SimInv cfg w.sim) (opp : Side) : SimInv cfg (w.settle opp) := by
  have hsub : ∀ (t : TrackTable) (p take : Int), SimInv cfg { w.sim with track := t } →
      SimInv cfg { w.sim with track := t.subtractLevel w.sim.book opp p take true } := by
    intro t p take ht
    obtain ⟨off, hr⟩ := subtractLevel_repositioned ht.mirror ht.book opp p take true
    exact ht.repositioned hr
  have hfold : ∀ (l : List (Int × Int)) (t : TrackTable), SimInv cfg { w.sim with track := t } →
      SimInv cfg { w.sim with
        track := l.foldl (fun t p => t.subtractLevel w.sim.book opp p.1 p.2 true) t } := by
    intro l
    induction l with
    | nil => intro t ht; exact ht
    | cons p l ih => intro t ht; exact ih _ (hsub t p.1 p.2 ht)
  unfold settle
  refine hfold _ _ ?_
  split
  · exact hsub _ _ _ h
  · exact h

end Sweep

namespace ExecutionSimulator

variable {k : Nat} {cfg : SimConfig} {sim : ExecutionSimulator k} {order : SimInbound}

/-- The sweep `cross` starts with. -/
def crossStart (sim : ExecutionSimulator k) (remaining : Int) : Sweep k :=
  { sim := { sim with track := { sim.track with recentSync := [] } }, remaining }

/-- How `cross` returns from a sweep that has ended in `w`. -/
inductive CrossCase (cfg : SimConfig) (order : SimInbound) (w : Sweep k) : CrossResult k → Prop where
  | stopped (hrem : 0 < w.remaining) (hstop : w.step cfg order = .stpStop) :
      CrossCase cfg order w { sim := w.sim, filled := w.filled, stpStop := true, notionalOut := 0 }
  | done (hend : w.remaining ≤ 0 ∨ (0 < w.remaining ∧ w.step cfg order = .leave)) :
      CrossCase cfg order w
        { sim := w.settle order.side.opp, filled := w.filled, stpStop := false
          notionalOut := w.notional }

/-- The sweep of `cross`, and how its loop ended. -/
def crossLoop (sim : ExecutionSimulator k) (cfg : SimConfig) (order : SimInbound)
    (remaining : Int) : Sweep k × SweepEnd :=
  Sweep.loop cfg order (sim.crossStart remaining).fuel (sim.crossStart remaining)

theorem cross_eq (sim : ExecutionSimulator k) (cfg : SimConfig) (order : SimInbound)
    (remaining : Int) : sim.cross cfg order remaining
      = if (sim.crossLoop cfg order remaining).2 = .stpStop then
          { sim := (sim.crossLoop cfg order remaining).1.sim
            filled := (sim.crossLoop cfg order remaining).1.filled
            stpStop := true, notionalOut := 0 }
        else
          { sim := (sim.crossLoop cfg order remaining).1.settle order.side.opp
            filled := (sim.crossLoop cfg order remaining).1.filled
            stpStop := false
            notionalOut := (sim.crossLoop cfg order remaining).1.notional } := by
  unfold cross crossLoop crossStart
  dsimp only
  split
  · rename_i hs
    rw [if_pos hs]
  · rename_i hs
    rw [if_neg hs]

/-- **What every pass preserves, `cross` preserves.** -/
theorem cross_rule {I : Sweep k → Prop} (order : SimInbound) (remaining : Int) (h : SimInv cfg sim)
    (hI : I (sim.crossStart remaining))
    (hstep : ∀ w w', SimInv cfg w.sim → I w → 0 < w.remaining → w.step cfg order = .more w' → I w') :
    ∃ w, SimInv cfg w.sim ∧ I w ∧ CrossCase cfg order w (sim.cross cfg order remaining) := by
  have hrun := Sweep.loop_rule hstep (sim.crossStart remaining).fuel
    (sim.crossStart remaining) h.clearSync hI (by rw [Sweep.fuel_eq]; exact Nat.lt_succ_self _)
  rw [cross_eq]
  change SimInv cfg (sim.crossLoop cfg order remaining).1.sim ∧ I (sim.crossLoop cfg order remaining).1
    ∧ Sweep.Ended cfg order (sim.crossLoop cfg order remaining).1
      (sim.crossLoop cfg order remaining).2 at hrun
  generalize sim.crossLoop cfg order remaining = r at *
  obtain ⟨w, e⟩ := r
  obtain ⟨hinv, hIw, hend⟩ := hrun
  refine ⟨w, hinv, hIw, ?_⟩
  dsimp only at hend ⊢
  cases hend with
  | filled hle => exact .done (Or.inl hle)
  | left hrem hs => exact .done (Or.inr ⟨hrem, hs⟩)
  | stopped hrem hs => exact .stopped hrem hs

theorem cross_inv (h : SimInv cfg sim) (order : SimInbound) (remaining : Int) :
    SimInv cfg (sim.cross cfg order remaining).sim := by
  obtain ⟨w, hw, _, hc⟩ := cross_rule (I := fun _ => True) order remaining h
    trivial (fun _ _ _ _ _ _ => trivial)
  generalize sim.cross cfg order remaining = c at *
  cases hc with
  | stopped => exact hw
  | done => exact Sweep.settle_inv hw _

/-! ## Decisions -/

theorem resolvePeg_ref (order : SimInbound) :
    (resolvePeg order).ref = order.ref ∧ (resolvePeg order).side = order.side
      ∧ (resolvePeg order).qty = order.qty ∧ (resolvePeg order).type = order.type
      ∧ (resolvePeg order).price = order.price := by
  unfold resolvePeg
  cases hty : order.type <;>
    first
      | exact ⟨rfl, rfl, rfl, hty, rfl⟩
      | exact ⟨rfl, rfl, rfl, rfl, rfl⟩

/-- The state in which a sweep has ended and its fills are counted. -/
def counted (sim : ExecutionSimulator k) (order : SimInbound) (got : Int) : ExecutionSimulator k :=
  sim.withLog (fun l =>
    { l with
      naiveFilled := (l.naiveFilled + toU64 order.qty) % 2 ^ 64
      modelFilled := (l.modelFilled + toU64 got) % 2 ^ 64
      aggressiveFilled := (l.aggressiveFilled + toU64 got) % 2 ^ 64 })

theorem sweep_eq (sim : ExecutionSimulator k) (cfg : SimConfig) (order : SimInbound)
    (decisionTs vis : Nat) : sim.sweep cfg order decisionTs vis
      = if (sim.cross cfg order order.qty).stpStop then
          ((sim.cross cfg order order.qty).sim.counted order
            (sim.cross cfg order order.qty).filled).pushDecision
            { sweepDecision cfg decisionTs (sim.cross cfg order order.qty).filled
                (sim.cross cfg order order.qty).notionalOut with
              kind := .rejectedStp
              cancelledQty := toU32 (order.qty - (sim.cross cfg order order.qty).filled) } vis order
        else
          ((sim.cross cfg order order.qty).sim.counted order
            (sim.cross cfg order order.qty).filled).finish order
            (order.qty - (sim.cross cfg order order.qty).filled)
            (sweepDecision cfg decisionTs (sim.cross cfg order order.qty).filled
              (sim.cross cfg order order.qty).notionalOut) vis := rfl

theorem sweep_inv (h : SimInv cfg sim) (hn : order.Named cfg.externalRefLimit)
    (decisionTs vis : Nat) : SimInv cfg (sim.sweep cfg order decisionTs vis) := by
  have hc := (cross_inv h order order.qty).logged
  rw [sweep_eq]
  split
  · exact pushDecision_inv (hc _) _ _ _
  · exact finish_inv (hc _) hn _ _ _

theorem decideResolved_inv (h : SimInv cfg sim) (hn : order.Named cfg.externalRefLimit)
    (decisionTs : Nat) : SimInv cfg (sim.decideResolved cfg order decisionTs) := by
  unfold decideResolved
  dsimp only
  have hlog := h.logged (sim.log.drawJitter cfg).2
  split
  · exact pushDecision_inv hlog _ _ _
  split
  · exact pushDecision_inv hlog _ _ _
  split
  · exact sweep_inv hlog hn _ _
  · exact finish_inv hlog hn _ _ _

theorem decide_inv (h : SimInv cfg sim) (hn : order.Named cfg.externalRefLimit)
    (decisionTs : Nat) : SimInv cfg (sim.decide cfg order decisionTs) := by
  have hrep := (h.logged { sim.log with nowHint := decisionTs }).repegHidden
  obtain ⟨href, _⟩ := resolvePeg_ref order
  have hn' : (resolvePeg order).Named cfg.externalRefLimit := by
    rw [SimInbound.Named, href]
    exact hn
  unfold decide
  dsimp only
  split
  · split
    · exact pushDecision_inv (hrep.logged _) _ _ _
    · refine decideResolved_inv hrep ?_ decisionTs
      exact hn'
  · exact decideResolved_inv hrep hn' decisionTs

/-! ## Calls -/

/-- The calls a user of the simulator can make. `decideNext` is one pass of `run_until`;
the quantities that `advanceTime` draws are arguments. -/
inductive SimCall where
  | seedExternal (ref : Nat) (s : Side) (qty price : Int)
  | seedIceberg (spec : IcebergSpec)
  | submit (order : SimInbound) (arrivalTs : Nat)
  | decideNext
  | applyExternal (s : Side) (price qty : Int)
  | advanceTime (dtNs drawnBuy drawnSell : Nat) (scaled : Side → Nat → Nat → Int)
  | cancelStrategy (ref : Nat)
  | replaceStrategy (orig fresh : Nat) (qty price : Int)
  | setHalted (h : Bool)
  | setStpMode (m : StpMode)

/-- Take one event off the scheduler and decide it. -/
def decideNext (sim : ExecutionSimulator k) (cfg : SimConfig) : ExecutionSimulator k :=
  if sim.wheel.empty then sim
  else
    ({ sim with wheel := sim.wheel.popMin.2 } : ExecutionSimulator k).decide cfg
      sim.wheel.popMin.1.order sim.wheel.popMin.1.visibleTs

def call (sim : ExecutionSimulator k) (cfg : SimConfig) : SimCall → ExecutionSimulator k
  | .seedExternal ref s qty price => (sim.seedExternal ref s qty price).2
  | .seedIceberg spec => (sim.seedIceberg spec).2
  | .submit order arrivalTs => (sim.submit cfg order arrivalTs).2
  | .decideNext => sim.decideNext cfg
  | .applyExternal s price qty => sim.applyExternal cfg s price qty
  | .advanceTime dtNs drawnBuy drawnSell scaled =>
      sim.advanceTime cfg dtNs drawnBuy drawnSell scaled
  | .cancelStrategy ref => (sim.cancelStrategy ref).2
  | .replaceStrategy orig fresh qty price => (sim.replaceStrategy orig fresh qty price).2
  | .setHalted h => sim.setHalted h
  | .setStpMode m => sim.setStpMode m

/-- The contracts the source states on the arguments of a call (`MOG_PRE`). -/
def SimCall.Legal (limit : Nat) : SimCall → Prop
  | .seedExternal ref _ _ _ => ref < limit
  | .seedIceberg spec => spec.ref < limit ∧ 0 < spec.display ∧ spec.display ≤ spec.total
  | .submit order _ => order.Named limit
  | .applyExternal _ _ qty => 0 < qty
  | .replaceStrategy _ fresh _ _ => limit ≤ fresh ∧ fresh ≠ 0
  | _ => True

instance (limit : Nat) (c : SimCall) : Decidable (c.Legal limit) := by
  cases c <;> unfold SimCall.Legal <;> unfold SimInbound.Named <;> infer_instance

/-- The states a run of legal calls can reach, each call meeting `ok` where it is made. -/
inductive Reaches (cfg : SimConfig) (ok : ExecutionSimulator k → SimCall → Prop) :
    ExecutionSimulator k → Prop where
  | init : Reaches cfg ok (init cfg)
  | step {sim : ExecutionSimulator k} (h : Reaches cfg ok sim) (c : SimCall)
      (hl : c.Legal cfg.externalRefLimit) (hok : ok sim c) : Reaches cfg ok (sim.call cfg c)

/-- A state that some run of legal calls reaches. -/
abbrev Reachable (cfg : SimConfig) : ExecutionSimulator k → Prop := Reaches cfg (fun _ _ => True)

theorem Reaches.mono {ok ok' : ExecutionSimulator k → SimCall → Prop}
    (himp : ∀ sim c, ok sim c → ok' sim c) (h : Reaches cfg ok sim) : Reaches cfg ok' sim := by
  induction h with
  | init => exact .init
  | step _ c hl hok ih => exact ih.step c hl (himp _ c hok)

theorem Reaches.reachable {ok : ExecutionSimulator k → SimCall → Prop} (h : Reaches cfg ok sim) :
    Reachable cfg sim := h.mono (fun _ _ _ => trivial)

/-- **`run_until` is passes of `decideNext`.** -/
theorem runUntil_passes (sim : ExecutionSimulator k) (cfg : SimConfig) (untilTs : Nat) :
    ∃ n, sim.runUntil cfg untilTs = (fun s => decideNext s cfg)^[n] sim := by
  have hloop : ∀ fuel (sim : ExecutionSimulator k),
      ∃ n, runLoop cfg untilTs fuel sim = (fun s => decideNext s cfg)^[n] sim := by
    intro fuel
    induction fuel with
    | zero => intro sim; exact ⟨0, rfl⟩
    | succ fuel ih =>
        intro sim
        rw [runLoop]
        by_cases hgo : ¬ sim.wheel.empty ∧ sim.wheel.peekMinTs ≤ untilTs
        · rw [if_pos hgo]
          obtain ⟨n, hn⟩ := ih (sim.decideNext cfg)
          refine ⟨n + 1, ?_⟩
          rw [Function.iterate_succ_apply, ← hn, decideNext, if_neg hgo.1]
        · rw [if_neg hgo]
          exact ⟨0, rfl⟩
  exact hloop _ _

theorem Reachable.runUntil (h : Reachable cfg sim) (untilTs : Nat) :
    Reachable cfg (sim.runUntil cfg untilTs) := by
  obtain ⟨n, hn⟩ := runUntil_passes sim cfg untilTs
  rw [hn]
  clear hn
  induction n with
  | zero => exact h
  | succ n ih =>
      rw [Function.iterate_succ_apply']
      exact ih.step .decideNext trivial trivial

theorem Reachable.drain (h : Reachable cfg sim) : Reachable cfg (sim.drain cfg) := h.runUntil _

/-- The state a list of calls leads to. -/
def run (cfg : SimConfig) (calls : List SimCall) : ExecutionSimulator k :=
  calls.foldl (fun s c => s.call cfg c) (init cfg)

/-- `ok` holds of each of the calls where it is made. -/
def CallsMeet (cfg : SimConfig) (ok : ExecutionSimulator k → SimCall → Prop) :
    ExecutionSimulator k → List SimCall → Prop
  | _, [] => True
  | sim, c :: calls => ok sim c ∧ CallsMeet cfg ok (sim.call cfg c) calls

theorem Reaches.calls {ok : ExecutionSimulator k → SimCall → Prop} {calls : List SimCall}
    (h : Reaches cfg ok sim) (hl : ∀ c ∈ calls, c.Legal cfg.externalRefLimit)
    (hok : CallsMeet cfg ok sim calls) :
    Reaches cfg ok (calls.foldl (fun s c => s.call cfg c) sim) := by
  induction calls generalizing sim with
  | nil => exact h
  | cons c calls ih =>
      exact ih (h.step c (hl c List.mem_cons_self) hok.1)
        (fun x hx => hl x (List.mem_cons_of_mem _ hx)) hok.2

theorem reaches_run {ok : ExecutionSimulator k → SimCall → Prop} {calls : List SimCall}
    (hl : ∀ c ∈ calls, c.Legal cfg.externalRefLimit) (hok : CallsMeet cfg ok (init cfg) calls) :
    Reaches cfg ok (run cfg calls : ExecutionSimulator k) :=
  Reaches.init.calls hl hok

theorem callsMeet_true : ∀ (calls : List SimCall) (sim : ExecutionSimulator k),
    CallsMeet cfg (fun _ _ => True) sim calls
  | [], _ => trivial
  | _ :: calls, _ => ⟨trivial, callsMeet_true calls _⟩

theorem reachable_run {calls : List SimCall} (hl : ∀ c ∈ calls, c.Legal cfg.externalRefLimit) :
    Reachable cfg (run cfg calls : ExecutionSimulator k) :=
  reaches_run hl (callsMeet_true calls _)

/-! ## The invariant along a run -/

theorem decideNext_inv (h : SimInv cfg sim) : SimInv cfg (sim.decideNext cfg) := by
  unfold decideNext
  split
  · exact h
  · rename_i hne
    obtain ⟨hev, hrest, _⟩ := Scheduler.popMin_holds h.wheel hne
    have hpop : SimInv cfg { sim with wheel := sim.wheel.popMin.2 } :=
      { book := h.book, mirror := h.mirror, icebergs := h.icebergs, hidden := h.hidden,
        wheel := hrest }
    exact decide_inv hpop hev _

theorem seedExternal_inv (h : SimInv cfg sim) {ref : Nat} (href : ref < cfg.externalRefLimit)
    (s : Side) (qty price : Int) : SimInv cfg (sim.seedExternal ref s qty price).2 := by
  unfold seedExternal
  rcases OrderBook.add_cases h.book ref s qty price with ⟨_, _, i, hi⟩ | ⟨_, _, hb⟩
  · exact h.seeded hi href
  · dsimp only
    rw [hb]
    exact h

theorem seedIceberg_inv (h : SimInv cfg sim) {spec : IcebergSpec}
    (hl : (SimCall.seedIceberg spec).Legal cfg.externalRefLimit) :
    SimInv cfg (sim.seedIceberg spec).2 := by
  unfold seedIceberg
  dsimp only
  rcases OrderBook.add_cases h.book spec.ref spec.side spec.display spec.price with
    ⟨hadd, hok, i, hi⟩ | ⟨_, hok, hb⟩
  · rw [if_neg (not_not.mpr hok)]
    have hs := h.seeded hi hl.1
    refine { book := hs.book, mirror := hs.mirror, hidden := hs.hidden, wheel := hs.wheel,
             icebergs := fun ib hib => ?_ }
    rcases List.mem_append.mp hib with hib | hib
    · exact hs.icebergs ib hib
    · rw [List.mem_singleton.mp hib]
      refine
        { named := hadd.named, external := hl.1, display := hl.2.1,
          hidden := Int.sub_nonneg_of_le hl.2.2, band := (hi.config.inBand_iff _).mpr hadd.band,
          page := ?_ }
      dsimp only
      rw [hi.config.dirIndex, hi.touched, if_pos rfl]
      exact Finset.mem_insert_self _ _
  · rw [if_pos hok, hb]
    exact h

theorem submit_inv (h : SimInv cfg sim) {order : SimInbound}
    (hn : order.Named cfg.externalRefLimit) (arrivalTs : Nat) :
    SimInv cfg (sim.submit cfg order arrivalTs).2 :=
  { book := h.book, mirror := h.mirror, icebergs := h.icebergs, hidden := h.hidden
    wheel := Scheduler.push_holds h.wheel hn }

theorem mem_eraseHidden {ref : Nat} {l : List Hidden} {e : Hidden} (h : e ∈ eraseHidden ref l) :
    e ∈ l := by
  induction l with
  | nil => exact h
  | cons a l ih =>
      rw [eraseHidden] at h
      split at h
      · exact List.mem_cons_of_mem _ h
      · rcases List.mem_cons.mp h with rfl | h
        · simp
        · exact List.mem_cons_of_mem _ (ih h)

theorem mem_replaceHidden {orig fresh : Nat} {qty price : Int} {l : List Hidden} {e : Hidden}
    (h : e ∈ replaceHidden orig fresh qty price l) :
    e ∈ l ∨ ∃ a ∈ l, a.ref = orig
      ∧ e = { a with ref := fresh, priceTicks := price, qtyRemaining := qty } := by
  induction l with
  | nil => exact absurd h (by simp [replaceHidden])
  | cons a l ih =>
      rw [replaceHidden] at h
      split at h
      · rename_i href
        rcases List.mem_cons.mp h with rfl | h
        · exact Or.inr ⟨a, by simp, href, rfl⟩
        · exact Or.inl (List.mem_cons_of_mem _ h)
      · rcases List.mem_cons.mp h with rfl | h
        · exact Or.inl (by simp)
        · rcases ih h with hin | ⟨x, hx, hr, he⟩
          · exact Or.inl (List.mem_cons_of_mem _ hin)
          · exact Or.inr ⟨x, List.mem_cons_of_mem _ hx, hr, he⟩

theorem cancelStrategy_inv (h : SimInv cfg sim) (ref : Nat) :
    SimInv cfg (sim.cancelStrategy ref).2 := by
  have hc := cancelStrategy_cases h ref
  generalize sim.cancelStrategy ref = r at *
  cases hc with
  | tracked i mid hh hw =>
      obtain ⟨off, hoff⟩ := exists_off sim.book sim.track
      exact (hw.recomputed h hoff).1
  | hidden => exact (h.ledger (fun e he => h.hidden e (mem_eraseHidden he))).logged _
  | unknown => exact h

theorem replaceStrategy_inv (h : SimInv cfg sim) (orig : Nat) {fresh : Nat}
    (hfresh : cfg.externalRefLimit ≤ fresh ∧ fresh ≠ 0) (qty price : Int) :
    SimInv cfg (sim.replaceStrategy orig fresh qty price).2 := by
  have hc := replaceStrategy_cases h orig hfresh.2 qty price
  generalize sim.replaceStrategy orig fresh qty price = r at *
  cases hc with
  | tracked i j b _ hh hc hok hr =>
      obtain ⟨off, hoff⟩ := exists_off sim.book sim.track
      exact (hr.spec h hfresh.1 hfresh.2 hoff).1
  | refused => exact h
  | hidden e hno hfind =>
      have hl : ∀ x ∈ replaceHidden orig fresh qty price sim.hidden,
          x.Named cfg.externalRefLimit := by
        intro x hx
        rcases mem_replaceHidden hx with hx | ⟨a, _, _, rfl⟩
        · exact h.hidden x hx
        · exact hfresh
      exact (h.ledger hl).logged _
  | unknown => exact h

/-- **A legal call keeps the invariant.** -/
theorem call_inv (h : SimInv cfg sim) {c : SimCall} (hl : c.Legal cfg.externalRefLimit) :
    SimInv cfg (sim.call cfg c) := by
  cases c with
  | seedExternal ref s qty price => exact seedExternal_inv h hl s qty price
  | seedIceberg spec => exact seedIceberg_inv h hl
  | submit order arrivalTs => exact submit_inv h hl arrivalTs
  | decideNext => exact decideNext_inv h
  | applyExternal s price qty => exact h.applyExternal s price qty
  | advanceTime dtNs drawnBuy drawnSell scaled => exact h.advanceTime dtNs drawnBuy drawnSell scaled
  | cancelStrategy ref => exact cancelStrategy_inv h ref
  | replaceStrategy orig fresh qty price => exact replaceStrategy_inv h orig hl qty price
  | setHalted b =>
      exact { book := h.book, mirror := h.mirror, icebergs := h.icebergs, hidden := h.hidden,
              wheel := h.wheel }
  | setStpMode m =>
      exact { book := h.book, mirror := h.mirror, icebergs := h.icebergs, hidden := h.hidden,
              wheel := h.wheel }

/-- Fresh trackers are on no list. -/
theorem init_linkInv (n : Nat) : ({ size := n } : TrackTable).LinkInv (fun _ _ => []) where
  dead _ _ := rfl
  bound _ hi := Bool.noConfusion hi
  probing _ :=
    { home_lt := fun _ => levelHash_lt _
      inj := fun _ _ _ _ ho => absurd rfl ho
      path := fun _ _ ho => absurd rfl ho }
  chain _ _ _ := LinkedChain.chain_nil
  count _ _ _ := rfl
  mem _ _ _ _ := ⟨fun hi => absurd hi (by simp), fun hi => Bool.noConfusion hi.1⟩
  placed _ hi := Bool.noConfusion hi
  degraded _ hi := Bool.noConfusion hi
  fallback _ _ hp := absurd hp (by simp [isFallbackLevel])

theorem init_simInv (hc : OrderBook.ConfigOk k cfg.book) :
    SimInv cfg (init cfg : ExecutionSimulator k) := by
  have hb : (OrderBook.init cfg.book : OrderBook k).Valid := (OrderBook.init_inv hc).valid
  have hlive : ∀ i, ¬ (OrderBook.init cfg.book : OrderBook k).live i := fun i hi =>
    absurd (((OrderBook.init_inv (k := k) hc).mem _ _ i).mpr ⟨hi, rfl, rfl⟩) (by simp)
  exact
    { book := hb, icebergs := fun ib hib => absurd hib (by simp [init]),
      hidden := fun e he => absurd he (by simp [init]),
      wheel := fun j hj => absurd hj (Nat.not_lt_zero j),
      mirror := ⟨⟨_, init_linkInv _⟩, rfl, fun i hi => absurd hi.1 (hlive i), fun i _ => rfl⟩ }

/-- **The invariant holds in every reachable state.** -/
theorem Reaches.simInv {ok : ExecutionSimulator k → SimCall → Prop}
    (hc : OrderBook.ConfigOk k cfg.book) (h : Reaches cfg ok sim) : SimInv cfg sim := by
  induction h with
  | init => exact init_simInv hc
  | step _ c hl _ ih => exact call_inv ih hl

/-- A band of sixteen ticks on one page, four slots, strategy references from 100 on. -/
def deskConfig : SimConfig := { book := ⟨4, ⟨0, 16, 1⟩⟩, externalRefLimit := 100 }

theorem deskConfig_ok : OrderBook.ConfigOk 4 deskConfig.book :=
  ⟨by decide, by decide, by decide, by decide, by decide⟩

/-! ## The trackers mirror the book -/

/-- The trackers are those of the strategy's orders, and the lists of the levels are theirs. -/
structure MirrorsBook (cfg : SimConfig) (sim : ExecutionSimulator k) : Prop where
  live_iff : ∀ i, (sim.track.tracked i).live = true
    ↔ sim.book.live i ∧ cfg.externalRefLimit ≤ (sim.book.order i).orderRef
  record : ∀ i, (sim.track.tracked i).live = true →
    (sim.track.tracked i).ref = (sim.book.order i).orderRef
      ∧ (sim.track.tracked i).side = (sim.book.order i).side
      ∧ (sim.track.tracked i).priceTicks = (sim.book.order i).priceTicks
      ∧ (sim.track.tracked i).qtyRemaining = (sim.book.order i).qtyRemaining
  /-- `L s x` is the list of entry `x`. -/
  lists : ∃ L : Side → Nat → List Nat,
    (∀ s x, x < kLevelMapSize →
      LinkedChain.Chain (fun i => (sim.track.tracked i).levelNext)
          (fun i => (sim.track.tracked i).levelPrev) kNullIndex (sim.track.levelMaps s x).head
          ((L s x).getLastD kNullIndex) (L s x)
        ∧ (sim.track.levelMaps s x).count = (L s x).length
        ∧ ∀ i ∈ L s x, (sim.track.tracked i).live = true)
    ∧ ∀ i, (sim.track.tracked i).live = true → (sim.track.tracked i).levelLinked = true →
        ∃ x, IsEntry (sim.track.levelMaps (sim.track.tracked i).side)
            (sim.track.tracked i).priceTicks x
          ∧ ∀ s y, y < kLevelMapSize → (i ∈ L s y ↔ s = (sim.track.tracked i).side ∧ y = x)

theorem mirrorsBook_of_inv (h : SimInv cfg sim) : sim.MirrorsBook cfg where
  live_iff i := (TrackTable.live_iff i).trans (h.mirror.at?_iff i)
  record i hi := by
    obtain ⟨_, hv⟩ := h.mirror.record_of_some (at?_live hi)
    exact ⟨congrArg TrackView.ref hv, congrArg TrackView.side hv,
      congrArg TrackView.priceTicks hv, congrArg TrackView.qtyRemaining hv⟩
  lists := by
    obtain ⟨L, hL⟩ := h.mirror.inv
    refine ⟨L, fun s x hx => ⟨hL.chain s x hx, hL.count s x hx, fun i hi => ?_⟩, fun i hi hlink => ?_⟩
    · exact hL.live_of_mem hx hi
    · obtain ⟨x, hx⟩ := (hL.placed i hi).mp hlink
      refine ⟨x, hx, fun s y hy => ?_⟩
      rw [hL.mem s y i hy]
      constructor
      · rintro ⟨_, rfl, hentry⟩
        exact ⟨rfl, hentry.unique (hL.probing _) hx⟩
      · rintro ⟨rfl, rfl⟩
        exact ⟨hlink, rfl, hx⟩

/--
**The tracker mirrors the book.**

In every state that legal calls can reach, a slot's tracker is live exactly when the
slot holds an order of the strategy, and records that order; the level lists are
doubly linked chains of live trackers, each on the list of its own level, with the
right counts.
-/
theorem mirrorsBook_reachable (hc : OrderBook.ConfigOk k cfg.book) (h : Reachable cfg sim) :
    sim.MirrorsBook cfg := mirrorsBook_of_inv (h.simInv hc)

/-- Two bids of the strategy on one level, one of them replaced, with an order from outside between
them that goes, and flow that fills the first in part. -/
def bidsAround : List SimCall :=
  [.submit { ref := 100, qty := 5, price := 3 } 0, .decideNext, .seedExternal 1 .buy 2 3,
    .submit { ref := 101, qty := 4, price := 3 } 1, .decideNext, .replaceStrategy 101 102 6 4,
    .applyExternal .buy 3 3, .submit { ref := 103, side := .sell, qty := 2, price := 4 } 2,
    .decideNext]

/-- What is left of them is tracked. -/
theorem mirrorsBook_reachable_bid :
    (run deskConfig bidsAround : ExecutionSimulator 4).MirrorsBook deskConfig
      ∧ (run deskConfig bidsAround : ExecutionSimulator 4).book.remainingOf 100 = 2
      ∧ (run deskConfig bidsAround : ExecutionSimulator 4).book.remainingOf 102 = 4 :=
  ⟨mirrorsBook_reachable deskConfig_ok (reachable_run (by decide)), by decide +kernel,
    by decide +kernel⟩

end ExecutionSimulator

end Mog
