import Mathlib.Algebra.BigOperators.Group.List.Basic
import Mog.SimRun.Numbers

/-!
# Is the events log complete?

The simulator produces fills at two points of a row, while external time advances and
while the row acts and drains, and the runner collects them at one, which halts and
resumes skip. What is produced is compared with what is collected, row by row.

The lists compared are of fills with the timestamps of the rows in which they came. Within a row
the two points are followed by one collection, so that a fill waits at most until the next row
that collects; a fill made during a halt row waits longer and gets a later row's timestamp.
Decisions are compared in the same way, each with the row that submitted its order.
-/

namespace Mog

namespace Scheduler

variable {α : Type}

/-- A push on an empty scheduler: nothing, where there is no room, or the one event. -/
theorem push_empty [Inhabited α] {w : Scheduler α} (h : w.empty) (ts : Nat) (v : α) :
    (w.push ts v).2.empty ∨ (w.push ts v).2.heapSize = 1 ∧ (w.push ts v).2.peekMinTs = ts := by
  have hplace : ∀ {w' : Scheduler α} {idx : Nat}, w'.heapSize = 0 →
      (w'.place idx ts v).heapSize = 1 ∧ (w'.place idx ts v).peekMinTs = ts := by
    intro w' idx h0
    unfold place modifySlot peekMinTs
    dsimp only
    rw [h0]
    refine ⟨rfl, ?_⟩
    show (Function.update w'.heap 0 { ts, seq := w'.nextSeq, slot := idx } 0).ts = ts
    rw [Function.update_self]
  unfold push
  split
  · split
    · exact Or.inl h
    · exact Or.inr (hplace h)
  · exact Or.inr (hplace h)

end Scheduler

namespace SimRun

open ExecutionSimulator

variable {k : Nat} {cfg : SimConfig}

/-! ## Calls that decide nothing, and the one that decides -/

/-- A simulator with nothing scheduled has nothing to drain. -/
theorem drain_idle {sim : ExecutionSimulator k} (h : sim.wheel.empty) : sim.drain cfg = sim :=
  runUntil_idle sim cfg fun hdue => hdue.1 h

/-- **A submission to an idle simulator** is the one that the next drain decides. -/
theorem drain_submit {sim : ExecutionSimulator k} (h : sim.wheel.empty) (order : SimInbound)
    (ts : Nat) : ((sim.submit cfg order ts).2.drain cfg).wheel.empty
      ∧ ∃ ds, ((sim.submit cfg order ts).2.drain cfg).log.decisions = sim.log.decisions ++ ds
        ∧ ∀ d ∈ ds, d.ref = order.ref := by
  generalize hsub : (sim.submit cfg order ts).2 = next
  have hdec : next.log.decisions = sim.log.decisions := by
    rw [← hsub]
    rfl
  have hwheel : next.wheel.empty ∨ next.wheel.heapSize = 1 ∧ next.wheel.peekMinTs
      = (sim.submit cfg order ts).1 := by
    rw [← hsub]
    exact Scheduler.push_empty h _ _
  have hpending : next.wheel.Holds fun ev => ev.order = order := by
    rw [← hsub]
    refine Scheduler.push_holds (fun j hj => ?_) rfl
    have hzero : sim.wheel.heapSize = 0 := h
    omega
  rcases hwheel with hnone | ⟨hone, hts⟩
  · rw [drain_idle hnone]
    exact ⟨hnone, [], by rw [hdec, List.append_nil], fun d hd => absurd hd List.not_mem_nil⟩
  have hne : ¬ next.wheel.empty := by
    intro hempty
    have hzero : next.wheel.heapSize = 0 := hempty
    omega
  have hdue : next.Due (2 ^ 64 - 1) := by
    refine ⟨hne, ?_⟩
    rw [hts]
    exact Nat.le_sub_one_of_lt (Nat.mod_lt _ (by decide))
  have hsize := decideNext_heapSize next cfg hne
  have hempty : (next.decideNext cfg).wheel.empty := by
    show (next.decideNext cfg).wheel.heapSize = 0
    rw [hsize, hone]
  have hdrain : next.drain cfg = next.decideNext cfg := by
    unfold drain
    rw [runUntil_due next cfg hdue]
    exact drain_idle hempty
  have hpop := (Scheduler.popMin_holds hpending hne).1
  obtain ⟨d, hd, href⟩ := (decide_answers { next with wheel := next.wheel.popMin.2 } cfg
    next.wheel.popMin.1.order next.wheel.popMin.1.visibleTs).decision
  rw [hdrain]
  refine ⟨hempty, [d], ?_, fun x hx => ?_⟩
  · rw [← hdec]
    unfold decideNext
    rw [if_neg hne]
    exact hd
  · rw [List.mem_singleton.mp hx, href, hpop]

/-! ## What a row produces -/

variable (cfg)

/-- The simulator when the row has made its calls and nothing has been collected. -/
def rowEnd (d : Draws) (prevTs : Nat) (r : Row) (sim : ExecutionSimulator k) :
    ExecutionSimulator k :=
  if r.kind.control then advanceRow cfg d prevTs r sim
  else (actRow cfg r (advanceRow cfg d prevTs r sim)).drain cfg

/-- The fills that the simulator produces while the row is processed. -/
def fillsOf (d : Draws) (r : Row) (s : Loop k) : List SimFillReport :=
  (rowEnd cfg d s.prevTs r s.sim).log.reports.drop s.sim.log.reports.length

/-- The decisions that the simulator makes while the row is processed. -/
def decisionsOf (d : Draws) (r : Row) (s : Loop k) : List SimDecision :=
  (rowEnd cfg d s.prevTs r s.sim).log.decisions.drop s.sim.log.decisions.length

variable (draws : Nat → Draws)

/-- Every fill of a run with the row in which it is produced. -/
def produced : Nat → List Row → Loop k → List (Row × SimFillReport)
  | _, [], _ => []
  | i, r :: rs, s =>
      (fillsOf cfg (draws i) r s).map (r, ·) ++ produced (i + 1) rs (s.step cfg (draws i) r)

/-- Every decision of a run with the row in which it is made. -/
def decided : Nat → List Row → Loop k → List (Row × SimDecision)
  | _, [], _ => []
  | i, r :: rs, s =>
      (decisionsOf cfg (draws i) r s).map (r, ·) ++ decided (i + 1) rs (s.step cfg (draws i) r)

/-- Every fill that a run collects, with the row that collects it. -/
def collected : Nat → List Row → Loop k → List (Row × SimFillReport)
  | _, [], _ => []
  | i, r :: rs, s =>
      (if r.kind.control then []
        else (rowEnd cfg (draws i) s.prevTs r s.sim).log.reports.map (r, ·))
        ++ collected (i + 1) rs (s.step cfg (draws i) r)

/-- The next row that is not a halt or a resume. -/
def nextCollecting (rs : List Row) : Option Row := rs.find? fun r => ¬ r.kind.control

/-- Where the time that passes before a halt or a resume fills an order, the next row that
collects has the same timestamp. -/
def Timely : Nat → List Row → Loop k → Prop
  | _, [], _ => True
  | i, r :: rs, s =>
      (r.kind.control → fillsOf cfg (draws i) r s = []
          ∨ (nextCollecting rs).map Row.ts = some r.ts)
        ∧ Timely (i + 1) rs (s.step cfg (draws i) r)

/-! ## The log against what is produced -/

/-- A log row without its mark of the book. -/
def EventRecord.unmarked (e : EventRecord) : EventRecord := { e with midTicks := 0 }

def EventRecord.isMaker (e : EventRecord) : Bool := e.type = .fill ∧ e.ledger = .maker

def EventRecord.isTaker (e : EventRecord) : Bool := e.type = .fill ∧ e.ledger = .taker

def makerOf (p : Row × SimFillReport) : EventRecord := makerRow p.1.ts 0 p.2

def takerOf (p : Row × SimDecision) : EventRecord := takerRow cfg p.1.ts 0 p.2

/-- The decisions that filled something. -/
def filling (ds : List (Row × SimDecision)) : List (Row × SimDecision) :=
  ds.filter fun p => p.2.filledQty ≠ 0

/-- From `out` to `out'` the fills `ms` and the filling decisions `ts` have been logged, and
nothing else has been counted. -/
structure Adds (out out' : Summary) (ms : List (Row × SimFillReport))
    (ts : List (Row × SimDecision)) : Prop where
  makers : (out'.events.filter EventRecord.isMaker).map EventRecord.unmarked
    = (out.events.filter EventRecord.isMaker).map EventRecord.unmarked ++ ms.map makerOf
  takers : (out'.events.filter EventRecord.isTaker).map EventRecord.unmarked
    = (out.events.filter EventRecord.isTaker).map EventRecord.unmarked ++ ts.map (takerOf cfg)
  makerFills : out'.makerFills = out.makerFills + ms.length
  takerFills : out'.takerFills = out.takerFills + ts.length
  fills : out'.fills = out.fills + (ms.length + ts.length)
  volume : out'.volumeTicks = out.volumeTicks
    + ((ms.map fun p => p.2.priceTicks * (p.2.qty : Int)).sum
      + (ts.map fun p => toI64 p.2.filledNotional).sum)
  fees : out'.feesPaidCash = out.feesPaidCash
    + ((ms.map fun p => p.2.fee).sum
      + (ts.map fun p => feeBpsOf p.2.filledNotional cfg.takerFeeBps).sum)

/-- **The log is complete and correctly stamped**: its maker rows are the fills produced, each with
the timestamp of its row, its taker rows are the decisions that filled something, each made in the
row that submitted the order, and the counts and sums are theirs. -/
structure Complete (rows : List Row) (s : Loop k) (out : Summary) : Prop where
  adds : Adds cfg s.out out (produced cfg draws 0 rows s) (filling (decided cfg draws 0 rows s))
  submitted : ∀ p ∈ decided cfg draws 0 rows s,
    (p.1.kind = .stratLimit ∨ p.1.kind = .stratIoc) ∧ p.2.ref = (inbound p.1).ref

variable {cfg draws} {out out' out'' : Summary}

theorem Adds.refl (out : Summary) : Adds cfg out out [] [] where
  makers := (List.append_nil _).symm
  takers := (List.append_nil _).symm
  makerFills := rfl
  takerFills := rfl
  fills := rfl
  volume := (Int.add_zero _).symm
  fees := (Int.add_zero _).symm

theorem Adds.trans {ms ms' : List (Row × SimFillReport)} {ts ts' : List (Row × SimDecision)}
    (h : Adds cfg out out' ms ts) (h' : Adds cfg out' out'' ms' ts') :
    Adds cfg out out'' (ms ++ ms') (ts ++ ts') where
  makers := by rw [h'.makers, h.makers, List.map_append, List.append_assoc]
  takers := by rw [h'.takers, h.takers, List.map_append, List.append_assoc]
  makerFills := by rw [h'.makerFills, h.makerFills, List.length_append, Nat.add_assoc]
  takerFills := by rw [h'.takerFills, h.takerFills, List.length_append, Nat.add_assoc]
  fills := by
    rw [h'.fills, h.fills, List.length_append, List.length_append]
    omega
  volume := by
    rw [h'.volume, h.volume, List.map_append, List.map_append, List.sum_append, List.sum_append]
    omega
  fees := by
    rw [h'.fees, h.fees, List.map_append, List.map_append, List.sum_append, List.sum_append]
    omega

/-- A change of counters that the log does not keep. -/
theorem Adds.still (he : out'.events = out.events) (hf : out'.fills = out.fills)
    (hm : out'.makerFills = out.makerFills) (ht : out'.takerFills = out.takerFills)
    (hv : out'.volumeTicks = out.volumeTicks) (hp : out'.feesPaidCash = out.feesPaidCash) :
    Adds cfg out out' [] [] where
  makers := by rw [he]; exact (List.append_nil _).symm
  takers := by rw [he]; exact (List.append_nil _).symm
  makerFills := hm
  takerFills := ht
  fills := hf
  volume := hv.trans (Int.add_zero _).symm
  fees := hp.trans (Int.add_zero _).symm

theorem adds_maker (r : Row) (mid : Int) (f : SimFillReport) :
    Adds cfg out (out.addMaker r.ts mid f) [(r, f)] [] where
  makers := by
    unfold Summary.addMaker
    rw [List.filter_append, List.map_append]
    rfl
  takers := by
    unfold Summary.addMaker
    rw [List.filter_append, List.map_append]
    rfl
  makerFills := rfl
  takerFills := rfl
  fills := rfl
  volume := by
    show _ = out.volumeTicks + (f.priceTicks * (f.qty : Int) + 0 + 0)
    rw [Int.add_zero, Int.add_zero]
    rfl
  fees := by
    show _ = out.feesPaidCash + (f.fee + 0 + 0)
    rw [Int.add_zero, Int.add_zero]
    rfl

theorem adds_taker (r : Row) (mid : Int) (d : SimDecision) :
    Adds cfg out (out.addTaker cfg r.ts mid d) [] (filling [(r, d)]) := by
  unfold Summary.addTaker filling
  by_cases hzero : d.filledQty = 0
  · rw [if_pos hzero, List.filter_cons_of_neg (by simpa using hzero)]
    exact .refl out
  rw [if_neg hzero, List.filter_cons_of_pos (by simpa using hzero), List.filter_nil]
  have hmaker : ¬ (takerRow cfg r.ts mid d).isMaker = true := Bool.false_ne_true
  have htaker : (takerRow cfg r.ts mid d).isTaker = true := decide_eq_true ⟨rfl, rfl⟩
  have hrow : (takerRow cfg r.ts mid d).unmarked = takerOf cfg (r, d) := rfl
  generalize takerRow cfg r.ts mid d = e at hmaker htaker hrow ⊢
  constructor
  · rw [List.filter_append, List.map_append, List.filter_cons_of_neg hmaker]
    rfl
  · rw [List.filter_append, List.map_append, List.filter_cons_of_pos htaker, List.map_cons, hrow]
    rfl
  · rfl
  · rfl
  · rfl
  · rw [List.map_nil, List.sum_nil, List.map_singleton, List.sum_singleton, Int.zero_add]
  · rw [List.map_nil, List.sum_nil, List.map_singleton, List.sum_singleton, Int.zero_add]

theorem adds_makers (r : Row) (mid : Int) (l : List SimFillReport) (out : Summary) :
    Adds cfg out (l.foldl (Summary.addMaker r.ts mid) out) (l.map (r, ·)) [] := by
  induction l generalizing out with
  | nil => exact .refl out
  | cons f l ih => exact (adds_maker r mid f).trans (ih _)

theorem adds_takers (r : Row) (mid : Int) (l : List SimDecision) (out : Summary) :
    Adds cfg out (l.foldl (Summary.addTaker cfg r.ts mid) out) [] (filling (l.map (r, ·))) := by
  induction l generalizing out with
  | nil => exact .refl out
  | cons d l ih =>
      have hsplit : filling ((d :: l).map (r, ·)) = filling [(r, d)] ++ filling (l.map (r, ·)) :=
        List.filter_append [(r, d)] (l.map (r, ·))
      rw [hsplit]
      exact (adds_taker r mid d).trans (ih _)

theorem adds_print (mid : Int) (r : Row) :
    Adds cfg out { out with events := out.events ++ [printRow mid r] } [] [] where
  makers := by
    rw [List.filter_append, List.map_append]
    rfl
  takers := by
    rw [List.filter_append, List.map_append]
    rfl
  makerFills := rfl
  takerFills := rfl
  fills := rfl
  volume := (Int.add_zero _).symm
  fees := (Int.add_zero _).symm

/-! ## One row -/

theorem advanceRow_extends (d : Draws) (prevTs : Nat) (r : Row) (sim : ExecutionSimulator k) :
    Extends sim (advanceRow cfg d prevTs r sim) := by
  unfold advanceRow
  split
  · exact advanceTime_extends sim cfg _ _ _ _
  · exact .refl sim

/-- A row that submits nothing decides nothing. -/
theorem actRow_extends {r : Row} (h : r.kind = .extAdd ∨ r.kind = .trade ∨ r.kind = .stratCancel)
    (sim : ExecutionSimulator k) : Extends sim (actRow cfg r sim) := by
  unfold actRow
  rcases h with h | h | h
  · rw [h]
    exact .still rfl rfl
  · rw [h]
    exact applyExternal_extends sim cfg _ _ _
  · rw [h]
    exact cancelStrategy_extends sim _

/-- A row that submits an order. -/
theorem actRow_submit {r : Row} (h : r.kind = .stratLimit ∨ r.kind = .stratIoc)
    (sim : ExecutionSimulator k) : actRow cfg r sim = (sim.submit cfg (inbound r) r.ts).2 := by
  unfold actRow
  rcases h with h | h
  · rw [h]
  · rw [h]

theorem kind_cases {r : Row} (h : ¬ r.kind.control) :
    (r.kind = .stratLimit ∨ r.kind = .stratIoc)
      ∨ r.kind = .extAdd ∨ r.kind = .trade ∨ r.kind = .stratCancel := by
  unfold RowKind.control at h
  cases hk : r.kind <;> simp [hk] at h ⊢

/-- A row adds to the logs. -/
theorem rowEnd_grows (d : Draws) (prevTs : Nat) (r : Row) (sim : ExecutionSimulator k) :
    sim.log.Grows (rowEnd cfg d prevTs r sim).log := by
  have hadv := @advanceRow_extends _ cfg d prevTs r sim
  unfold rowEnd
  by_cases hcontrol : r.kind.control
  · rw [if_pos hcontrol]
    exact hadv.log
  rw [if_neg hcontrol]
  refine FillLog.Grows.trans ?_ (runUntil_grows _ cfg _)
  rcases kind_cases hcontrol with hsub | hother
  · rw [actRow_submit hsub]
    exact hadv.log.trans (submit_grows _ cfg _ _)
  · exact hadv.log.trans (@actRow_extends _ cfg _ hother _).log

/-- **A row** leaves nothing scheduled, loses no report, and decides only its own order. -/
theorem rowEnd_spec (d : Draws) (prevTs : Nat) (r : Row) {sim : ExecutionSimulator k}
    (h : sim.wheel.empty) : (rowEnd cfg d prevTs r sim).wheel.empty
      ∧ (∃ fs, (rowEnd cfg d prevTs r sim).log.reports = sim.log.reports ++ fs)
      ∧ ∃ ds, (rowEnd cfg d prevTs r sim).log.decisions = sim.log.decisions ++ ds
        ∧ ∀ x ∈ ds, (r.kind = .stratLimit ∨ r.kind = .stratIoc) ∧ x.ref = (inbound r).ref := by
  have hadv := @advanceRow_extends _ cfg d prevTs r sim
  have hidle : (advanceRow cfg d prevTs r sim).wheel.empty := by
    rw [hadv.wheel]
    exact h
  have hreports : ∃ fs, (rowEnd cfg d prevTs r sim).log.reports = sim.log.reports ++ fs := by
    obtain ⟨os, hos, -⟩ := @rowEnd_grows _ cfg d prevTs r sim
    exact ⟨_, hos.reports⟩
  have hnone : ∀ {b : ExecutionSimulator k}, Extends sim b → ∃ ds, b.log.decisions
      = sim.log.decisions ++ ds ∧ ∀ x ∈ ds, (r.kind = .stratLimit ∨ r.kind = .stratIoc)
        ∧ x.ref = (inbound r).ref := fun hext =>
    ⟨[], by rw [hext.decisions, List.append_nil], fun x hx => absurd hx List.not_mem_nil⟩
  suffices hrest : (rowEnd cfg d prevTs r sim).wheel.empty
      ∧ ∃ ds, (rowEnd cfg d prevTs r sim).log.decisions = sim.log.decisions ++ ds
        ∧ ∀ x ∈ ds, (r.kind = .stratLimit ∨ r.kind = .stratIoc) ∧ x.ref = (inbound r).ref from
    ⟨hrest.1, hreports, hrest.2⟩
  unfold rowEnd
  by_cases hcontrol : r.kind.control
  · rw [if_pos hcontrol]
    exact ⟨hidle, hnone hadv⟩
  rw [if_neg hcontrol]
  rcases kind_cases hcontrol with hsub | hother
  · rw [actRow_submit hsub]
    obtain ⟨hempty, ds, hds, hrefs⟩ := @drain_submit _ cfg _ hidle (inbound r) r.ts
    refine ⟨hempty, ds, ?_, fun x hx => ⟨hsub, hrefs x hx⟩⟩
    rw [hds, hadv.decisions]
  · have hact := hadv.trans (@actRow_extends _ cfg _ hother _)
    have hempty : (actRow cfg r (advanceRow cfg d prevTs r sim)).wheel.empty := by
      rw [hact.wheel]
      exact h
    rw [drain_idle hempty]
    exact ⟨hempty, hnone hact⟩

/-- The decisions made before the drain of a row are those of the rows before. -/
theorem actRow_decisions {r : Row} (hcontrol : ¬ r.kind.control) (d : Draws) (prevTs : Nat)
    (sim : ExecutionSimulator k) :
    (actRow cfg r (advanceRow cfg d prevTs r sim)).log.decisions = sim.log.decisions := by
  have hadv := @advanceRow_extends _ cfg d prevTs r sim
  rcases kind_cases hcontrol with hsub | hother
  · rw [actRow_submit hsub]
    exact hadv.decisions
  · exact (hadv.trans (@actRow_extends _ cfg _ hother _)).decisions

/-- What a row leaves of the simulator: its own state, without the reports if it collects. -/
theorem step_sim (d : Draws) (r : Row) (s : Loop k) :
    (s.step cfg d r).sim.wheel = (rowEnd cfg d s.prevTs r s.sim).wheel
      ∧ (s.step cfg d r).sim.log.decisions = (rowEnd cfg d s.prevTs r s.sim).log.decisions
      ∧ (s.step cfg d r).sim.log.reports = if r.kind.control then
          (rowEnd cfg d s.prevTs r s.sim).log.reports else [] := by
  unfold Loop.step rowEnd
  dsimp only
  by_cases hhalt : r.kind = .halt
  · have hcontrol : r.kind.control := Or.inl hhalt
    rw [if_pos hhalt, if_pos hcontrol, if_pos hcontrol]
    exact ⟨rfl, rfl, rfl⟩
  rw [if_neg hhalt]
  by_cases hresume : r.kind = .resume
  · have hcontrol : r.kind.control := Or.inr hresume
    rw [if_pos hresume, if_pos hcontrol, if_pos hcontrol]
    exact ⟨rfl, rfl, rfl⟩
  have hcontrol : ¬ r.kind.control := not_or.mpr ⟨hhalt, hresume⟩
  rw [if_neg hresume, if_neg hcontrol, if_neg hcontrol]
  exact ⟨rfl, rfl, rfl⟩

/-- The counters of a row's start. -/
theorem adds_start (c : Prop) [Decidable c] (out : Summary) :
    Adds cfg out (if c then
        { ({ out with scriptRows := out.scriptRows + 1 } : Summary) with prints := out.prints + 1 }
      else { out with scriptRows := out.scriptRows + 1 }) [] [] := by
  split
  · exact .still rfl rfl rfl rfl rfl rfl
  · exact .still rfl rfl rfl rfl rfl rfl

/-- **One row** logs what it collects and the decisions it makes. -/
theorem step_adds (d : Draws) (r : Row) (s : Loop k) :
    Adds cfg s.out (s.step cfg d r).out
      (if r.kind.control then [] else (rowEnd cfg d s.prevTs r s.sim).log.reports.map (r, ·))
      (filling ((decisionsOf cfg d r s).map (r, ·))) := by
  have hadv := @advanceRow_extends _ cfg d s.prevTs r s.sim
  by_cases hcontrol : r.kind.control
  · rw [if_pos hcontrol]
    have hnone : decisionsOf cfg d r s = [] := by
      unfold decisionsOf rowEnd
      rw [if_pos hcontrol, hadv.decisions, List.drop_length]
    rw [hnone]
    unfold Loop.step
    dsimp only
    rcases hcontrol with hhalt | hresume
    · rw [if_pos hhalt]
      exact .still rfl rfl rfl rfl rfl rfl
    · rw [if_neg (by rw [hresume]; decide), if_pos hresume]
      exact .still rfl rfl rfl rfl rfl rfl
  rw [if_neg hcontrol]
  obtain ⟨hhalt, hresume⟩ := not_or.mp hcontrol
  have hseen := @actRow_decisions _ cfg _ hcontrol d s.prevTs s.sim
  unfold decisionsOf rowEnd
  rw [if_neg hcontrol, ← hseen]
  unfold Loop.step
  dsimp only
  rw [if_neg hhalt, if_neg hresume]
  generalize actRow cfg r (advanceRow cfg d s.prevTs r s.sim) = act
  unfold Loop.collect
  dsimp only
  have hstart := @adds_start cfg (r.kind = .trade ∧ ¬ act.halted) _ s.out
  generalize (if r.kind = .trade ∧ ¬ act.halted then
      { ({ s.out with scriptRows := s.out.scriptRows + 1 } : Summary) with
        prints := s.out.prints + 1 }
    else { s.out with scriptRows := s.out.scriptRows + 1 }) = out at hstart
  have hmakers := @adds_makers cfg r (midOf (act.drain cfg)) (act.drain cfg).log.reports out
  have htakers := @adds_takers cfg r (midOf (act.drain cfg))
    ((act.drain cfg).log.decisions.drop act.log.decisions.length)
    ((act.drain cfg).log.reports.foldl (Summary.addMaker r.ts (midOf (act.drain cfg))) out)
  have hall := (hstart.trans hmakers).trans htakers
  rw [List.nil_append, List.append_nil, List.nil_append, List.nil_append] at hall
  split
  · have hprint := hall.trans (@adds_print cfg _ (midOf (act.drain cfg)) r)
    rw [List.append_nil, List.append_nil] at hprint
    exact hprint
  · exact hall

/-! ## A whole script -/

/-- **A run** logs what it collects and the decisions that are made. -/
theorem rows_adds (draws : Nat → Draws) (i : Nat) (rs : List Row) (s : Loop k) :
    Adds cfg s.out (Loop.rows cfg draws i rs s).out (collected cfg draws i rs s)
      (filling (decided cfg draws i rs s)) := by
  induction rs generalizing i s with
  | nil => exact .refl s.out
  | cons r rs ih =>
      have hsplit : filling (decided cfg draws i (r :: rs) s)
          = filling ((decisionsOf cfg (draws i) r s).map (r, ·))
            ++ filling (decided cfg draws (i + 1) rs (s.step cfg (draws i) r)) :=
        List.filter_append _ _
      rw [hsplit]
      exact (step_adds (draws i) r s).trans (ih (i + 1) _)

theorem decided_submitted (draws : Nat → Draws) (i : Nat) (rs : List Row) {s : Loop k}
    (h : s.sim.wheel.empty) : ∀ p ∈ decided cfg draws i rs s,
      (p.1.kind = .stratLimit ∨ p.1.kind = .stratIoc) ∧ p.2.ref = (inbound p.1).ref := by
  induction rs generalizing i s with
  | nil => exact fun p hp => absurd hp List.not_mem_nil
  | cons r rs ih =>
      obtain ⟨hempty, -, ds, hds, hrefs⟩ := @rowEnd_spec _ cfg (draws i) s.prevTs r _ h
      intro p hp
      rcases List.mem_append.mp hp with hp | hp
      · obtain ⟨x, hx, rfl⟩ := List.mem_map.mp hp
        unfold decisionsOf at hx
        rw [hds, List.drop_left] at hx
        exact hrefs x hx
      · refine ih (i + 1) ?_ p hp
        rw [(step_sim (draws i) r s).1]
        exact hempty

/-- Fills with the same log row, where the row is another's. -/
theorem makerOf_eq_iff {p : Row × SimFillReport} {r : Row} :
    makerOf p = makerOf (r, p.2) ↔ p.1.ts = r.ts := by
  constructor
  · exact congrArg EventRecord.tsNs
  · intro h
    unfold makerOf
    rw [h]

/-- **What is collected is what is produced**, fill by fill with its timestamp, exactly if what
waits is collected in time and every fill of a halt or a resume is. -/
theorem collected_iff (draws : Nat → Draws) (i : Nat) (rs : List Row) {s : Loop k}
    (h : s.sim.wheel.empty) {pend : List (Row × SimFillReport)}
    (hpend : s.sim.log.reports = pend.map Prod.snd) :
    (pend ++ produced cfg draws i rs s).map makerOf = (collected cfg draws i rs s).map makerOf
      ↔ (∀ p ∈ pend, (nextCollecting rs).map Row.ts = some p.1.ts) ∧ Timely cfg draws i rs s := by
  induction rs generalizing i s pend with
  | nil =>
      show (pend ++ []).map makerOf = [] ↔ _
      rw [List.append_nil, List.map_eq_nil_iff]
      constructor
      · rintro rfl
        exact ⟨fun p hp => absurd hp List.not_mem_nil, trivial⟩
      · intro hall
        cases pend with
        | nil => rfl
        | cons p pend => exact absurd (hall.1 p List.mem_cons_self) nofun
  | cons r rs ih =>
      obtain ⟨hempty, ⟨fs, hfs⟩, -⟩ := @rowEnd_spec _ cfg (draws i) s.prevTs r _ h
      obtain ⟨hw, -, hr⟩ := @step_sim _ cfg (draws i) r s
      have hnext : (s.step cfg (draws i) r).sim.wheel.empty := by
        rw [hw]
        exact hempty
      have hfills : fillsOf cfg (draws i) r s = fs := by
        unfold fillsOf
        rw [hfs, List.drop_left]
      show (pend ++ ((fillsOf cfg (draws i) r s).map (r, ·) ++ produced cfg draws (i + 1) rs _)).map
        makerOf = _ ↔ _ ∧ ((_ → fillsOf cfg (draws i) r s = [] ∨ _) ∧ _)
      rw [hfills]
      by_cases hcontrol : r.kind.control
      · -- Nothing is collected: the row's fills wait with the others.
        have hskip : nextCollecting (r :: rs) = nextCollecting rs :=
          List.find?_cons_of_neg (by simpa using hcontrol)
        have hnone : collected cfg draws i (r :: rs) s
            = collected cfg draws (i + 1) rs (s.step cfg (draws i) r) := by
          rw [collected, if_pos hcontrol, List.nil_append]
        have hwait : (s.step cfg (draws i) r).sim.log.reports
            = (pend ++ fs.map (r, ·)).map Prod.snd := by
          rw [hr, if_pos hcontrol, hfs, hpend, List.map_append, List.map_map]
          exact congrArg (_ ++ ·) (List.map_id fs).symm
        have hrest := ih (i + 1) hnext hwait
        rw [List.append_assoc] at hrest
        rw [hskip, hnone, hrest]
        constructor
        · rintro ⟨hall, htimely⟩
          refine ⟨fun p hp => hall p (List.mem_append_left _ hp), fun _ => ?_, htimely⟩
          cases fs with
          | nil => exact Or.inl rfl
          | cons f fs =>
              exact Or.inr (hall (r, f) (List.mem_append_right _ List.mem_cons_self))
        · rintro ⟨hall, hmine, htimely⟩
          refine ⟨fun p hp => ?_, htimely⟩
          rcases List.mem_append.mp hp with hp | hp
          · exact hall p hp
          · obtain ⟨f, hf, rfl⟩ := List.mem_map.mp hp
            rcases hmine hcontrol with hempty | hts
            · rw [hempty] at hf
              exact absurd hf List.not_mem_nil
            · exact hts
      · -- Everything that waits is collected with this row's timestamp.
        have hfirst : nextCollecting (r :: rs) = some r :=
          List.find?_cons_of_pos (by simpa using hcontrol)
        have hall : collected cfg draws i (r :: rs) s
            = (pend.map Prod.snd ++ fs).map (r, ·)
              ++ collected cfg draws (i + 1) rs (s.step cfg (draws i) r) := by
          rw [collected, if_neg hcontrol, hfs, hpend]
        have hclear : (s.step cfg (draws i) r).sim.log.reports
            = ([] : List (Row × SimFillReport)).map Prod.snd := by
          rw [hr, if_neg hcontrol]
          rfl
        have hrest := ih (i + 1) hnext hclear
        rw [List.nil_append] at hrest
        have hmine : pend.map makerOf = pend.map (fun p => makerOf (r, p.2))
            ↔ ∀ p ∈ pend, some r.ts = some p.1.ts := by
          rw [List.map_inj_left]
          constructor
          · exact fun heq p hp => congrArg some (makerOf_eq_iff.mp (heq p hp)).symm
          · exact fun heq p hp => makerOf_eq_iff.mpr (Option.some.inj (heq p hp)).symm
        rw [hall, hfirst, Option.map_some, ← hmine]
        simp only [List.map_append, List.map_map, List.append_assoc]
        constructor
        · intro heq
          obtain ⟨hpre, htail⟩ := List.append_inj heq (by rw [List.length_map, List.length_map])
          exact ⟨hpre, fun hc => absurd hc hcontrol,
            (hrest.mp (List.append_cancel_left htail)).2⟩
        · rintro ⟨hpre, -, htimely⟩
          have htail := hrest.mpr ⟨fun p hp => absurd hp List.not_mem_nil, htimely⟩
          rw [hpre, htail]
          rfl

/-- The sums over fills are sums over their log rows. -/
theorem sums_makerOf (l : List (Row × SimFillReport)) :
    (l.map fun p => p.2.priceTicks * (p.2.qty : Int)).sum
        = ((l.map makerOf).map fun e => e.priceTicks * (e.qty : Int)).sum
      ∧ (l.map fun p => p.2.fee).sum = ((l.map makerOf).map EventRecord.feeCash).sum := by
  rw [List.map_map, List.map_map]
  exact ⟨rfl, rfl⟩

/-- A bid that rests, and a halt at time `ts`. -/
def bidAndHalt (ts : Char) : List Char :=
  "kind,ts_ns,side,price_ticks,qty,ref\nstrat_limit,1,B,5,3,1\nhalt,".toList ++ [ts, ',', '\n']

def bidAndHaltRows (ts : Nat) : List Row :=
  [{ kind := .stratLimit, ts := 1, price := 5, qty := 3, ref := 1 }, { kind := .halt, ts }]

/-- Three units of the best bid are depleted whenever time advances. -/
def threeOfBid : Nat → Draws := fun _ => { buy := 3 }

end SimRun

end Mog
