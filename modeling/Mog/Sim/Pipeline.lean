import Mog.Event.Heap
import Mog.Sim.Events

/-!
# The latency pipeline

A strategy order is not decided when it is submitted: it waits in the scheduler until
its decision is due, and what comes of it is seen on the wire later still. Between the
two the host may do anything: seed liquidity, inject executions, cancel, halt.

`Pipeline` says what all this comes to, by itself: a stable queue of the orders accepted,
and the list of those decided. The simulator follows it through every run of calls.
-/

namespace Mog

open TicketQueue ExecutionSimulator

/-- What a host calls. Only `run_until` and `drain` decide anything. -/
inductive HostCall where
  | call (c : SimCall) (hc : c ≠ .decideNext)
  | runUntil (untilTs : Nat)
  | drain

structure Pipeline where
  queue : Queue SimEvent
  /-- When the orders accepted arrived. -/
  arrivals : List Nat := []
  entered : List (Event SimEvent) := []
  decided : List (Event SimEvent) := []

namespace Pipeline

def empty (cfg : SimConfig) : Pipeline := { queue := { capacity := cfg.eventCapacity } }

variable (p : Pipeline)

/-- An order is accepted while there is room for it. -/
def accept (arrivalTs ts : Nat) (order : SimInbound) : Pipeline :=
  let value : SimEvent := { visibleTs := ts, order }
  if p.queue.pending.length < p.queue.capacity then
    { p with
      queue := p.queue.push ts value
      arrivals := p.arrivals ++ [arrivalTs]
      entered := p.entered ++ [{ ts, seq := p.queue.nextSeq, ticket := p.queue.issued, value }] }
  else { p with queue := p.queue.push ts value }

/-- A pass of `run_until`: the order that is due first is decided. -/
def decideNext : Pipeline :=
  match least p.queue.pending with
  | none => p
  | some e => { p with queue := p.queue.remove e.ticket, decided := p.decided ++ [e] }

/-- All that is due is decided, in the order of its time and then of its submission. -/
def decideDue (untilTs : Nat) : Pipeline :=
  { p with queue := p.queue.later untilTs, decided := p.decided ++ p.queue.due untilTs }

end Pipeline

namespace ExecutionSimulator

variable {k : Nat} (sim : ExecutionSimulator k) (cfg : SimConfig)

def pendingDecisions : Nat := sim.wheel.size

def host : HostCall → ExecutionSimulator k
  | .call c _ => sim.call cfg c
  | .runUntil untilTs => sim.runUntil cfg untilTs
  | .drain => sim.drain cfg

/-- What the pipeline does on a call. It is told the time a submission returns. -/
def pipe (p : Pipeline) : HostCall → Pipeline
  | .call (.submit order arrivalTs) _ =>
      p.accept arrivalTs (sim.submit cfg order arrivalTs).1 order
  | .call _ _ => p
  | .runUntil untilTs => p.decideDue untilTs
  | .drain => p.decideDue (2 ^ 64 - 1)

/-- The simulator and the pipeline after the same calls. -/
def hosted (calls : List HostCall) : ExecutionSimulator k × Pipeline :=
  calls.foldl (fun r c => (r.1.host cfg c, r.1.pipe cfg r.2 c)) (init cfg, .empty cfg)

/-! ## What a decision says -/

variable {sim cfg} {sim' : ExecutionSimulator k}

/-- From `sim` to `sim'` one decision has been queued, about `ref` and to be seen at `vis`. -/
def Announces (sim sim' : ExecutionSimulator k) (ref vis : Nat) : Prop :=
  ∃ d, sim'.log.decisions = sim.log.decisions ++ [d] ∧ d.ref = ref ∧ d.visibleTs = vis

theorem Extends.announces {mid : ExecutionSimulator k} {ref vis : Nat} (h : Extends sim mid)
    (h' : Announces mid sim' ref vis) : Announces sim sim' ref vis := by
  obtain ⟨d, hd, hrest⟩ := h'
  rw [h.decisions] at hd
  exact ⟨d, hd, hrest⟩

theorem pushDecision_announces (sim : ExecutionSimulator k) (d : SimDecision) (vis : Nat)
    (order : SimInbound) : Announces sim (sim.pushDecision d vis order) order.ref vis :=
  ⟨_, rfl, rfl, rfl⟩

theorem finish_announces (sim : ExecutionSimulator k) (order : SimInbound) (remaining : Int)
    (out : SimDecision) (vis : Nat) :
    Announces sim (sim.finish order remaining out vis) order.ref vis := by
  unfold finish
  dsimp only
  repeat' split
  all_goals exact ⟨_, rfl, rfl, rfl⟩

theorem sweep_announces (sim : ExecutionSimulator k) (order : SimInbound) (decisionTs vis : Nat) :
    Announces sim (sim.sweep cfg order decisionTs vis) order.ref vis := by
  have hcross := cross_extends sim cfg order order.qty
  have hcount : Extends sim ((sim.cross cfg order order.qty).sim.counted order
      (sim.cross cfg order order.qty).filled) :=
    ⟨hcross.log.trans (FillLog.grows_of_same rfl rfl rfl (Nat.le_refl _)), hcross.wheel,
      hcross.decisions⟩
  rw [sweep_eq]
  split
  · exact hcount.announces (pushDecision_announces _ _ _ _)
  · exact hcount.announces (finish_announces _ _ _ _ _)

theorem decideResolved_announces (sim : ExecutionSimulator k) (order : SimInbound)
    (decisionTs : Nat) : Announces sim (sim.decideResolved cfg order decisionTs) order.ref
      ((decisionTs + cfg.wireLatencyNs + cfg.jitter sim.log.drawn) % 2 ^ 64) := by
  have hdraw : Extends sim { sim with log := (sim.log.drawJitter cfg).2 } :=
    ⟨FillLog.grows_drawJitter _ cfg, rfl, rfl⟩
  refine hdraw.announces ?_
  unfold decideResolved
  dsimp only
  split
  · exact pushDecision_announces _ _ _ _
  split
  · exact pushDecision_announces _ _ _ _
  split
  · exact sweep_announces _ _ _ _
  · exact finish_announces _ _ _ _ _

/-- **A decision is announced** under the order's reference, one latency after it was made. -/
theorem decide_announces (cfg : SimConfig) (sim : ExecutionSimulator k) (order : SimInbound)
    (decisionTs : Nat) : Announces sim (sim.decide cfg order decisionTs) order.ref
      ((decisionTs + cfg.wireLatencyNs + cfg.jitter sim.log.drawn) % 2 ^ 64) := by
  obtain ⟨href, _⟩ := resolvePeg_ref order
  have hopen : Extends sim (sim.withLog (fun l => { l with nowHint := decisionTs })).repegHidden :=
    ⟨FillLog.grows_of_same rfl rfl rfl (Nat.le_refl _), rfl, rfl⟩
  refine hopen.announces ?_
  have hdrawn : sim.log.drawn
      = (sim.withLog (fun l => { l with nowHint := decisionTs })).repegHidden.log.drawn := rfl
  rw [← href, hdrawn]
  unfold decide
  dsimp only
  generalize (sim.withLog (fun l => { l with nowHint := decisionTs })).repegHidden = sim'
  split
  · split
    · exact ⟨_, rfl, rfl, rfl⟩
    · exact decideResolved_announces _ _ _
  · exact decideResolved_announces _ _ _

/-! ## The scheduler stands for the queue -/

/-- A heap that is narrow whatever it holds. -/
abbrev NarrowHeap (w : Scheduler SimEvent) : Prop := w.HeapInv ∧ w.capacity ≤ 2 ^ 31

/-- The scheduler holds the pending events of `q`. -/
def Holding (w : Scheduler SimEvent) (q : Queue SimEvent) : Prop :=
  ∃ H, Represents NarrowHeap Scheduler.table q.capacity w H q

variable {w : Scheduler SimEvent} {q : Queue SimEvent}

theorem Holding.size (h : Holding w q) : w.heapSize = q.pending.length := by
  obtain ⟨H, hR⟩ := h
  exact hR.tickets.size.symm

theorem Holding.distinct (h : Holding w q) : q.Distinct := by
  obtain ⟨H, hR⟩ := h
  exact ⟨hR.tickets.nodup, hR.tickets.seq_inj⟩

theorem Holding.push (h : Holding w q) (ts : Nat) (v : SimEvent) :
    Holding (w.push ts v).2 (q.push ts v) := by
  obtain ⟨H, hR⟩ := h
  obtain ⟨l, hl⟩ := hR.tickets.free
  obtain ⟨_, htable, hinv⟩ :=
    Scheduler.slotEngine_of_capacity.push w l ts v hR.inv hl trivial
  have hcap : (q.push ts v).capacity = q.capacity := by
    unfold Queue.push
    split <;> rfl
  have htable' : (w.push ts v).2.table = (w.table.push ts v).2 := htable
  refine ⟨H ++ [(w.table.push ts v).1], hinv, ?_, ?_⟩
  · rw [htable', SlotTable.push_capacity, hcap]
    exact hR.cap
  · rw [htable']
    exact hR.tickets.push ts v

/-- What the scheduler pops is the least event of the queue. -/
theorem Holding.pop (h : Holding w q) (hne : ¬ w.empty) :
    ∃ e, least q.pending = some e ∧ e ∈ q.pending ∧ e.ts = w.peekMinTs ∧ e.value = w.popMin.1
      ∧ Holding w.popMin.2 (q.remove e.ticket) := by
  obtain ⟨H, hR⟩ := h
  have hpos : 0 < w.heapSize := Nat.pos_of_ne_zero hne
  obtain ⟨l, hl⟩ := hR.tickets.free
  have hnarrow : w.heapSize ≤ 2 ^ 31 := Nat.le_trans hl.size_le hR.inv.2
  obtain ⟨_, hback, hleast⟩ := Scheduler.root_least hR.inv.1 hpos
  obtain ⟨hval, htable, hinv⟩ := Scheduler.popMin_spec hR.inv.1 hpos hnarrow
  obtain ⟨e, he, hts, hv, hmem, hslot⟩ := hR.tickets.least hleast
  have hcap : w.popMin.2.capacity = w.capacity := congrArg SlotTable.capacity htable
  refine ⟨e, he, hmem, ?_, hv.trans hval.symm, H, ⟨hinv, hcap ▸ hR.inv.2⟩, ?_, ?_⟩
  · rw [hts]
    show (w.heap (w.slots (w.heap 0).slot).heapPos).ts = (w.heap 0).ts
    rw [hback]
  · rw [htable]
    exact hR.cap
  · rw [htable]
    exact hR.tickets.release hmem hslot

theorem Holding.least_none (h : Holding w q) (he : w.empty) : least q.pending = none := by
  have hlen := h.size
  rw [show w.heapSize = 0 from he] at hlen
  rw [List.eq_nil_of_length_eq_zero hlen.symm]
  rfl

/-! ## The simulator follows the pipeline -/

/-- An order that arrived at `arrivalTs` is due once it is parsed and thought about. -/
def Scheduled (cfg : SimConfig) (arrivalTs : Nat) (e : Event SimEvent) : Prop :=
  ∃ n, e.ts = (arrivalTs + cfg.parseLatencyNs + cfg.decisionLatencyNs + cfg.jitter n) % 2 ^ 64

/-- The decision `d` is the answer to `e`. -/
def Answered (cfg : SimConfig) (e : Event SimEvent) (d : SimDecision) : Prop :=
  d.ref = e.value.order.ref
    ∧ ∃ n, d.visibleTs = (e.ts + cfg.wireLatencyNs + cfg.jitter n) % 2 ^ 64

structure Follows (cfg : SimConfig) (sim : ExecutionSimulator k) (p : Pipeline) : Prop where
  capacity : p.queue.capacity = cfg.eventCapacity
  holding : Holding sim.wheel p.queue
  stamped : ∀ e ∈ p.queue.pending, e.value.visibleTs = e.ts
  answered : List.Forall₂ (Answered cfg) p.decided sim.log.decisions
  conserved : (p.decided ++ p.queue.pending).Perm p.entered
  numbered : p.entered.map Event.seq = List.range p.queue.nextSeq
  scheduled : List.Forall₂ (Scheduled cfg) p.arrivals p.entered

variable {p : Pipeline}

/-- A call that neither decides anything nor touches the scheduler. -/
theorem Follows.still (h : Follows cfg sim p) (hwheel : sim'.wheel = sim.wheel)
    (hdec : sim'.log.decisions = sim.log.decisions) : Follows cfg sim' p :=
  { h with
    holding := by rw [hwheel]; exact h.holding
    answered := by rw [hdec]; exact h.answered }

theorem Follows.submit (h : Follows cfg sim p) (order : SimInbound) (arrivalTs : Nat) :
    Follows cfg (sim.submit cfg order arrivalTs).2
      (p.accept arrivalTs (sim.submit cfg order arrivalTs).1 order) := by
  have hhold := h.holding.push (sim.submit cfg order arrivalTs).1
    { visibleTs := (sim.submit cfg order arrivalTs).1, order }
  unfold Pipeline.accept
  by_cases hroom : p.queue.pending.length < p.queue.capacity
  · rw [if_pos hroom]
    rw [Queue.push_room hroom] at hhold ⊢
    refine ⟨h.capacity, hhold, fun e he => ?_, h.answered, ?_, ?_, ?_⟩
    · rcases List.mem_append.mp he with he | he
      · exact h.stamped e he
      · rw [List.mem_singleton.mp he]
    · show (p.decided ++ (p.queue.pending ++ _)).Perm _
      rw [← List.append_assoc]
      exact h.conserved.append_right _
    · rw [List.map_append, h.numbered]
      exact List.range_succ.symm
    · exact List.rel_append h.scheduled (.cons ⟨sim.log.drawn, rfl⟩ .nil)
  · rw [if_neg hroom]
    rw [Queue.push_full hroom] at hhold ⊢
    exact ⟨h.capacity, hhold, h.stamped, h.answered, h.conserved, h.numbered, h.scheduled⟩

theorem Follows.decideNext (h : Follows cfg sim p) :
    Follows cfg (sim.decideNext cfg) p.decideNext := by
  unfold Pipeline.decideNext ExecutionSimulator.decideNext
  by_cases hempty : sim.wheel.empty
  · rw [if_pos hempty, h.holding.least_none hempty]
    exact h
  · obtain ⟨e, he, hmem, _, hval, hpop⟩ := h.holding.pop hempty
    rw [if_neg hempty, he]
    have hwheel := (decide_answers { sim with wheel := sim.wheel.popMin.2 } cfg
      sim.wheel.popMin.1.order sim.wheel.popMin.1.visibleTs).wheel
    obtain ⟨d, hd, href, hvis⟩ := decide_announces cfg
      { sim with wheel := sim.wheel.popMin.2 } sim.wheel.popMin.1.order sim.wheel.popMin.1.visibleTs
    rw [← hval] at href hvis
    rw [h.stamped e hmem] at hvis
    refine ⟨h.capacity, ?_, fun x hx => ?_, ?_, ?_, h.numbered, h.scheduled⟩
    · rw [hwheel]
      exact hpop
    · exact h.stamped x (Queue.mem_remove.mp hx).1
    · rw [hd]
      exact List.rel_append h.answered (.cons ⟨href, _, hvis⟩ .nil)
    · have hperm := h.holding.distinct.remove_perm hmem
      rw [List.append_assoc]
      exact (hperm.append_left p.decided).trans h.conserved

/-- A pass of `run_until` takes one of the events that are due. -/
theorem Follows.decideDue_cons (h : Follows cfg sim p) {untilTs : Nat} (hdue : sim.Due untilTs) :
    p.decideDue untilTs = p.decideNext.decideDue untilTs := by
  obtain ⟨hne, hle⟩ := hdue
  obtain ⟨e, he, _, hts, _⟩ := h.holding.pop hne
  rw [← hts] at hle
  obtain ⟨hcons, hlater⟩ := h.holding.distinct.due_cons he hle
  unfold Pipeline.decideDue Pipeline.decideNext
  rw [he]
  dsimp only
  rw [hcons, hlater, List.append_assoc]
  rfl

theorem Follows.decideDue_nil (h : Follows cfg sim p) {untilTs : Nat} (hdue : ¬ sim.Due untilTs) :
    p.decideDue untilTs = p := by
  have hnone : ∀ e ∈ p.queue.pending, untilTs < e.ts := by
    intro e he
    have hne : ¬ sim.wheel.empty := by
      have hlen := h.holding.size
      have hpos := List.length_pos_of_mem he
      unfold Scheduler.empty
      omega
    obtain ⟨m, hm, _, hts, _⟩ := h.holding.pop hne
    obtain ⟨m', hm', _, hmin⟩ := least_spec (List.ne_nil_of_mem he)
    rw [hm, Option.some_inj] at hm'
    subst hm'
    have hlt : untilTs < m.ts := by
      rw [hts]
      exact Nat.not_le.mp fun hc => hdue ⟨hne, hc⟩
    have hnot := hmin e he
    unfold Event.Before at hnot
    omega
  obtain ⟨hnil, hlater⟩ := Queue.due_nil hnone
  unfold Pipeline.decideDue
  rw [hnil, hlater, List.append_nil]

/-- **`run_until` decides what is due**, by induction on what is pending. -/
theorem Follows.runUntil (h : Follows cfg sim p) (untilTs : Nat) :
    Follows cfg (sim.runUntil cfg untilTs) (p.decideDue untilTs) := by
  generalize hn : p.queue.pending.length = n
  induction n generalizing sim p with
  | zero =>
      have hdue : ¬ sim.Due untilTs := fun hc => hc.1 (h.holding.size.trans hn)
      rw [runUntil_idle sim cfg hdue, h.decideDue_nil hdue]
      exact h
  | succ n ih =>
      by_cases hdue : sim.Due untilTs
      · obtain ⟨e, he, hmem, _⟩ := h.holding.pop hdue.1
        rw [runUntil_due sim cfg hdue, h.decideDue_cons hdue]
        refine ih h.decideNext ?_
        have hlen := Queue.length_remove h.holding.distinct.tickets hmem
        unfold Pipeline.decideNext
        rw [he]
        dsimp only
        omega
      · rw [runUntil_idle sim cfg hdue, h.decideDue_nil hdue]
        exact h

theorem Follows.call (h : Follows cfg sim p) {c : SimCall} (hc : c ≠ .decideNext) :
    Follows cfg (sim.call cfg c) (sim.pipe cfg p (.call c hc)) := by
  cases c with
  | submit order arrivalTs => exact h.submit order arrivalTs
  | decideNext => exact absurd rfl hc
  | seedExternal ref s qty price => exact h.still rfl rfl
  | seedIceberg spec =>
      show Follows cfg (sim.seedIceberg spec).2 p
      unfold seedIceberg
      dsimp only
      split <;> exact h.still rfl rfl
  | applyExternal s price qty =>
      have he := applyExternal_extends sim cfg s price qty
      exact h.still he.wheel he.decisions
  | advanceTime dtNs drawnBuy drawnSell scaled =>
      have he := advanceTime_extends sim cfg dtNs drawnBuy drawnSell scaled
      exact h.still he.wheel he.decisions
  | cancelStrategy ref =>
      have he := cancelStrategy_extends sim ref
      exact h.still he.wheel he.decisions
  | replaceStrategy orig fresh qty price =>
      have he := replaceStrategy_extends sim orig fresh qty price
      exact h.still he.wheel he.decisions
  | setHalted b => exact h.still rfl rfl
  | setStpMode m => exact h.still rfl rfl

theorem Follows.next (h : Follows cfg sim p) (c : SimCall) : ∃ p', Follows cfg (sim.call cfg c) p' := by
  by_cases hc : c = .decideNext
  · rw [hc]
    exact ⟨_, h.decideNext⟩
  · exact ⟨_, h.call hc⟩

theorem Follows.host (h : Follows cfg sim p) (c : HostCall) :
    Follows cfg (sim.host cfg c) (sim.pipe cfg p c) := by
  cases c with
  | call c hc => exact h.call hc
  | runUntil untilTs => exact h.runUntil untilTs
  | drain => exact h.runUntil _

theorem Follows.start (hpos : 0 < cfg.eventCapacity) (hcap : cfg.eventCapacity ≤ 2 ^ 31) :
    Follows cfg (init cfg : ExecutionSimulator k) (.empty cfg) := by
  have hinit := Scheduler.init_represents (α := SimEvent) hpos (by unfold kNullIndex; omega)
  exact ⟨rfl, ⟨[], ⟨hinit.inv, hcap⟩, hinit.cap, hinit.tickets⟩,
    fun _ he => absurd he List.not_mem_nil, .nil, .nil, rfl, .nil⟩

theorem hosted_follows (hpos : 0 < cfg.eventCapacity) (hcap : cfg.eventCapacity ≤ 2 ^ 31)
    (calls : List HostCall) :
    Follows cfg (hosted cfg calls : ExecutionSimulator k × Pipeline).1
      (hosted cfg calls : ExecutionSimulator k × Pipeline).2 := by
  have hfold : ∀ (l : List HostCall) (r : ExecutionSimulator k × Pipeline), Follows cfg r.1 r.2 →
      Follows cfg (l.foldl (fun r c => (r.1.host cfg c, r.1.pipe cfg r.2 c)) r).1
        (l.foldl (fun r c => (r.1.host cfg c, r.1.pipe cfg r.2 c)) r).2 := by
    intro l
    induction l with
    | nil => exact fun _ h => h
    | cons c l ih => exact fun r h => ih _ (h.host c)
  exact hfold calls _ (.start hpos hcap)

/-- What the pipeline `p` says of a simulator that has followed it. -/
structure Timely (cfg : SimConfig) (sim : ExecutionSimulator k) (p : Pipeline) : Prop where
  /-- `pending_decisions` counts the orders that wait. -/
  pending : sim.pendingDecisions = p.queue.pending.length
  /-- The decisions are the answers to the orders decided, in their order. -/
  answered : List.Forall₂ (Answered cfg) p.decided sim.log.decisions
  /-- An order accepted is decided once or waits. -/
  conserved : (p.decided ++ p.queue.pending).Perm p.entered
  distinct : (p.entered.map Event.seq).Nodup
  scheduled : List.Forall₂ (Scheduled cfg) p.arrivals p.entered
  /-- What `run_until` decides now, it decides by time and then by submission. -/
  sorted : ∀ untilTs, (p.queue.due untilTs).Pairwise Event.Before
  drained : (p.queue.later (2 ^ 64 - 1)).pending = []

theorem Follows.timely (h : Follows cfg sim p) : Timely cfg sim p where
  pending := h.holding.size
  answered := h.answered
  conserved := h.conserved
  distinct := by
    rw [h.numbered]
    exact List.nodup_range
  scheduled := h.scheduled
  sorted := h.holding.distinct.due_pairwise
  drained := by
    refine List.eq_nil_iff_forall_not_mem.mpr fun e he => ?_
    obtain ⟨hmem, hlt⟩ := Queue.mem_later.mp he
    have hentered : e ∈ p.entered := h.conserved.subset (List.mem_append_right _ hmem)
    obtain ⟨i, hi, rfl⟩ := List.getElem_of_mem hentered
    have hlen := h.scheduled.length_eq
    obtain ⟨n, hn⟩ := h.scheduled.get (by omega) hi
    rw [List.get_eq_getElem, List.get_eq_getElem] at hn
    have hbound : p.entered[i].ts < 2 ^ 64 := by
      rw [hn]
      exact Nat.mod_lt _ (Nat.two_pow_pos 64)
    omega

/--
**The latency pipeline.**

With room for at most 2^31 decisions, which the heap can order, the simulator has decided
after every run of calls what the pipeline has: no accepted order is lost or decided
twice, none is decided before it is due, and those that are due together are decided by
time and then in the order of their submission, whatever the host does between. A
decision bears its order's reference and is seen one wire latency, with its jitter, after
it was made.
-/
theorem pipeline_timely (hpos : 0 < cfg.eventCapacity) (hcap : cfg.eventCapacity ≤ 2 ^ 31)
    (calls : List HostCall) :
    Timely cfg (hosted cfg calls : ExecutionSimulator k × Pipeline).1
      (hosted cfg calls : ExecutionSimulator k × Pipeline).2 :=
  (hosted_follows hpos hcap calls).timely

/-- A small order. -/
def submitted (ref arrivalTs : Nat) : HostCall :=
  .call (.submit { ref, qty := 3, price := 7 } arrivalTs) SimCall.noConfusion

/-- Two orders of which the later is due first, and a third for which there is no room. -/
theorem pipeline_timely_crossing :
    let cfg : SimConfig :=
      { book := ⟨8194, ⟨0, 4097, 3⟩⟩, parseLatencyNs := 5, jitter := fun n => 10 - n,
        eventCapacity := 2 }
    let r : ExecutionSimulator 3 × Pipeline := hosted cfg
      [submitted 1 100, submitted 2 90, submitted 3 80, .runUntil 110, .drain]
    Timely cfg r.1 r.2 :=
  pipeline_timely (by decide) (by decide) _

end ExecutionSimulator

end Mog
