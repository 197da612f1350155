import Mog.Ouch.Gateway
import Mog.Sim.Events

/-!
# Sessions of the gateway

What its clients and its host call while a gateway is attached to a simulator, and what
has been queued for the clients and not yet drained. The gateway keeps a cursor into
each of three logs; two of them belong to the simulator, which may clear them.

A cursor is right when it stands at the number of records that have been drained from its log as
it now is. The gateway's own log only grows; the simulator's two logs may be cleared by the
host, and the cursor into a cleared log then points past its end. The invariant keeps, for each
log, what is still to be emitted, so that a drain is compared with it record by record.
-/

namespace Mog

namespace Ouch

open ExecutionSimulator

/-- A call in a session: a wire message submitted, a call of the simulator, or a drain. -/
inductive GatewayCall where
  | enter (wire : EnterOrderWire) (arrivalTs : Nat)
  | replace (wire : ReplaceOrderWire) (arrivalTs : Nat)
  | cancel (wire : CancelOrderWire)
  | simulator (c : SimCall)
  | drain
  | clearReports
  | clearEvents

/-- What has been queued since the last drain. -/
structure Undrained where
  decisions : List SimDecision := []
  replaced : List ReplacedEvent := []
  reports : List SimFillReport := []

namespace OuchGateway

variable {k : Nat}

/-- A gateway attached to a new simulator. -/
def attach (cfg : SimConfig) (defaultSymbol : Symbol) : OuchGateway k :=
  { sim := ExecutionSimulator.init cfg, defaultSymbol }

/-- The frames a call emits and the gateway it leaves. -/
def call (g : OuchGateway k) (cfg : SimConfig) : GatewayCall → List OutboundFrame × OuchGateway k
  | .enter wire arrivalTs => ([], (g.submitEnter cfg wire arrivalTs).2)
  | .replace wire arrivalTs => ([], (g.submitReplace wire arrivalTs).2)
  | .cancel wire => ([], (g.submitCancel wire).2)
  | .simulator c => ([], { g with sim := g.sim.call cfg c })
  | .drain => g.drainOutboundStream
  | .clearReports => ([], { g with sim := g.sim.clearReports })
  | .clearEvents => ([], { g with sim := g.sim.clearEvents })

/-- What is queued after a call from `g` to `g'`. -/
def queued (q : Undrained) (g g' : OuchGateway k) : GatewayCall → Undrained
  | .drain => {}
  | _ =>
      { decisions := q.decisions ++ g'.sim.log.decisions.drop g.sim.log.decisions.length
        replaced := q.replaced ++ g'.replacedEvents.drop g.replacedEvents.length
        reports := q.reports ++ g'.sim.log.reports.drop g.sim.log.reports.length }

/-- `P` holds of each call of a session, where it is made. -/
def Along (cfg : SimConfig) (P : OuchGateway k → Undrained → GatewayCall → Prop) :
    List GatewayCall → OuchGateway k → Undrained → Prop
  | [], _, _ => True
  | c :: cs, g, q => P g q c ∧ Along cfg P cs (g.call cfg c).2 (queued q g (g.call cfg c).2 c)

/-- The frames of what is queued, each record's one frame, log by log. -/
def frames (g : OuchGateway k) (q : Undrained) : List OutboundFrame :=
  q.decisions.map g.decisionFrame ++ q.replaced.map replacedFrame ++ q.reports.map reportFrame

/-- A drain emits what is queued, and nothing else. -/
def DrainsQueued (cfg : SimConfig) (g : OuchGateway k) (q : Undrained) (c : GatewayCall) : Prop :=
  c = .drain → (g.call cfg c).1 = g.frames q

/-- The simulator's logs are cleared only when everything has been drained. -/
def ClearsDrained (_ : OuchGateway k) (q : Undrained) (c : GatewayCall) : Prop :=
  c = .clearReports ∨ c = .clearEvents → q.decisions = [] ∧ q.replaced = [] ∧ q.reports = []

/-- Where something is queued in one of the simulator's logs, the cursor into that log is not past
the records that have been drained. -/
def CursorsBehind (g : OuchGateway k) (q : Undrained) (c : GatewayCall) : Prop :=
  c = .drain →
    (q.decisions = [] ∨ g.lastDecisionIdx + q.decisions.length ≤ g.sim.log.decisions.length)
      ∧ (q.reports = [] ∨ g.lastReportIdx + q.reports.length ≤ g.sim.log.reports.length)

/-! ## The cursors -/

/-- `log` ends with what is queued, and the cursor has passed what comes before. -/
def Pending {α : Type} (log : List α) (cursor : Nat) (q : List α) : Prop :=
  ∃ drained, log = drained ++ q ∧ drained.length ≤ cursor

/-- A log to which records have been added. -/
theorem Pending.append {α : Type} {log q : List α} {cursor : Nat} (h : Pending log cursor q)
    (l : List α) : Pending (log ++ l) cursor (q ++ (log ++ l).drop log.length) := by
  obtain ⟨drained, hlog, hle⟩ := h
  refine ⟨drained, ?_, hle⟩
  rw [List.drop_left, ← List.append_assoc, ← hlog]

/-- **What a drain leaves out** is what the cursor has wrongly passed. -/
theorem Pending.drop {α : Type} {log q : List α} {cursor : Nat} (h : Pending log cursor q) :
    ∃ n, log.drop cursor = q.drop n ∧ (cursor + q.length ≤ log.length ↔ n = 0) := by
  obtain ⟨drained, rfl, hle⟩ := h
  refine ⟨cursor - drained.length, ?_, ?_⟩
  · rw [List.drop_append, List.drop_eq_nil_of_le hle, List.nil_append]
  · rw [List.length_append]
    omega

/-- After a drain the cursor is at or past the end of the log. -/
theorem pending_drained {α : Type} (log : List α) (cursor : Nat) :
    Pending log (max cursor log.length) [] :=
  ⟨log, (List.append_nil _).symm, Nat.le_max_right _ _⟩

/-- The three logs, their cursors and what is queued. -/
structure Cursors (g : OuchGateway k) (q : Undrained) : Prop where
  decisions : Pending g.sim.log.decisions g.lastDecisionIdx q.decisions
  /-- No one clears the gateway's own log. -/
  replaced : g.replacedEvents.drop g.lastReplacedIdx = q.replaced
    ∧ g.lastReplacedIdx + q.replaced.length = g.replacedEvents.length
  reports : Pending g.sim.log.reports g.lastReportIdx q.reports

variable {cfg : SimConfig} {g : OuchGateway k} {q : Undrained}

/-- A call that adds to the logs and leaves the cursors. -/
theorem Cursors.grown {g' : OuchGateway k} (h : Cursors g q)
    (hlog : g.sim.log.Grows g'.sim.log) (hrep : ∃ l, g'.replacedEvents = g.replacedEvents ++ l)
    (hd : g'.lastDecisionIdx = g.lastDecisionIdx) (hr : g'.lastReplacedIdx = g.lastReplacedIdx)
    (hp : g'.lastReportIdx = g.lastReportIdx) :
    Cursors g'
      { decisions := q.decisions ++ g'.sim.log.decisions.drop g.sim.log.decisions.length
        replaced := q.replaced ++ g'.replacedEvents.drop g.replacedEvents.length
        reports := q.reports ++ g'.sim.log.reports.drop g.sim.log.reports.length } := by
  obtain ⟨os, hos, -⟩ := hlog
  obtain ⟨l, hl⟩ := hrep
  constructor
  · rw [hd, hos.decisions]
    exact h.decisions.append _
  · obtain ⟨hdrop, hlen⟩ := h.replaced
    rw [hr, hl, List.drop_left, List.length_append, List.length_append, ← hdrop]
    refine ⟨?_, ?_⟩
    · rw [List.drop_append_of_le_length (by omega)]
    · rw [hdrop]
      omega
  · rw [hp, hos.reports]
    exact h.reports.append _

/-- The gateway's own log stays as it is. -/
theorem Cursors.replaced_still (h : Cursors g q) :
    g.replacedEvents.drop g.lastReplacedIdx
        = q.replaced ++ g.replacedEvents.drop g.replacedEvents.length
      ∧ g.lastReplacedIdx + (q.replaced ++ g.replacedEvents.drop g.replacedEvents.length).length
        = g.replacedEvents.length := by
  rw [List.drop_length, List.append_nil]
  exact h.replaced

theorem submitReplace_logs (g : OuchGateway k) (wire : ReplaceOrderWire) (arrivalTs : Nat) :
    g.sim.log.Grows (g.submitReplace wire arrivalTs).2.sim.log
      ∧ (∃ l, (g.submitReplace wire arrivalTs).2.replacedEvents = g.replacedEvents ++ l)
      ∧ (g.submitReplace wire arrivalTs).2.lastDecisionIdx = g.lastDecisionIdx
      ∧ (g.submitReplace wire arrivalTs).2.lastReplacedIdx = g.lastReplacedIdx
      ∧ (g.submitReplace wire arrivalTs).2.lastReportIdx = g.lastReportIdx := by
  have hgrows := (replaceStrategy_extends g.sim (idFromToken wire.existingOrderToken)
    (idFromToken wire.replacementOrderToken) wire.shares.toNat wire.price.toNat).log
  unfold submitReplace
  dsimp only
  split
  · exact ⟨hgrows, ⟨[], (List.append_nil _).symm⟩, rfl, rfl, rfl⟩
  · exact ⟨hgrows, ⟨_, rfl⟩, rfl, rfl, rfl⟩

/-- **A call keeps account of what is queued.** -/
theorem Cursors.call (h : Cursors g q) {c : GatewayCall} (hclear : ClearsDrained g q c) :
    Cursors (g.call cfg c).2 (queued q g (g.call cfg c).2 c) := by
  cases c with
  | enter wire ts =>
      exact h.grown (submit_grows g.sim cfg _ ts) ⟨[], (List.append_nil _).symm⟩ rfl rfl rfl
  | replace wire ts =>
      obtain ⟨hlog, hrep, hd, hr, hp⟩ := submitReplace_logs g wire ts
      exact h.grown hlog hrep hd hr hp
  | cancel wire =>
      exact h.grown (cancelStrategy_extends g.sim _).log ⟨[], (List.append_nil _).symm⟩ rfl rfl rfl
  | simulator c =>
      exact h.grown (call_grows g.sim cfg c) ⟨[], (List.append_nil _).symm⟩ rfl rfl rfl
  | drain =>
      refine ⟨pending_drained _ _, ?_, pending_drained _ _⟩
      obtain ⟨_, hlen⟩ := h.replaced
      have hmax : max g.lastReplacedIdx g.replacedEvents.length = g.replacedEvents.length := by omega
      show g.replacedEvents.drop (max _ _) = [] ∧ max _ _ + 0 = _
      rw [hmax, List.drop_length]
      exact ⟨rfl, rfl⟩
  | clearReports =>
      obtain ⟨hd, hr, hp⟩ := hclear (Or.inl rfl)
      refine ⟨?_, ?_, ?_⟩
      · show Pending g.sim.log.decisions _ (q.decisions ++ g.sim.log.decisions.drop _)
        rw [List.drop_length, List.append_nil]
        exact h.decisions
      · exact h.replaced_still
      · show Pending [] _ (q.reports ++ List.drop _ [])
        rw [List.drop_nil, hp]
        exact ⟨[], rfl, Nat.zero_le _⟩
  | clearEvents =>
      obtain ⟨hd, hr, hp⟩ := hclear (Or.inr rfl)
      refine ⟨?_, ?_, ?_⟩
      · show Pending [] _ (q.decisions ++ List.drop _ [])
        rw [List.drop_nil, hd]
        exact ⟨[], rfl, Nat.zero_le _⟩
      · exact h.replaced_still
      · show Pending [] _ (q.reports ++ List.drop _ [])
        rw [List.drop_nil, hp]
        exact ⟨[], rfl, Nat.zero_le _⟩

/-- Dropping nothing is dropping from nothing, or dropping no record. -/
theorem length_drop_eq_iff {α : Type} (l : List α) (n : Nat) :
    (l.drop n).length = l.length ↔ l = [] ∨ n = 0 := by
  rw [List.length_drop, ← List.length_eq_zero_iff]
  omega

/-- **A drain emits what is queued** exactly when no cursor is past it. -/
theorem Cursors.drains (h : Cursors g q) (c : GatewayCall) :
    DrainsQueued cfg g q c ↔ CursorsBehind g q c := by
  refine forall_congr' fun hc => ?_
  obtain ⟨n, hn, hniff⟩ := h.decisions.drop
  obtain ⟨m, hm, hmiff⟩ := h.reports.drop
  have hout : (g.call cfg c).1 = (q.decisions.drop n).map g.decisionFrame
      ++ q.replaced.map replacedFrame ++ (q.reports.drop m).map reportFrame := by
    rw [hc, ← hn, ← hm, ← h.replaced.1]
    rfl
  rw [hout, hniff, hmiff, frames]
  constructor
  · intro heq
    have hlen := congrArg List.length heq
    simp only [List.length_append, List.length_map] at hlen
    rw [← length_drop_eq_iff, ← length_drop_eq_iff]
    rw [List.length_drop, List.length_drop] at hlen ⊢
    omega
  · rintro ⟨hd, hr⟩
    have hd' : q.decisions.drop n = q.decisions := by
      rcases hd with hd | hd
      · rw [hd, List.drop_nil]
      · rw [hd, List.drop_zero]
    have hr' : q.reports.drop m = q.reports := by
      rcases hr with hr | hr
      · rw [hr, List.drop_nil]
      · rw [hr, List.drop_zero]
    rw [hd', hr']

theorem Cursors.drains_along (h : Cursors g q) {cs : List GatewayCall}
    (hclear : Along cfg ClearsDrained cs g q) :
    Along cfg (DrainsQueued cfg) cs g q ↔ Along cfg CursorsBehind cs g q := by
  induction cs generalizing g q with
  | nil => exact Iff.rfl
  | cons c cs ih => exact and_congr (h.drains c) (ih (h.call hclear.1) hclear.2)

/-- Nothing has been queued in a new session. -/
theorem attach_cursors (cfg : SimConfig) (symbol : Symbol) :
    Cursors (attach cfg symbol : OuchGateway k) {} where
  decisions := ⟨[], rfl, Nat.le_refl _⟩
  replaced := ⟨rfl, rfl⟩
  reports := ⟨[], rfl, Nat.le_refl _⟩

/--
**When the drains lose and repeat nothing.**

In every session whose host clears the simulator's logs only when everything has been
drained, each drain emits one frame for each record queued since the drain before it,
log by log and in order, exactly when at each drain that finds something queued in the
decision log or the report log the cursor into that log is not past what has been
drained.
-/
theorem drains_exact_iff (cfg : SimConfig) (symbol : Symbol) (cs : List GatewayCall)
    (hclear : Along cfg ClearsDrained cs (attach cfg symbol : OuchGateway k) {}) :
    Along cfg (DrainsQueued cfg) cs (attach cfg symbol : OuchGateway k) {}
      ↔ Along cfg CursorsBehind cs (attach cfg symbol : OuchGateway k) {} :=
  (attach_cursors cfg symbol).drains_along hclear

/-- A bid of five at 3. -/
def enterBid (id : Nat) : EnterOrderWire :=
  { orderToken := tokenFromId id, buySell := 66, shares := 5, stock := .replicate 8 32, price := 3
    timeInForce := 0 }

/-- Two bids entered, decided and drained one after the other, with a call of the host between. -/
def twoEnters (between : GatewayCall) : List GatewayCall :=
  [.enter (enterBid 100) 0, .simulator .decideNext, .drain, between, .enter (enterBid 101) 1,
    .simulator .decideNext, .drain]

/-- The host clears when everything has been drained. -/
theorem twoEnters_cleared (between : GatewayCall) :
    Along deskConfig ClearsDrained (twoEnters between)
      (attach deskConfig (.replicate 8 32) : OuchGateway 4) {} := by
  refine ⟨?_, ?_, ?_, fun _ => ⟨rfl, rfl, rfl⟩, ?_, ?_, ?_, trivial⟩ <;>
    exact fun hc => hc.elim nofun nofun

/-- Clearing the reports, of which there are none, loses nothing. -/
theorem drains_exact_iff_reports :
    Along deskConfig (DrainsQueued deskConfig) (twoEnters .clearReports)
      (attach deskConfig (.replicate 8 32) : OuchGateway 4) {} := by
  refine (drains_exact_iff deskConfig _ _ (twoEnters_cleared _)).mpr ?_
  exact ⟨nofun, nofun, fun _ => ⟨Or.inr (by decide +kernel), Or.inl (by decide +kernel)⟩, nofun,
    nofun, nofun, fun _ => ⟨Or.inr (by decide +kernel), Or.inl (by decide +kernel)⟩, trivial⟩

/-- **A cleared log hides what comes next.** The cursor stays at 1 when the drained decision is
cleared away, and the next decision, now the first of its log, is never reported. -/
theorem clear_loses_decision :
    Along deskConfig ClearsDrained (twoEnters .clearEvents)
        (attach deskConfig (.replicate 8 32) : OuchGateway 4) {}
      ∧ ¬ Along deskConfig (DrainsQueued deskConfig) (twoEnters .clearEvents)
        (attach deskConfig (.replicate 8 32) : OuchGateway 4) {} := by
  refine ⟨twoEnters_cleared _, fun h => ?_⟩
  have hlen := congrArg List.length (h.2.2.2.2.2.2.1 rfl)
  revert hlen
  decide +kernel

end OuchGateway

end Ouch

end Mog
