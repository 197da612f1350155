import Mog.Sim.Calls

/-!
# What a sweep executes

A sweep counts exactly what it executes: its counters are sums over the executions it
has logged, each against the opposite side and within the order's bound. Nothing else
in a decision executes anything.

The executions are a log of their own that the program does not keep: each quantity, price and
reference is written there where a fill or a tap happens. The counters of a sweep are compared
with sums over what it has added to that log, modulo the width of the counters.
-/

namespace Mog

open QueueSum TrackTable

/-- The quantity of a list of executions. -/
def executedQty (es : List Execution) : Int := (es.map Execution.qty).sum

/-- Their notional, before it is cut to 64 bits. -/
def executedNotional (es : List Execution) : Nat :=
  (es.map (fun e => notionalOf e.price e.qty)).sum

theorem executedQty_append (l l' : List Execution) :
    executedQty (l ++ l') = executedQty l + executedQty l' := by
  rw [executedQty, List.map_append, List.sum_append]
  rfl

theorem executedNotional_append (l l' : List Execution) :
    executedNotional (l ++ l') = executedNotional l + executedNotional l' := by
  rw [executedNotional, List.map_append, List.sum_append]
  rfl

theorem executedQty_single (e : Execution) : executedQty [e] = e.qty := by
  rw [executedQty, List.map_singleton, List.sum_singleton]

theorem executedNotional_single (e : Execution) :
    executedNotional [e] = notionalOf e.price e.qty := by
  rw [executedNotional, List.map_singleton, List.sum_singleton]

namespace ExecutionSimulator

variable {k : Nat} {cfg : SimConfig} {sim sim' : ExecutionSimulator k} {order : SimInbound}

/-! ## The modes do not change -/

/-- Showing a slice changes the book and the registry only. -/
theorem Shown.fields {mid : ExecutionSimulator k} {ref : Nat} (h : Shown mid sim' ref) :
    sim'.hidden = mid.hidden ∧ sim'.log = mid.log ∧ SameEnv mid sim' := by
  rcases h with ⟨heq, _⟩ | ⟨_, _, _, _, hrep⟩
  · rw [heq]
    exact ⟨rfl, rfl, .refl _⟩
  · exact ⟨hrep.hidden, hrep.log, hrep.env⟩

/-- Halting and self-trade prevention are set from outside only. -/
theorem Exchange.modes (h : Exchange cfg sim sim') :
    sim'.halted = sim.halted ∧ sim'.stp = sim.stp := by
  cases h with
  | idle h => exact ⟨h.halted, h.stp⟩
  | repeg h => rw [h]; exact ⟨rfl, rfl⟩
  | fill i take mid hf hs =>
      obtain ⟨_, _, henv⟩ := Shown.fields hs
      exact ⟨henv.halted.trans hf.env.halted, henv.stp.trans hf.env.stp⟩
  | withdraw i _ h => exact ⟨h.env.halted, h.env.stp⟩
  | tap t e kept l h => rw [h.after]; exact ⟨rfl, rfl⟩

theorem Exchanges.modes (h : Exchanges cfg sim sim') :
    sim'.halted = sim.halted ∧ sim'.stp = sim.stp := by
  induction h with
  | refl => exact ⟨rfl, rfl⟩
  | tail _ hb ih => exact ⟨hb.1.modes.1.trans ih.1, hb.1.modes.2.trans ih.2⟩

/-- Decisions are made by `decide` only. -/
theorem Exchange.decisions (h : Exchange cfg sim sim') :
    sim'.log.decisions = sim.log.decisions := by
  cases h with
  | idle h => exact h.log.decisions
  | repeg h => rw [h]; rfl
  | fill i take mid hf hs =>
      rw [(Shown.fields hs).2.1, hf.log, FillLog.displayedFill_decisions]
  | withdraw i _ h => rw [h.log]
  | tap t e kept l h =>
      rw [h.after]
      show t.log.decisions = _
      rw [h.log]

theorem Exchanges.decisions (h : Exchanges cfg sim sim') :
    sim'.log.decisions = sim.log.decisions := by
  induction h with
  | refl => rfl
  | tail _ hb ih => exact hb.1.decisions.trans ih

theorem DecideCase.modes {ts : Nat} (hd : DecideCase cfg sim order ts sim') (h : SimInv cfg sim) :
    sim'.halted = sim.halted ∧ sim'.stp = sim.stp := by
  obtain ⟨mid, ht, _, hcase⟩ := hd.market h
  obtain ⟨h1, h2⟩ := ht.modes
  have hsame : ∀ {a : ExecutionSimulator k}, MarketSame a sim' → a.halted = mid.halted →
      a.stp = mid.stp → sim'.halted = sim.halted ∧ sim'.stp = sim.stp := fun hs g1 g2 =>
    ⟨hs.halted.trans (g1.trans h1), hs.stp.trans (g2.trans h2)⟩
  rcases hcase with hs | ⟨o, remaining, _, _, _, _, hp⟩
  · exact hsame hs rfl rfl
  · cases hp with
    | nowhere hs => exact hsame hs rfl rfl
    | displayed _ _ _ _ hs => exact hsame hs rfl rfl
    | ledger _ hs => exact hsame hs rfl rfl

/-- **The modes change by the two calls that set them.** -/
theorem call_modes {c : SimCall} (h : SimInv cfg sim) (hl : c.Legal cfg.externalRefLimit) :
    ((∀ b, c ≠ .setHalted b) → (sim.call cfg c).halted = sim.halted)
      ∧ ((∀ m, c ≠ .setStpMode m) → (sim.call cfg c).stp = sim.stp) := by
  have hc := call_cases h hl
  generalize sim.call cfg c = r at hc
  have hboth : ∀ {r : ExecutionSimulator k}, r.halted = sim.halted ∧ r.stp = sim.stp →
      ((∀ b, c ≠ .setHalted b) → r.halted = sim.halted)
        ∧ ((∀ m, c ≠ .setStpMode m) → r.stp = sim.stp) :=
    fun hh => ⟨fun _ => hh.1, fun _ => hh.2⟩
  cases hc with
  | still => exact hboth ⟨rfl, rfl⟩
  | flow _ _ _ ht => exact hboth ht.modes
  | seed | iceberg | submit | cancelledHidden | replacedHidden => exact hboth ⟨rfl, rfl⟩
  | decide _ hne hd => exact hboth (hd.modes (popped_inv h hne))
  | cancelled _ _ _ _ _ hw => exact hboth ⟨hw.env.halted, hw.env.stp⟩
  | replaced _ _ _ _ _ _ _ _ _ _ hd => exact hboth ⟨hd.env.halted, hd.env.stp⟩
  | halt b => exact ⟨fun hno => absurd rfl (hno b), fun _ => rfl⟩
  | stpMode m => exact ⟨fun _ => rfl, fun hno => absurd rfl (hno m)⟩

/-- An order without a peg is decided at its own price. -/
theorem resolved_unpegged (h : (resolvePeg order).peg = .none) :
    sim.resolved order = some (resolvePeg order) := by
  rw [resolved, if_neg (not_not.mpr h)]

/-- The types that imply no peg. -/
theorem resolvePeg_plain (h : order.type = .dayLimit ∨ order.type = .ioc ∨ order.type = .market
    ∨ order.type = .postOnly) : resolvePeg order = order := by
  unfold resolvePeg
  rcases h with h | h | h | h <;> rw [h]

end ExecutionSimulator

namespace Sweep

open ExecutionSimulator

variable {k : Nat} {cfg : SimConfig} {w w' w'' : Sweep k} {order : SimInbound}

/-- The executions `es`, logged between two points of a sweep, are what it has counted. -/
structure Accounts (order : SimInbound) (w w' : Sweep k) (es : List Execution) : Prop where
  executions : w'.sim.log.executions = w.sim.log.executions ++ es
  filled : w'.filled = w.filled + executedQty es
  remaining : w'.remaining = w.remaining - executedQty es
  notional : w'.notional = (w.notional + executedNotional es) % 2 ^ 64
  within : ∀ e ∈ es, e.side = order.side.opp ∧ ¬ beyond order e.price

theorem Accounts.refl (order : SimInbound) (hn : w.notional < 2 ^ 64) :
    Accounts order w w [] where
  executions := (List.append_nil _).symm
  filled := (Int.add_zero _).symm
  remaining := (Int.sub_zero _).symm
  notional := (Nat.mod_eq_of_lt hn).symm
  within _ he := absurd he List.not_mem_nil

theorem Accounts.trans {es es' : List Execution} (h : Accounts order w w' es)
    (h' : Accounts order w' w'' es') : Accounts order w w'' (es ++ es') where
  executions := by rw [h'.executions, h.executions, List.append_assoc]
  filled := by rw [h'.filled, h.filled, executedQty_append]; omega
  remaining := by rw [h'.remaining, h.remaining, executedQty_append]; omega
  notional := by rw [h'.notional, h.notional, executedNotional_append, Nat.mod_add_mod, Nat.add_assoc]
  within e he := (List.mem_append.mp he).elim (h.within e) (h'.within e)

/-- One execution, counted. -/
theorem Counts.accounts {e : Execution} (h : Counts w w' e.price e.qty)
    (hex : w'.sim.log.executions = w.sim.log.executions ++ [e])
    (hw : e.side = order.side.opp ∧ ¬ beyond order e.price) : Accounts order w w' [e] where
  executions := hex
  filled := by rw [h.filled, executedQty_single]
  remaining := by rw [h.remaining, executedQty_single]
  notional := by rw [h.notional, executedNotional_single]
  within x hx := by rw [List.mem_singleton.mp hx]; exact hw

/-- A move logs one execution and counts it, or removes a victim and counts nothing. -/
theorem Move.accounts (hm : Move cfg order w w') (hn : w.notional < 2 ^ 64) :
    ∃ es, Accounts order w w' es := by
  cases hm with
  | fill i l take mid ht hstp hf htake hs hc =>
      refine ⟨[w.sim.executionOf i take], Counts.accounts hc ?_ ⟨ht.front.side, ?_⟩⟩
      · rw [(Shown.fields hs).2.1, hf.log, FillLog.displayedFill_executions]
      · show ¬ beyond order (w.sim.book.order i).priceTicks
        rw [ht.front.price]
        exact ht.bound
  | tap t e kept l hside hbound h hrem hc =>
      refine ⟨[t.execution e], Counts.accounts hc ?_ ⟨hside, hbound⟩⟩
      rw [h.after]
      show t.log.executions ++ [t.execution e] = _
      rw [h.log]
  | remove i l ht hown hstp h =>
      refine ⟨[], { executions := ?_, filled := ?_, remaining := ?_, notional := ?_,
                    within := fun _ he => absurd he List.not_mem_nil }⟩
      · rw [h.log, List.append_nil]
      · rw [h.filled]
        exact (Int.add_zero _).symm
      · rw [h.remaining]
        exact (Int.sub_zero _).symm
      · rw [h.notional]
        exact (Nat.mod_eq_of_lt hn).symm

/-- **A sweep counts what it executes.** -/
theorem Moves.accounts (hm : Moves cfg order w w') (hn : w.notional < 2 ^ 64) :
    (∃ es, Accounts order w w' es) ∧ w'.notional < 2 ^ 64 := by
  induction hm with
  | refl => exact ⟨⟨[], .refl order hn⟩, hn⟩
  | tail _ hb ih =>
      obtain ⟨⟨es, ha⟩, hn'⟩ := ih
      obtain ⟨es', hb'⟩ := hb.1.accounts hn'
      exact ⟨⟨es ++ es', ha.trans hb'⟩, by rw [hb'.notional]; exact Nat.mod_lt _ (by decide)⟩

/-- A sweep never takes more than it was given. -/
theorem Moves.remaining_nonneg (hm : Moves cfg order w w') (h : 0 ≤ w.remaining) :
    0 ≤ w'.remaining := by
  induction hm with
  | refl => exact h
  | tail _ hb ih =>
      cases hb.1 with
      | fill i l take mid ht hstp hf htake hs hc =>
          rw [hc.remaining]
          omega
      | tap t e kept l hside hbound h hrem hc =>
          have hle : t.amount e ≤ t.remaining := Int.min_le_left _ _
          rw [hc.remaining]
          omega
      | remove i l ht hown hstp h => rw [h.remaining]; exact ih

theorem Moves.modes (hm : Moves cfg order w w') :
    w'.sim.halted = w.sim.halted ∧ w'.sim.stp = w.sim.stp := by
  induction hm with
  | refl => exact ⟨rfl, rfl⟩
  | tail _ hb ih =>
      have h := hb.1.exchange.modes
      exact ⟨h.1.trans ih.1, h.2.trans ih.2⟩

end Sweep

end Mog
