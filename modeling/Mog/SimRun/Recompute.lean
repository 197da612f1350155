import Mog.SimRun.Complete
import Mog.SimRun.Csv

/-!
# What the tearsheet recomputes

The reader's first pass sums over the rows that the writer printed, so its totals are those
of the summary, but for one thing: a decision that filled at several prices is one row with
one price, its average rounded to a tick, and its exact notional is lost.

The rounding error of a crossing fill is its average times its quantity less its notional, a
number between half a quantity down and half a quantity up. The report is right about cash when
the errors of the buys cancel out, and those of the sales; everything else it recomputes
exactly, because the other columns are printed as they were added up.
-/

namespace Mog

namespace SimRun

open ExecutionSimulator
open Tearsheet (Report)

variable {k : Nat} {cfg : SimConfig}

/-! ## The first pass -/

/-- The cash of a notional: a buy pays it and a sale receives it. -/
def flow (s : Side) (notional : Int) : Int := if s = .buy then -notional else notional

namespace EventRecord

def isFill (e : EventRecord) : Bool := e.type = .fill

def isPrint (e : EventRecord) : Bool := e.type = .print

def notional (e : EventRecord) : Int := e.priceTicks * (e.qty : Int)

def cash (e : EventRecord) : Int := flow e.side e.notional

end EventRecord

/-- From `rep` to `rep'` the records `es` have been read: fills and prints are counted, and the
fills are summed up. -/
structure Totals (rep rep' : Report) (es : List EventRecord) : Prop where
  fills : rep'.fills = rep.fills + (es.filter EventRecord.isFill).length
  prints : rep'.prints = rep.prints + (es.filter EventRecord.isPrint).length
  volume : rep'.volumeTicks
    = rep.volumeTicks + ((es.filter EventRecord.isFill).map EventRecord.notional).sum
  fees : rep'.feesCash
    = rep.feesCash + ((es.filter EventRecord.isFill).map EventRecord.feeCash).sum
  cash : rep'.cashPnlTicks
    = rep.cashPnlTicks + ((es.filter EventRecord.isFill).map EventRecord.cash).sum

theorem Totals.refl (rep : Report) : Totals rep rep [] :=
  ⟨rfl, rfl, (Int.add_zero _).symm, (Int.add_zero _).symm, (Int.add_zero _).symm⟩

theorem Totals.trans {rep rep' rep'' : Report} {es es' : List EventRecord} (h : Totals rep rep' es)
    (h' : Totals rep' rep'' es') : Totals rep rep'' (es ++ es') where
  fills := by rw [h'.fills, h.fills, List.filter_append, List.length_append, Nat.add_assoc]
  prints := by rw [h'.prints, h.prints, List.filter_append, List.length_append, Nat.add_assoc]
  volume := by
    rw [h'.volume, h.volume, List.filter_append, List.map_append, List.sum_append, Int.add_assoc]
  fees := by
    rw [h'.fees, h.fees, List.filter_append, List.map_append, List.sum_append, Int.add_assoc]
  cash := by
    rw [h'.cash, h.cash, List.filter_append, List.map_append, List.sum_append, Int.add_assoc]

theorem sideChar_buy (s : Side) : sideChar s = 'B' ↔ s = .buy := by
  cases s <;> decide

/-- The reader's flow is the record's cash. -/
theorem row_flow {e : EventRecord} (hq : toU32 e.qty = e.qty) :
    -e.row.signedQty * e.row.priceTicks = e.cash := by
  unfold Tearsheet.Row.signedQty EventRecord.row EventRecord.cash flow EventRecord.notional
  dsimp only
  rw [hq]
  by_cases hs : e.side = .buy
  · rw [if_pos ((sideChar_buy e.side).mpr hs), if_pos hs, Int.neg_mul, Int.mul_comm]
  · rw [if_neg fun h => hs ((sideChar_buy e.side).mp h), if_neg hs, Int.neg_neg, Int.mul_comm]

/-- **One row of the first pass.** -/
theorem totals_addRow (rep : Report) {e : EventRecord} (hq : e.type = .fill → e.qty < 2 ^ 32) :
    Totals rep (rep.addRow e.row) [e] := by
  unfold Tearsheet.Report.addRow
  cases htype : e.type with
  | print =>
      have hrow : e.row.type = 'P' := by
        unfold EventRecord.row
        rw [htype]
        rfl
      have hfill : ¬ e.isFill = true := by simp [EventRecord.isFill, htype]
      have hprint : e.isPrint = true := by simp [EventRecord.isPrint, htype]
      rw [if_pos hrow]
      constructor
      · rw [List.filter_cons_of_neg hfill]
        rfl
      · rw [List.filter_cons_of_pos hprint]
        rfl
      · rw [List.filter_cons_of_neg hfill]
        exact (Int.add_zero _).symm
      · rw [List.filter_cons_of_neg hfill]
        exact (Int.add_zero _).symm
      · rw [List.filter_cons_of_neg hfill]
        exact (Int.add_zero _).symm
  | fill =>
      have hrow : e.row.type = 'F' := by
        unfold EventRecord.row
        rw [htype]
        rfl
      have hfill : e.isFill = true := by simp [EventRecord.isFill, htype]
      have hprint : ¬ e.isPrint = true := by simp [EventRecord.isPrint, htype]
      have hqty : toU32 e.qty = e.qty := by
        have hlt := hq htype
        unfold toU32
        omega
      have hone : ∀ f : EventRecord → Int, (([e].filter EventRecord.isFill).map f).sum = f e := by
        intro f
        rw [List.filter_cons_of_pos hfill, List.filter_nil, List.map_singleton, List.sum_singleton]
      have hnp : ¬ e.row.type = 'P' := by
        rw [hrow]
        decide
      rw [if_neg hnp, if_neg (not_not.mpr hrow)]
      constructor
      · rw [List.filter_cons_of_pos hfill]
        rfl
      · rw [List.filter_cons_of_neg hprint]
        rfl
      · rw [hone]
        show rep.volumeTicks + e.priceTicks * ((toU32 e.qty : Nat) : Int) = _
        rw [hqty]
        rfl
      · rw [hone]
        rfl
      · rw [hone, ← row_flow hqty]

/-- **The first pass.** -/
theorem totals_foldl {es : List EventRecord} (hq : ∀ e ∈ es, e.type = .fill → e.qty < 2 ^ 32)
    (rep : Report) : Totals rep ((es.map EventRecord.row).foldl Report.addRow rep) es := by
  induction es generalizing rep with
  | nil => exact .refl rep
  | cons e es ih =>
      refine (totals_addRow rep (hq e List.mem_cons_self)).trans (ih ?_ _)
      exact fun x hx => hq x (List.mem_cons_of_mem _ hx)

/-! ## Makers, takers and prints -/

/-- A fill settles with the makers or with the takers. -/
theorem sum_fills (f : EventRecord → Int) (es : List EventRecord) :
    ((es.filter EventRecord.isFill).map f).sum = ((es.filter EventRecord.isMaker).map f).sum
      + ((es.filter EventRecord.isTaker).map f).sum := by
  induction es with
  | nil => rfl
  | cons e es ih =>
      cases htype : e.type <;> cases hledger : e.ledger <;>
        simp [EventRecord.isFill, EventRecord.isMaker, EventRecord.isTaker, htype,
          hledger] at ih ⊢ <;> omega

theorem length_fills (es : List EventRecord) : (es.filter EventRecord.isFill).length
    = (es.filter EventRecord.isMaker).length + (es.filter EventRecord.isTaker).length := by
  induction es with
  | nil => rfl
  | cons e es ih =>
      cases htype : e.type <;> cases hledger : e.ledger <;>
        simp [EventRecord.isFill, EventRecord.isMaker, EventRecord.isTaker, htype,
          hledger] at ih ⊢ <;> omega

/-- Every record is a maker's, a taker's or a print. -/
theorem forall_events {P : EventRecord → Prop} {es : List EventRecord} : (∀ e ∈ es, P e)
    ↔ (∀ e ∈ es.filter EventRecord.isMaker, P e) ∧ (∀ e ∈ es.filter EventRecord.isTaker, P e)
      ∧ ∀ e ∈ es.filter EventRecord.isPrint, P e := by
  constructor
  · intro h
    exact ⟨fun e he => h e (List.mem_of_mem_filter he), fun e he => h e (List.mem_of_mem_filter he),
      fun e he => h e (List.mem_of_mem_filter he)⟩
  · intro ⟨hm, ht, hp⟩ e he
    cases htype : e.type with
    | print => exact hp e (List.mem_filter.mpr ⟨he, by simp [EventRecord.isPrint, htype]⟩)
    | fill =>
        cases hledger : e.ledger with
        | maker => exact hm e (List.mem_filter.mpr ⟨he, by simp [EventRecord.isMaker, htype, hledger]⟩)
        | taker => exact ht e (List.mem_filter.mpr ⟨he, by simp [EventRecord.isTaker, htype, hledger]⟩)

/-- What a predicate says of the records, where it does not look at the mark. -/
theorem forall_unmarked {P : EventRecord → Prop} {l l' : List EventRecord}
    (h : l.map EventRecord.unmarked = l') (hP : ∀ e ∈ l, (P e ↔ P e.unmarked)) :
    (∀ e ∈ l, P e) ↔ ∀ e ∈ l', P e := by
  rw [← h, List.forall_mem_map]
  exact forall₂_congr hP

theorem sum_unmarked {f : EventRecord → Int} {l l' : List EventRecord}
    (h : l.map EventRecord.unmarked = l') (hf : ∀ e, f e.unmarked = f e) :
    (l.map f).sum = (l'.map f).sum := by
  rw [← h, List.map_map]
  exact congrArg List.sum (List.map_congr_left fun e _ => (hf e).symm)

/-- From `out` to `out'` the prints `rs` have been logged and `n` prints counted, and no mark is
negative. -/
structure Prints (out out' : Summary) (rs : List Row) (n : Nat) : Prop where
  events : (out'.events.filter EventRecord.isPrint).map EventRecord.unmarked
    = (out.events.filter EventRecord.isPrint).map EventRecord.unmarked ++ rs.map (printRow 0)
  count : out'.prints = out.prints + n
  marks : (∀ e ∈ out.events, 0 ≤ e.midTicks) → ∀ e ∈ out'.events, 0 ≤ e.midTicks

variable {out out' out'' : Summary}

theorem Prints.still (he : out'.events = out.events) (n : Nat) (hn : out'.prints = out.prints + n) :
    Prints out out' [] n where
  events := by rw [he]; exact (List.append_nil _).symm
  count := hn
  marks hm := by rw [he]; exact hm

theorem Prints.trans {rs rs' : List Row} {n n' : Nat} (h : Prints out out' rs n)
    (h' : Prints out' out'' rs' n') : Prints out out'' (rs ++ rs') (n + n') where
  events := by rw [h'.events, h.events, List.map_append, List.append_assoc]
  count := by rw [h'.count, h.count, Nat.add_assoc]
  marks hm := h'.marks (h.marks hm)

theorem midOf_nonneg (sim : ExecutionSimulator k) : 0 ≤ midOf sim := by
  unfold midOf
  dsimp only
  split
  · exact Int.le_refl 0
  · omega

/-- A record is logged under a mark of the book. -/
theorem prints_record {e : EventRecord} {rs : List Row} (hmid : 0 ≤ e.midTicks)
    (hone : ([e].filter EventRecord.isPrint).map EventRecord.unmarked = rs.map (printRow 0))
    (hevents : out'.events = out.events ++ [e]) (hprints : out'.prints = out.prints) :
    Prints out out' rs 0 where
  events := by rw [hevents, List.filter_append, List.map_append, hone]
  count := hprints
  marks hm x hx := by
    rw [hevents] at hx
    rcases List.mem_append.mp hx with hx | hx
    · exact hm x hx
    · rw [List.mem_singleton.mp hx]
      exact hmid

theorem prints_makers {r : Row} {mid : Int} (hmid : 0 ≤ mid) (l : List SimFillReport)
    (out : Summary) : Prints out (l.foldl (Summary.addMaker r.ts mid) out) [] 0 := by
  induction l generalizing out with
  | nil => exact .still rfl 0 rfl
  | cons f l ih =>
      have hone : Prints out (out.addMaker r.ts mid f) [] 0 :=
        prints_record (e := makerRow r.ts mid f) hmid rfl rfl rfl
      exact hone.trans (ih _)

theorem prints_takers {r : Row} {mid : Int} (hmid : 0 ≤ mid) (l : List SimDecision)
    (out : Summary) : Prints out (l.foldl (Summary.addTaker cfg r.ts mid) out) [] 0 := by
  induction l generalizing out with
  | nil => exact .still rfl 0 rfl
  | cons d l ih =>
      have hone : Prints out (out.addTaker cfg r.ts mid d) [] 0 := by
        unfold Summary.addTaker
        split
        · exact .still rfl 0 rfl
        · exact prints_record (e := takerRow cfg r.ts mid d) hmid rfl rfl rfl
      exact hone.trans (ih _)

/-- The trade rows that print. -/
def printed (cfg : SimConfig) (draws : Nat → Draws) : Nat → List Row → Loop k → List Row
  | _, [], _ => []
  | i, r :: rs, s =>
      (if r.kind = .trade ∧ ¬ (rowEnd cfg (draws i) s.prevTs r s.sim).halted then [r] else [])
        ++ printed cfg draws (i + 1) rs (s.step cfg (draws i) r)

/-- **One row** prints once, if it is a trade outside a halt. -/
theorem step_prints (d : Draws) (r : Row) {s : Loop k} (h : s.sim.wheel.empty) :
    Prints s.out (s.step cfg d r).out
      (if r.kind = .trade ∧ ¬ (rowEnd cfg d s.prevTs r s.sim).halted then [r] else [])
      (if r.kind = .trade ∧ ¬ (rowEnd cfg d s.prevTs r s.sim).halted then [r] else []).length := by
  unfold rowEnd Loop.step
  dsimp only
  by_cases hhalt : r.kind = .halt
  · rw [if_pos hhalt, if_neg fun hp => absurd (hhalt.symm.trans hp.1) (by decide)]
    exact @Prints.still s.out { s.out with scriptRows := s.out.scriptRows + 1 } rfl 0 rfl
  rw [if_neg hhalt]
  by_cases hresume : r.kind = .resume
  · rw [if_pos hresume, if_neg fun hp => absurd (hresume.symm.trans hp.1) (by decide)]
    exact @Prints.still s.out { s.out with scriptRows := s.out.scriptRows + 1 } rfl 0 rfl
  have hcontrol : ¬ r.kind.control := not_or.mpr ⟨hhalt, hresume⟩
  rw [if_neg hresume, if_neg hcontrol]
  -- A trade leaves nothing to drain, so that the two checks for a halt agree.
  have hsame : r.kind = .trade → (actRow cfg r (advanceRow cfg d s.prevTs r s.sim)).drain cfg
      = actRow cfg r (advanceRow cfg d s.prevTs r s.sim) := by
    intro htrade
    refine drain_idle ?_
    rw [(@actRow_extends _ cfg _ (Or.inr (Or.inl htrade)) _).wheel,
      (@advanceRow_extends _ cfg d s.prevTs r s.sim).wheel]
    exact h
  generalize actRow cfg r (advanceRow cfg d s.prevTs r s.sim) = act at hsame ⊢
  have hmid := midOf_nonneg (act.drain cfg)
  unfold Loop.collect
  dsimp only
  have hfills : ∀ out, Prints out (((act.drain cfg).log.decisions.drop act.log.decisions.length).foldl
      (Summary.addTaker cfg r.ts (midOf (act.drain cfg)))
      ((act.drain cfg).log.reports.foldl (Summary.addMaker r.ts (midOf (act.drain cfg))) out)) [] 0 :=
    fun out => (prints_makers hmid _ out).trans (prints_takers hmid _ _)
  by_cases hprint : r.kind = .trade ∧ ¬ act.halted
  · have hhere : r.kind = .trade ∧ ¬ (act.drain cfg).halted := by
      rw [hsame hprint.1]
      exact hprint
    have hclear : r.kind = .trade ∧ ¬ (act.drain cfg).clearReports.halted := hhere
    rw [if_pos hprint, if_pos hhere, if_pos hclear]
    have hcount := @Prints.still s.out { ({ s.out with scriptRows := s.out.scriptRows + 1 } : Summary)
      with prints := s.out.prints + 1 } rfl 1 rfl
    have hevent := fun out : Summary => @prints_record out
      { out with events := out.events ++ [printRow (midOf (act.drain cfg)) r] } _ [r] hmid rfl rfl rfl
    exact (hcount.trans (hfills _)).trans (hevent _)
  · have hhere : ¬ (r.kind = .trade ∧ ¬ (act.drain cfg).halted) := by
      intro hp
      rw [hsame hp.1] at hp
      exact hprint hp
    have hclear : ¬ (r.kind = .trade ∧ ¬ (act.drain cfg).clearReports.halted) := hhere
    rw [if_neg hprint, if_neg hhere, if_neg hclear]
    have hcount := @Prints.still s.out { s.out with scriptRows := s.out.scriptRows + 1 } rfl 0 rfl
    exact hcount.trans (hfills _)

/-- **A run** logs its prints and counts them. -/
theorem rows_prints (draws : Nat → Draws) (i : Nat) (rs : List Row) {s : Loop k}
    (h : s.sim.wheel.empty) : Prints s.out (Loop.rows cfg draws i rs s).out
      (printed cfg draws i rs s) (printed cfg draws i rs s).length := by
  induction rs generalizing i s with
  | nil => exact .still rfl 0 rfl
  | cons r rs ih =>
      have hnext : (s.step cfg (draws i) r).sim.wheel.empty := by
        rw [(step_sim (draws i) r s).1]
        exact (@rowEnd_spec _ cfg (draws i) s.prevTs r _ h).1
      rw [printed, List.length_append]
      exact (step_prints (draws i) r h).trans (ih (i + 1) hnext)

/-! ## The quantities of the fills -/

/-- What a row adds to the logs is of 32 bits. -/
theorem rowEnd_narrow (d : Draws) (r : Row) (s : Loop k) :
    ((∀ f ∈ s.sim.log.reports, f.qty < 2 ^ 32) →
        ∀ f ∈ (rowEnd cfg d s.prevTs r s.sim).log.reports, f.qty < 2 ^ 32)
      ∧ ∀ x ∈ decisionsOf cfg d r s, x.filledQty < 2 ^ 32 := by
  obtain ⟨os, hos, hn⟩ := @rowEnd_grows _ cfg d s.prevTs r s.sim
  constructor
  · intro hold f hf
    rw [hos.reports] at hf
    rcases List.mem_append.mp hf with hf | hf
    · exact hold f hf
    · obtain ⟨o, ho, hfo⟩ := List.mem_filterMap.mp hf
      have hnarrow := hn o ho
      cases o with
      | fill r =>
          cases hfo
          exact hnarrow
      | trade t => cases hfo
      | decision d => cases hfo
  · intro x hx
    unfold decisionsOf at hx
    rw [hos.decisions, List.drop_left] at hx
    obtain ⟨o, ho, hxo⟩ := List.mem_filterMap.mp hx
    have hnarrow := hn o ho
    cases o with
    | decision d =>
        cases hxo
        exact hnarrow
    | trade t => cases hxo
    | fill r => cases hxo

theorem collected_narrow (draws : Nat → Draws) (i : Nat) (rs : List Row) {s : Loop k}
    (h : ∀ f ∈ s.sim.log.reports, f.qty < 2 ^ 32) :
    ∀ p ∈ collected cfg draws i rs s, p.2.qty < 2 ^ 32 := by
  induction rs generalizing i s with
  | nil => exact fun p hp => absurd hp List.not_mem_nil
  | cons r rs ih =>
      have hrow := (@rowEnd_narrow _ cfg (draws i) r s).1 h
      have hnext : ∀ f ∈ (s.step cfg (draws i) r).sim.log.reports, f.qty < 2 ^ 32 := by
        rw [(step_sim (draws i) r s).2.2]
        split
        · exact hrow
        · exact fun f hf => absurd hf List.not_mem_nil
      intro p hp
      rcases List.mem_append.mp hp with hp | hp
      · split at hp
        · exact absurd hp List.not_mem_nil
        · obtain ⟨f, hf, rfl⟩ := List.mem_map.mp hp
          exact hrow f hf
      · exact ih (i + 1) hnext p hp

theorem decided_narrow (draws : Nat → Draws) (i : Nat) (rs : List Row) (s : Loop k) :
    ∀ p ∈ decided cfg draws i rs s, p.2.filledQty < 2 ^ 32 := by
  induction rs generalizing i s with
  | nil => exact fun p hp => absurd hp List.not_mem_nil
  | cons r rs ih =>
      intro p hp
      rcases List.mem_append.mp hp with hp | hp
      · obtain ⟨d, hd, rfl⟩ := List.mem_map.mp hp
        exact (@rowEnd_narrow _ cfg (draws i) r s).2 d hd
      · exact ih (i + 1) _ p hp

/-- The prices of a script are not negative. -/
theorem parseRow_price {line : List Char} {r : Row} (h : parseRow line = some r) : 0 ≤ r.price := by
  unfold parseRow at h
  dsimp only at h
  split at h
  · cases h
  · rename_i kind _
    generalize hpx : (if kind.control then (0 : Int) else num ((line.splitOn ',').getD 3 [])) = px at h
    generalize (if kind.control then (0 : Int) else num ((line.splitOn ',').getD 4 [])) = qty at h
    generalize (if kind.control then (0 : Int) else num ((line.splitOn ',').getD 5 [])) = ref at h
    split at h
    · cases h
    split at h
    · cases h
    rename_i hfields
    split at h
    · cases h
    split at h
    · cases h
    cases h
    show 0 ≤ px
    by_cases hcontrol : kind.control
    · rw [← hpx, if_pos hcontrol]
    · by_contra hneg
      exact hfields ⟨hcontrol, Or.inl (Int.not_le.mp hneg)⟩

theorem parseScript_price {text : List Char} {rows : List Row} (h : parseScript text = some rows) :
    ∀ r ∈ rows, 0 ≤ r.price := by
  unfold parseScript at h
  split at h
  · cases h
  · split at h
    · exact forall_mapM (fun _ _ => parseRow_price) h
    · cases h

theorem printed_subset (draws : Nat → Draws) (i : Nat) (rs : List Row) (s : Loop k) :
    ∀ r ∈ printed cfg draws i rs s, r ∈ rs := by
  induction rs generalizing i s with
  | nil => exact fun r hr => absurd hr List.not_mem_nil
  | cons x rs ih =>
      intro r hr
      rcases List.mem_append.mp hr with hr | hr
      · split at hr
        · rw [List.mem_singleton.mp hr]
          exact List.mem_cons_self
        · exact absurd hr List.not_mem_nil
      · exact List.mem_cons_of_mem _ (ih (i + 1) _ r hr)

/-! ## The report and the summary -/

/-- The one price under which the fills of a decision are logged. -/
def averagePrice (d : SimDecision) : Int :=
  toI64 ((d.filledNotional + d.filledQty / 2) % 2 ^ 64 / d.filledQty)

/-- What the logged price adds to the exact notional. -/
def roundingError (d : SimDecision) : Int :=
  averagePrice d * (d.filledQty : Int) - toI64 d.filledNotional

/-- The rounding errors of the fills on one side. -/
def errorOf (s : Side) (ts : List (Row × SimDecision)) : Int :=
  ((ts.filter fun p => p.2.side = s).map fun p => roundingError p.2).sum

/-- The cash of the exact notionals of the fills. -/
def exactCash (ms : List (Row × SimFillReport)) (ts : List (Row × SimDecision)) : Int :=
  (ms.map fun p => flow p.2.side (p.2.priceTicks * (p.2.qty : Int))).sum
    + (ts.map fun p => flow p.2.side (toI64 p.2.filledNotional)).sum

/-- **The report is the run's**: its counts, fees and volume are the summary's, and its cash is that
of the exact notionals. -/
structure Recomputes (ms : List (Row × SimFillReport)) (ts : List (Row × SimDecision))
    (out : Summary) (rep : Report) : Prop where
  fills : rep.fills = out.fills
  prints : rep.prints = out.prints
  fees : rep.feesCash = out.feesPaidCash
  volume : rep.volumeTicks = out.volumeTicks
  cash : rep.cashPnlTicks = exactCash ms ts

/-- What the engine does can be written as a log: fills have a price and a quantity that the
reader takes, prints a quantity, and the rounding errors cancel out on each side. -/
structure Encodes (ms : List (Row × SimFillReport)) (ts : List (Row × SimDecision))
    (ps : List Row) : Prop where
  makers : ∀ p ∈ ms, 0 ≤ p.2.priceTicks ∧ 0 < p.2.qty
  takers : ∀ p ∈ ts, 0 ≤ averagePrice p.2
  prints : ∀ r ∈ ps, 0 < r.qty
  buys : errorOf .buy ts = 0
  sells : errorOf .sell ts = 0

/-- Sums over fills whose notionals are off by an error, split by sides. -/
theorem sum_by_side {α : Type} {side : α → Side} {exact logged err : α → Int}
    (herr : ∀ a, logged a = exact a + err a) (l : List α) :
    (l.map logged).sum = (l.map exact).sum + (((l.filter fun a => side a = .buy).map err).sum
          + ((l.filter fun a => side a = .sell).map err).sum)
      ∧ (l.map fun a => flow (side a) (logged a)).sum = (l.map fun a => flow (side a) (exact a)).sum
          + (((l.filter fun a => side a = .sell).map err).sum
            - ((l.filter fun a => side a = .buy).map err).sum) := by
  induction l with
  | nil => exact ⟨rfl, rfl⟩
  | cons a l ih =>
      have ha := herr a
      unfold flow at ih ⊢
      cases hs : side a with
      | buy =>
          simp only [List.map_cons, List.sum_cons, List.filter_cons, hs, decide_true, if_true,
            reduceCtorEq, decide_false, Bool.false_eq_true, if_false]
          omega
      | sell =>
          simp only [List.map_cons, List.sum_cons, List.filter_cons, hs, decide_true, if_true,
            reduceCtorEq, decide_false, Bool.false_eq_true, if_false]
          omega

/-- What the log makes of the sums over taker fills. -/
theorem sum_takers (ts : List (Row × SimDecision)) :
    (ts.map fun p => averagePrice p.2 * (p.2.filledQty : Int)).sum
        = (ts.map fun p => toI64 p.2.filledNotional).sum + (errorOf .buy ts + errorOf .sell ts)
      ∧ (ts.map fun p => flow p.2.side (averagePrice p.2 * (p.2.filledQty : Int))).sum
        = (ts.map fun p => flow p.2.side (toI64 p.2.filledNotional)).sum
          + (errorOf .sell ts - errorOf .buy ts) :=
  sum_by_side (fun _ => (add_sub_cancel _ _).symm) ts

theorem computeFromCsv_logText (es : List EventRecord) : Tearsheet.computeFromCsv (logText es)
    = if ∀ e ∈ es, e.Readable then some (Tearsheet.compute (es.map EventRecord.row)) else none := by
  unfold Tearsheet.computeFromCsv
  rw [parseLog_logText]
  split <;> rfl

/-- The second pass leaves the totals of the first. -/
theorem totals_compute {es : List EventRecord} (hq : ∀ e ∈ es, e.type = .fill → e.qty < 2 ^ 32) :
    Totals {} (Tearsheet.compute (es.map EventRecord.row)) es := by
  have hfirst := totals_foldl hq {}
  exact ⟨hfirst.fills, hfirst.prints, hfirst.volume, hfirst.fees, hfirst.cash⟩

section Logged

variable {ms : List (Row × SimFillReport)} {ts : List (Row × SimDecision)} {ps : List Row} {n : Nat}

theorem readable_unmarked {e : EventRecord} (h : 0 ≤ e.midTicks) :
    e.Readable ↔ e.unmarked.Readable :=
  ⟨fun hr => ⟨hr.1, hr.2.1, Int.le_refl 0⟩, fun hr => ⟨hr.1, hr.2.1, h⟩⟩

/-- **When the reader takes a log.** -/
theorem readable_iff (hadds : Adds cfg {} out ms ts) (hprints : Prints {} out ps n)
    (hps : ∀ r ∈ ps, 0 ≤ r.price) (hts : ∀ p ∈ ts, 0 < p.2.filledQty) :
    (∀ e ∈ out.events, e.Readable)
      ↔ (∀ p ∈ ms, 0 ≤ p.2.priceTicks ∧ 0 < p.2.qty) ∧ (∀ p ∈ ts, 0 ≤ averagePrice p.2)
        ∧ ∀ r ∈ ps, 0 < r.qty := by
  have hmarks := hprints.marks fun e he => absurd he List.not_mem_nil
  have hswap : ∀ f : EventRecord → Bool, ∀ e ∈ out.events.filter f,
      (e.Readable ↔ e.unmarked.Readable) := fun f e he =>
    readable_unmarked (hmarks e (List.mem_of_mem_filter he))
  rw [forall_events, forall_unmarked hadds.makers (hswap _), forall_unmarked hadds.takers (hswap _),
    forall_unmarked hprints.events (hswap _)]
  refine and_congr ?_ (and_congr ?_ ?_)
  · rw [List.filter_nil, List.map_nil, List.nil_append, List.forall_mem_map]
    exact forall₂_congr fun p _ =>
      ⟨fun h => ⟨h.1, h.2.1⟩, fun h => ⟨h.1, h.2, Int.le_refl 0⟩⟩
  · rw [List.filter_nil, List.map_nil, List.nil_append, List.forall_mem_map]
    exact forall₂_congr fun p hp => ⟨fun h => h.1, fun h => ⟨h, hts p hp, Int.le_refl 0⟩⟩
  · rw [List.filter_nil, List.map_nil, List.nil_append, List.forall_mem_map]
    exact forall₂_congr fun r hr => ⟨fun h => h.2.1, fun h => ⟨hps r hr, h, Int.le_refl 0⟩⟩

/-- The fills of a log are of 32 bits where those of the engine are. -/
theorem events_narrow (hadds : Adds cfg {} out ms ts) (hms : ∀ p ∈ ms, p.2.qty < 2 ^ 32)
    (hts : ∀ p ∈ ts, p.2.filledQty < 2 ^ 32) :
    ∀ e ∈ out.events, e.type = .fill → e.qty < 2 ^ 32 := by
  have hswap : ∀ f : EventRecord → Bool, ∀ e ∈ out.events.filter f,
      ((e.type = .fill → e.qty < 2 ^ 32) ↔ (e.unmarked.type = .fill → e.unmarked.qty < 2 ^ 32)) :=
    fun _ _ _ => Iff.rfl
  refine forall_events.mpr ⟨?_, ?_, fun e he htype => ?_⟩
  · refine (forall_unmarked hadds.makers (hswap _)).mpr ?_
    rw [List.filter_nil, List.map_nil, List.nil_append]
    exact List.forall_mem_map.mpr fun p hp _ => hms p hp
  · refine (forall_unmarked hadds.takers (hswap _)).mpr ?_
    rw [List.filter_nil, List.map_nil, List.nil_append]
    exact List.forall_mem_map.mpr fun p hp _ => hts p hp
  · have hprint : e.type = .print := of_decide_eq_true (List.mem_filter.mp he).2
    rw [hprint] at htype
    cases htype

/-- A sum over the fills of a log is one over those of the engine. -/
theorem sum_logged (hadds : Adds cfg {} out ms ts) {f : EventRecord → Int}
    (hf : ∀ e, f e.unmarked = f e) : ((out.events.filter EventRecord.isFill).map f).sum
      = (ms.map fun p => f (makerOf p)).sum + (ts.map fun p => f (takerOf cfg p)).sum := by
  rw [sum_fills, sum_unmarked hadds.makers hf, sum_unmarked hadds.takers hf, List.filter_nil,
    List.map_nil, List.nil_append, List.filter_nil, List.map_nil, List.nil_append, List.map_map,
    List.map_map]
  rfl

/-- **A log that is taken** gives the report of the run, exactly if the errors cancel out. -/
theorem recomputes_iff (hadds : Adds cfg {} out ms ts) (hprints : Prints {} out ps ps.length)
    (hms : ∀ p ∈ ms, p.2.qty < 2 ^ 32) (hts : ∀ p ∈ ts, p.2.filledQty < 2 ^ 32) :
    Recomputes ms ts out (Tearsheet.compute (out.events.map EventRecord.row))
      ↔ errorOf .buy ts = 0 ∧ errorOf .sell ts = 0 := by
  have htotals := totals_compute (events_narrow hadds hms hts)
  generalize Tearsheet.compute (out.events.map EventRecord.row) = rep at htotals
  have hnotional := sum_logged (f := EventRecord.notional) hadds fun _ => rfl
  have hcash := sum_logged (f := EventRecord.cash) hadds fun _ => rfl
  have hfee := sum_logged (f := EventRecord.feeCash) hadds fun _ => rfl
  obtain ⟨hsumVolume, hsumCash⟩ := sum_takers ts
  have hvolumeTaken : (ts.map fun p => (takerOf cfg p).notional).sum
      = (ts.map fun p => averagePrice p.2 * (p.2.filledQty : Int)).sum := rfl
  have hcashTaken : (ts.map fun p => (takerOf cfg p).cash).sum
      = (ts.map fun p => flow p.2.side (averagePrice p.2 * (p.2.filledQty : Int))).sum := rfl
  have hvolumeMade : (ms.map fun p => (makerOf p).notional).sum
      = (ms.map fun p => p.2.priceTicks * (p.2.qty : Int)).sum := rfl
  have hcashMade : (ms.map fun p => (makerOf p).cash).sum
      = (ms.map fun p => flow p.2.side (p.2.priceTicks * (p.2.qty : Int))).sum := rfl
  rw [hvolumeMade, hvolumeTaken, hsumVolume] at hnotional
  rw [hcashMade, hcashTaken, hsumCash] at hcash
  -- The totals of the report in those of the summary and the rounding errors.
  have hvolume : rep.volumeTicks = out.volumeTicks + (errorOf .buy ts + errorOf .sell ts) := by
    rw [htotals.volume, hnotional, hadds.volume]
    show 0 + (_ + (_ + _)) = 0 + (_ + _) + _
    omega
  have hpnl : rep.cashPnlTicks = exactCash ms ts + (errorOf .sell ts - errorOf .buy ts) := by
    rw [htotals.cash, hcash]
    unfold exactCash
    show 0 + (_ + (_ + _)) = _
    omega
  have hmade := congrArg List.length hadds.makers
  have htaken := congrArg List.length hadds.takers
  have hprinted := congrArg List.length hprints.events
  simp only [List.length_map, List.length_append, List.filter_nil, List.map_nil, List.length_nil]
    at hmade htaken hprinted
  constructor
  · intro h
    have hv := h.volume
    have hc := h.cash
    omega
  · rintro ⟨hbuy, hsell⟩
    refine ⟨?_, ?_, ?_, ?_, ?_⟩
    · rw [htotals.fills, hadds.fills, length_fills, hmade, htaken]
      show 0 + (0 + _ + (0 + _)) = 0 + _
      omega
    · rw [htotals.prints, hprints.count, hprinted]
      show 0 + (0 + _) = 0 + _
      omega
    · rw [htotals.fees, hfee, hadds.fees]
      rfl
    · rw [hvolume, hbuy, hsell]
      omega
    · rw [hpnl, hbuy, hsell]
      omega

end Logged

/-- A run before its first row. -/
def startOf (cfg : SimConfig) : Loop k := { sim := ExecutionSimulator.init cfg }

/-- **When the tearsheet recomputes the run from its log alone.** For every script that is accepted
and all depletion draws, the reader takes the log, and its counts, fees and volume are the
summary's and its cash that of the exact notionals, exactly if what the engine did can be written
as a log: no fill is at a negative price or of no quantity, no print is of no quantity, and the
rounding errors of the crossing fills' average prices cancel out among the buys and among the
sales. -/
theorem tearsheet_recomputes_iff (cfg : SimConfig) (k : Nat) (text : List Char)
    (draws : Nat → Draws) (rows : List Row) (hrows : parseScript text = some rows) :
    (∃ out rep, run cfg k text draws = some out
        ∧ Tearsheet.computeFromCsv (logText out.events) = some rep
        ∧ Recomputes (collected cfg draws 0 rows (startOf cfg : Loop k))
          (filling (decided cfg draws 0 rows (startOf cfg : Loop k))) out rep)
      ↔ Encodes (collected cfg draws 0 rows (startOf cfg : Loop k))
          (filling (decided cfg draws 0 rows (startOf cfg : Loop k)))
          (printed cfg draws 0 rows (startOf cfg : Loop k)) := by
  have hadds := @rows_adds _ cfg draws 0 rows (startOf cfg : Loop k)
  have hprints := @rows_prints _ cfg draws 0 rows (startOf cfg : Loop k) rfl
  have hms := @collected_narrow _ cfg draws 0 rows (startOf cfg : Loop k)
    fun f hf => absurd hf List.not_mem_nil
  have hts : ∀ p ∈ filling (decided cfg draws 0 rows (startOf cfg : Loop k)),
      p.2.filledQty < 2 ^ 32 ∧ 0 < p.2.filledQty := by
    intro p hp
    obtain ⟨hmem, hne⟩ := List.mem_filter.mp hp
    exact ⟨decided_narrow draws 0 rows _ p hmem, Nat.pos_of_ne_zero (of_decide_eq_true hne)⟩
  have hps : ∀ r ∈ printed cfg draws 0 rows (startOf cfg : Loop k), 0 ≤ r.price := fun r hr =>
    parseScript_price hrows r (printed_subset draws 0 rows _ r hr)
  have hrun : run cfg k text draws = some (Loop.rows cfg draws 0 rows (startOf cfg : Loop k)).out := by
    unfold run
    rw [hrows]
    rfl
  generalize (Loop.rows cfg draws 0 rows (startOf cfg : Loop k)).out = out at hadds hprints hrun
  have hread := readable_iff hadds hprints hps fun p hp => (hts p hp).2
  have hsame := recomputes_iff hadds hprints hms fun p hp => (hts p hp).1
  have hcsv := computeFromCsv_logText out.events
  constructor
  · rintro ⟨out', rep, hout, hrep, hall⟩
    rw [hrun] at hout
    cases hout
    rw [hcsv] at hrep
    by_cases hr : ∀ e ∈ out.events, e.Readable
    · rw [if_pos hr] at hrep
      cases hrep
      obtain ⟨hm, ht, hp⟩ := hread.mp hr
      obtain ⟨hb, hs⟩ := hsame.mp hall
      exact ⟨hm, ht, hp, hb, hs⟩
    · rw [if_neg hr] at hrep
      cases hrep
  · intro h
    rw [if_pos (hread.mpr ⟨h.makers, h.takers, h.prints⟩)] at hcsv
    exact ⟨out, _, hrun, hcsv, hsame.mpr ⟨h.buys, h.sells⟩⟩

/-- A buy of `qty` against an offer of one at 5 and two at 6. -/
def buyAcross (qty : Char) : List Char :=
  "kind,ts_ns,side,price_ticks,qty,ref\next_add,1,S,5,1,3\next_add,1,S,6,2,4\nstrat_ioc,2,B,9,".toList
    ++ [qty, ',', '1', '\n']

def buyAcrossRows (qty : Nat) : List Row :=
  [{ kind := .extAdd, ts := 1, side := .sell, price := 5, qty := 1, ref := 3 },
    { kind := .extAdd, ts := 1, side := .sell, price := 6, qty := 2, ref := 4 },
    { kind := .stratIoc, ts := 2, price := 9, qty, ref := 1 }]

/-- The same buy of three, another one against an offer of two at 5 and one at 6, and a bid that a
trade fills. -/
def buyTwice : List Char :=
  buyAcross '3' ++ ("ext_add,3,S,5,2,5\next_add,3,S,6,1,6\nstrat_ioc,4,B,9,3,2\n" ++
    "strat_limit,5,B,4,2,7\ntrade,6,S,4,1,8\n").toList

def buyTwiceRows : List Row :=
  buyAcrossRows 3 ++
    [{ kind := .extAdd, ts := 3, side := .sell, price := 5, qty := 2, ref := 5 },
      { kind := .extAdd, ts := 3, side := .sell, price := 6, qty := 1, ref := 6 },
      { kind := .stratIoc, ts := 4, price := 9, qty := 3, ref := 2 },
      { kind := .stratLimit, ts := 5, price := 4, qty := 2, ref := 7 },
      { kind := .trade, ts := 6, side := .sell, price := 4, qty := 1, ref := 8 }]

/-- No depletion. -/
def noDraws : Nat → Draws := fun _ => {}

/-- **Errors that cancel out**: the first three units for 17 are logged at 6 each, the next three for
16 at 5 each. -/
theorem tearsheet_recomputes_iff_twice : ∃ out rep,
    run deskConfig 4 buyTwice noDraws = some out
      ∧ Tearsheet.computeFromCsv (logText out.events) = some rep
      ∧ Recomputes (collected deskConfig noDraws 0 buyTwiceRows (startOf deskConfig : Loop 4))
        (filling (decided deskConfig noDraws 0 buyTwiceRows (startOf deskConfig : Loop 4)))
        out rep :=
  (tearsheet_recomputes_iff deskConfig 4 buyTwice noDraws buyTwiceRows (by decide +kernel)).mpr
    ⟨by decide +kernel, by decide +kernel, by decide +kernel, by decide +kernel, by decide +kernel⟩

/-- **A sweep of two prices**: three units for 17 are logged at 6 each, so that the report says 18. -/
theorem sweep_not_recomputed : parseScript (buyAcross '3') = some (buyAcrossRows 3)
    ∧ ¬ ∃ out rep, run deskConfig 4 (buyAcross '3') noDraws = some out
      ∧ Tearsheet.computeFromCsv (logText out.events) = some rep
      ∧ Recomputes (collected deskConfig noDraws 0 (buyAcrossRows 3) (startOf deskConfig : Loop 4))
        (filling (decided deskConfig noDraws 0 (buyAcrossRows 3) (startOf deskConfig : Loop 4)))
        out rep := by
  refine ⟨by decide +kernel, ?_⟩
  rintro ⟨out, rep, hout, hrep, hall⟩
  have hvolumes : (run deskConfig 4 (buyAcross '3') noDraws).bind (fun out =>
      (Tearsheet.computeFromCsv (logText out.events)).map fun rep =>
        (rep.volumeTicks, out.volumeTicks)) = some (18, 17) := by
    decide +kernel
  rw [hout, Option.bind_some, hrep, Option.map_some, hall.volume] at hvolumes
  have hboth := Option.some.inj hvolumes
  exact absurd ((congrArg Prod.fst hboth).symm.trans (congrArg Prod.snd hboth)) (by decide)

end SimRun

end Mog
