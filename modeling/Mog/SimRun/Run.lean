import Mog.Sim.Events
import Mog.SimRun.Script

/-!
# The scripted runner

`simrun::run` drives a simulator over the rows of a script and keeps an events log: the
fills that the strategy's resting orders received, its own crossing fills, and the prints.
The depletion draws of each `advance_time` are arguments. The digest of the trace is left
out.

A row advances time, acts on the simulator and lets the scheduler run dry, and then what the
simulator has reported since the last row is written to the log. A halt or a resume row does
none of the collecting. The summary's counters are kept along the way, by the same loop.
-/

namespace Mog

namespace SimRun

open ExecutionSimulator

inductive EventType where
  | fill
  | print
deriving DecidableEq, Repr

/-- Who settles a fill: the resting side, or the order that crossed. -/
inductive Ledger where
  | maker
  | taker
deriving DecidableEq, Repr

structure EventRecord where
  type : EventType := .fill
  tsNs : Nat := 0
  ref : Nat := 0
  side : Side := .buy
  priceTicks : Int := 0
  qty : Nat := 0
  feeCash : Int := 0
  /-- The middle of the book after the event, 0 where it is unknown. -/
  midTicks : Int := 0
  ledger : Ledger := .maker
  submitNs : Nat := 0
deriving DecidableEq, Repr

structure Summary where
  scriptRows : Nat := 0
  fills : Nat := 0
  makerFills : Nat := 0
  takerFills : Nat := 0
  prints : Nat := 0
  volumeTicks : Int := 0
  feesPaidCash : Int := 0
  events : List EventRecord := []
deriving DecidableEq, Repr

/-- The depletion draws of one `advance_time`. -/
structure Draws where
  buy : Nat := 0
  sell : Nat := 0
  scaled : Side → Nat → Nat → Int := fun _ _ _ => 0

def kStratBase : Nat := 2 ^ 62

variable {k : Nat}

def midOf (sim : ExecutionSimulator k) : Int :=
  let b := sim.book.best .buy
  let a := sim.book.best .sell
  if b = kNoTick ∨ a = kNoTick ∨ b ≤ 0 ∨ a ≤ 0 then 0 else (b + a) / 2

/-- The order of a `strat_limit` or `strat_ioc` row. -/
def inbound (r : Row) : SimInbound :=
  let order : SimInbound :=
    { ref := (r.ref + kStratBase) % 2 ^ 64, side := r.side, qty := r.qty, price := r.price
      type := if r.kind = .stratLimit then .dayLimit else .ioc }
  (applyFlagColumn r.flags order).getD order

variable (cfg : SimConfig)

/-- External time advances to the row's. -/
def advanceRow (d : Draws) (prevTs : Nat) (r : Row) (sim : ExecutionSimulator k) :
    ExecutionSimulator k :=
  if prevTs < r.ts then sim.advanceTime cfg (r.ts - prevTs) d.buy d.sell d.scaled else sim

/-- The row's action on the simulator, without the halts and resumes. -/
def actRow (r : Row) (sim : ExecutionSimulator k) : ExecutionSimulator k :=
  match r.kind with
  | .extAdd => (sim.seedExternal r.ref r.side r.qty r.price).2
  | .trade => sim.applyExternal cfg r.side.opp r.price r.qty
  | .stratCancel => (sim.cancelStrategy ((r.ref + kStratBase) % 2 ^ 64)).2
  | _ => (sim.submit cfg (inbound r) r.ts).2

/-- The log row of a fill that a resting order received. -/
def makerRow (rowTs : Nat) (mid : Int) (f : SimFillReport) : EventRecord :=
  { tsNs := rowTs, ref := f.ref, side := f.side, priceTicks := f.priceTicks, qty := f.qty
    feeCash := f.fee, midTicks := mid }

/-- The log row of a decision that filled: its average price, rounded to a tick. -/
def takerRow (rowTs : Nat) (mid : Int) (d : SimDecision) : EventRecord :=
  { tsNs := rowTs, ref := d.ref, side := d.side
    priceTicks := toI64 ((d.filledNotional + d.filledQty / 2) % 2 ^ 64 / d.filledQty)
    qty := d.filledQty, feeCash := feeBpsOf d.filledNotional cfg.takerFeeBps, midTicks := mid
    ledger := .taker, submitNs := d.decisionTs }

/-- The log row of a print. -/
def printRow (mid : Int) (r : Row) : EventRecord :=
  { type := .print, tsNs := r.ts, side := r.side, priceTicks := r.price, qty := r.qty
    midTicks := mid }

namespace Summary

def addMaker (rowTs : Nat) (mid : Int) (out : Summary) (f : SimFillReport) : Summary :=
  { out with
    events := out.events ++ [makerRow rowTs mid f]
    volumeTicks := out.volumeTicks + f.priceTicks * f.qty
    feesPaidCash := out.feesPaidCash + f.fee
    fills := out.fills + 1
    makerFills := out.makerFills + 1 }

def addTaker (rowTs : Nat) (mid : Int) (out : Summary) (d : SimDecision) : Summary :=
  if d.filledQty = 0 then out
  else
    { out with
      events := out.events ++ [takerRow cfg rowTs mid d]
      volumeTicks := out.volumeTicks + toI64 d.filledNotional
      feesPaidCash := out.feesPaidCash + feeBpsOf d.filledNotional cfg.takerFeeBps
      fills := out.fills + 1
      takerFills := out.takerFills + 1 }

end Summary

/-- The state of the row loop. -/
structure Loop (k : Nat) where
  sim : ExecutionSimulator k
  out : Summary := {}
  prevTs : Nat := 0

namespace Loop

/-- The end of a row that is not a halt or a resume: the engine drains, and what it has reported
is collected. -/
def collect (r : Row) (s : Loop k) : Loop k :=
  let seenDecisions := s.sim.log.decisions.length
  let sim := s.sim.drain cfg
  let mid := midOf sim
  let out := sim.log.reports.foldl (Summary.addMaker r.ts mid) s.out
  let sim := sim.clearReports
  let out := (sim.log.decisions.drop seenDecisions).foldl (Summary.addTaker cfg r.ts mid) out
  let out :=
    if r.kind = .trade ∧ ¬ sim.halted then { out with events := out.events ++ [printRow mid r] }
    else out
  { s with sim, out }

/-- One row of the script. -/
def step (d : Draws) (s : Loop k) (r : Row) : Loop k :=
  let out := { s.out with scriptRows := s.out.scriptRows + 1 }
  let sim := advanceRow cfg d s.prevTs r s.sim
  if r.kind = .halt then { sim := sim.setHalted true, out, prevTs := r.ts }
  else if r.kind = .resume then { sim := sim.setHalted false, out, prevTs := r.ts }
  else
    let sim := actRow cfg r sim
    let out :=
      if r.kind = .trade ∧ ¬ sim.halted then { out with prints := out.prints + 1 } else out
    ({ sim, out, prevTs := r.ts } : Loop k).collect cfg r

/-- The rows from row `i` on; `draws i` are the draws of row `i`. -/
def rows (draws : Nat → Draws) : Nat → List Row → Loop k → Loop k
  | _, [], s => s
  | i, r :: rs, s => rows draws (i + 1) rs (s.step cfg (draws i) r)

end Loop

/-- `simrun::run`: no summary for a script that is not accepted. -/
def run (k : Nat) (scriptText : List Char) (draws : Nat → Draws) : Option Summary :=
  (parseScript scriptText).map fun rows =>
    (Loop.rows cfg draws 0 rows { sim := (ExecutionSimulator.init cfg : ExecutionSimulator k) }).out

end SimRun

end Mog
