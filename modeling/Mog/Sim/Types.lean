import Mog.Book.OrderBook
import Mog.Sim.Scheduler

/-!
# The vocabulary of the simulator

Configuration, inbound orders, and the records the simulator keeps and reports.
Wire characters for a side are `Side` here. The random jitter of the latency
pipeline is an arbitrary stream of draws; the settings of the flow statistics
(intensities, excitement, momentum) and of the trace digest are left out, since
what they drive reaches the engine as drawn quantities only.

A reference below `externalRefLimit` belongs to a market participant and every other one to the
strategy, which is how the simulator tells them apart. Quantities of orders are 64-bit and those
of reports 32-bit, as in the source, and the narrowing is written where the source has it.
-/

namespace Mog

inductive SimOrderType where
  | dayLimit
  | market
  | ioc
  | postOnly
  | midpointPeg
  | primaryPeg
  | marketPeg
deriving DecidableEq, Repr

/-- Self-trade prevention, applied per potential match against a tracked victim. -/
inductive StpMode where
  | none
  /-- The incoming order stops matching; its remainder is cancelled. -/
  | cancelNewest
  /-- The resting victim is removed; the incoming order keeps matching. -/
  | cancelOldest
  /-- Both sides shrink by the would-be match. -/
  | decrement
deriving DecidableEq, Repr

/-- The price reference of a pegged order. -/
inductive Peg where
  | none
  | mid
  | bid
  | ask
deriving DecidableEq, Repr

structure SimConfig where
  book : BookConfig
  parseLatencyNs : Nat := 0
  decisionLatencyNs : Nat := 0
  wireLatencyNs : Nat := 0
  /-- The results of the successive calls of `draw_jitter`. -/
  jitter : Nat → Nat := fun _ => 0
  /-- References below this value belong to external liquidity. -/
  externalRefLimit : Nat := 2 ^ 62
  eventCapacity : Nat := 2 ^ 20
  makerFeeBps : Int := 0
  takerFeeBps : Int := 0
  depthDepletionLevels : Nat := 1
  /-- `depth_decay_alpha == 0.0`. -/
  depthDecayZero : Bool := false

structure SimInbound where
  ref : Nat := 0
  side : Side := .buy
  qty : Int := 0
  price : Int := 0
  type : SimOrderType := .dayLimit
  peg : Peg := .none
  pegOffsetTicks : Int := 0
  nonDisplayed : Bool := false
deriving DecidableEq, Repr, Inhabited

structure SimEvent where
  visibleTs : Nat := 0
  order : SimInbound := {}
deriving DecidableEq, Repr, Inhabited

structure IcebergSpec where
  ref : Nat
  side : Side
  price : Int
  display : Int
  total : Int
deriving DecidableEq, Repr

/-- A registered iceberg: the slice it shows and the reserve it hides. -/
structure Iceberg where
  ref : Nat
  side : Side
  priceTicks : Int
  display : Int
  hidden : Int
deriving DecidableEq, Repr

/-- An entry of the non-displayed ledger. -/
structure Hidden where
  ref : Nat
  side : Side
  priceTicks : Int
  qtyRemaining : Int
  peg : Peg
  pegOffset : Int
  pegged : Bool
deriving DecidableEq, Repr

/-- The tracker of an arena slot. -/
structure Tracked where
  ref : Nat := 0
  priceTicks : Int := 0
  qtyRemaining : Int := 0
  /-- Units queued before the order. -/
  qtyAhead : Int := 0
  side : Side := .buy
  live : Bool := false
  /-- The tracker is a member of its level's list. -/
  levelLinked : Bool := false
  levelNext : Nat := kNullIndex
  levelPrev : Nat := kNullIndex
deriving DecidableEq, Repr

/-- A level's list of trackers. -/
structure TrackLevel where
  price : Int := 0
  head : Nat := kNullIndex
  count : Nat := 0
  occupied : Bool := false
deriving DecidableEq, Repr

structure SimFillReport where
  visibleTs : Nat
  ref : Nat
  priceTicks : Int
  qty : Nat
  seq : Nat
  side : Side
  fee : Int
deriving DecidableEq, Repr

structure SimTrade where
  ts : Nat
  seq : Nat
  pxTicks : Int
  qty : Nat
  aggressorBuy : Bool
deriving DecidableEq, Repr

inductive DecisionKind where
  | rested
  | filled
  | partialThenRest
  | partialThenCancelled
  | rejectedWouldCross
  | rejectedStp
  | rejectedUnknown
deriving DecidableEq, Repr

structure SimDecision where
  kind : DecisionKind := .rejectedUnknown
  filledQty : Nat := 0
  cancelledQty : Nat := 0
  filledNotional : Nat := 0
  visibleTs : Nat := 0
  decisionTs : Nat := 0
  ref : Nat := 0
  side : Side := .buy
  seq : Nat := 0
  fee : Int := 0
deriving DecidableEq, Repr

/-- One execution against a resting order, displayed or not. The source keeps no such
record; it is what statements about "the executions of an event" refer to. -/
structure Execution where
  ref : Nat
  side : Side
  price : Int
  qty : Int
  displayed : Bool
deriving DecidableEq, Repr

/-- Signed basis points of a notional, truncated toward zero. -/
def feeBpsOf (notionalTicks : Nat) (bps : Int) : Int :=
  let mag : Nat := notionalTicks * bps.natAbs % 2 ^ 64 / 10000
  if bps < 0 then -(mag : Int) else mag

/-- `static_cast<uint64_t>(price) * static_cast<uint64_t>(qty)`. -/
def notionalOf (price qty : Int) : Nat := toU64 price * toU64 qty % 2 ^ 64

/-- What the simulator has reported, and the counters behind it. -/
structure FillLog where
  reports : List SimFillReport := []
  decisions : List SimDecision := []
  trades : List SimTrade := []
  totalFilledNotional : Nat := 0
  totalFees : Int := 0
  fillCount : Nat := 0
  naiveFilled : Nat := 0
  modelFilled : Nat := 0
  aggressiveFilled : Nat := 0
  seqCounter : Nat := 0
  nowHint : Nat := 0
  /-- The number of jitter draws made. -/
  drawn : Nat := 0
  /-- The executions so far, oldest first. -/
  executions : List Execution := []

namespace FillLog

variable (l : FillLog)

def drawJitter (cfg : SimConfig) : Nat × FillLog :=
  (cfg.jitter l.drawn, { l with drawn := l.drawn + 1 })

/-- Record an execution. -/
def execute (e : Execution) : FillLog := { l with executions := l.executions ++ [e] }

/-- A fill of a resting strategy order, settled at the maker rate. -/
def settle (cfg : SimConfig) (vis ref : Nat) (price qty : Int) (side : Side) : FillLog :=
  let notional := notionalOf price qty
  let fee := feeBpsOf notional cfg.makerFeeBps
  { l with
    reports := l.reports ++
      [{ visibleTs := vis, ref, priceTicks := price, qty := toU32 qty, seq := l.seqCounter + 1
         side, fee }]
    seqCounter := l.seqCounter + 1
    totalFilledNotional := (l.totalFilledNotional + notional) % 2 ^ 64
    totalFees := l.totalFees + fee
    fillCount := l.fillCount + 1
    modelFilled := (l.modelFilled + toU64 qty) % 2 ^ 64 }

def emitFill (cfg : SimConfig) (t : Tracked) (price qty : Int) (baseTs : Nat) : FillLog :=
  let r := l.drawJitter cfg
  r.2.settle cfg ((baseTs + cfg.wireLatencyNs + r.1) % 2 ^ 64) t.ref price qty t.side

def emitTrade (s : Side) (price qty : Int) : FillLog :=
  { l with
    seqCounter := l.seqCounter + 1
    trades := l.trades ++
      [{ ts := l.nowHint, seq := l.seqCounter + 1, pxTicks := price, qty := toU32 qty
         aggressorBuy := s = .sell }] }

def pushDecision (d : SimDecision) (vis ref : Nat) (side : Side) : FillLog :=
  let d := { d with ref, visibleTs := vis, side, seq := l.seqCounter + 1 }
  { l with
    seqCounter := l.seqCounter + 1
    totalFilledNotional := (l.totalFilledNotional + d.filledNotional) % 2 ^ 64
    totalFees := l.totalFees + d.fee
    fillCount := if 0 < d.filledQty then l.fillCount + 1 else l.fillCount
    decisions := l.decisions ++ [d] }

end FillLog

end Mog
