import Mog.Sim.Tracker

/-!
# The execution simulator

Inbound strategy orders reach their decision point through the scheduler, sweep the
opposite side of the book and rest there or in the non-displayed ledger; external
flow executes real heads of queues. Every function takes the configuration and
returns the simulator it leaves.

The sweep and the consumption of a level are loops that end on their own
conditions; here each also carries a bound, and the invariant shows that the bound
is not what ends it. Conservation checks, momentum and excitement touch nothing
else and are left out.
-/

namespace Mog

structure ExecutionSimulator (kPageShift : Nat) where
  book : OrderBook kPageShift
  wheel : Scheduler SimEvent
  track : TrackTable
  icebergs : List Iceberg := []
  /-- The non-displayed ledger, in time priority. -/
  hidden : List Hidden := []
  log : FillLog := {}
  halted : Bool := false
  stp : StpMode := .none
  extNow : Nat := 0

/-- A sweep under way. -/
structure Sweep (kPageShift : Nat) where
  sim : ExecutionSimulator kPageShift
  remaining : Int
  filled : Int := 0
  notional : Nat := 0
  /-- The buffer of touched levels with what was taken at each. -/
  touched : List (Int × Int) := []
  pendingOverflow : Int := 0
  pendingOverflowTake : Int := 0
  hasPendingOverflow : Bool := false

/-- How one pass of the sweep's loop ends. -/
inductive SweepStep (kPageShift : Nat) where
  | more (w : Sweep kPageShift)
  | leave
  | stpStop

/-- How the sweep's loop ends. -/
inductive SweepEnd where
  | done
  | stpStop
  | outOfFuel
deriving DecidableEq, Repr

/-- What `cross` returns and writes through its references. -/
structure CrossResult (kPageShift : Nat) where
  sim : ExecutionSimulator kPageShift
  filled : Int
  stpStop : Bool
  notionalOut : Nat

/-- Add to the take recorded for a price, when there is one. -/
def addTake (touch qty : Int) : List (Int × Int) → List (Int × Int)
  | [] => []
  | p :: l => if p.1 = touch then (p.1, p.2 + qty) :: l else p :: addTake touch qty l

namespace ExecutionSimulator

variable {kPageShift : Nat}

def init (cfg : SimConfig) : ExecutionSimulator kPageShift :=
  { book := OrderBook.init cfg.book
    wheel := Scheduler.init cfg.eventCapacity
    track := { size := cfg.book.arenaCapacity } }

variable (sim : ExecutionSimulator kPageShift) (cfg : SimConfig)

/-! ## Queries -/

def icebergIndexOf (ref : Nat) : Option Nat := sim.icebergs.findIdx? (fun ib => ib.ref = ref)

/-- The reserve of an iceberg; -1 when the registry does not have it. -/
def icebergHidden (ref : Nat) : Int :=
  match sim.icebergIndexOf ref with
  | none => -1
  | some i => (sim.icebergs[i]?.map Iceberg.hidden).getD (-1)

def trackedIndexOf (ref : Nat) : Nat :=
  let h := sim.book.findHandle ref
  if h.index = kNullIndex then kNullIndex
  else if (sim.track.tracked h.index).live then h.index else kNullIndex

/-- Modelled units queued ahead of a strategy order; -1 when it is not live. -/
def queueAheadOf (ref : Nat) : Int :=
  let idx := sim.trackedIndexOf ref
  if idx = kNullIndex then -1 else (sim.track.tracked idx).qtyAhead

def hiddenQtyAt (s : Side) (price : Int) : Int :=
  ((sim.hidden.filter (fun h => h.side = s ∧ h.priceTicks = price)).map Hidden.qtyRemaining).sum

/-! ## Seeding and submission -/

def seedExternal (ref : Nat) (s : Side) (qty price : Int) :
    BookTick × ExecutionSimulator kPageShift :=
  let r := sim.book.add ref s qty price
  (r.tick, { sim with book := r.book })

def seedIceberg (spec : IcebergSpec) : BookTick × ExecutionSimulator kPageShift :=
  let r := sim.book.add spec.ref spec.side spec.display spec.price
  let sim := { sim with book := r.book }
  if ¬ r.tick.ok then (r.tick, sim)
  else
    (r.tick, { sim with
      icebergs := sim.icebergs ++
        [{ ref := spec.ref, side := spec.side, priceTicks := spec.price, display := spec.display
           hidden := spec.total - spec.display }] })

/-- Schedule the decision of a strategy order; returns its timestamp. -/
def submit (order : SimInbound) (arrivalTs : Nat) : Nat × ExecutionSimulator kPageShift :=
  let r := sim.log.drawJitter cfg
  let decisionTs :=
    (arrivalTs + cfg.parseLatencyNs + cfg.decisionLatencyNs + r.1) % 2 ^ 64
  (decisionTs, { sim with
    log := r.2
    wheel := (sim.wheel.push decisionTs { visibleTs := decisionTs, order }).2 })

def setHalted (h : Bool) : ExecutionSimulator kPageShift := { sim with halted := h }

def setStpMode (m : StpMode) : ExecutionSimulator kPageShift := { sim with stp := m }

/-! ## The tracked book -/

/-- Execute `take` against the order `head`, mirror its tracker and report the fill when it
is a strategy order. The tracker's slot is captured before the reduction: a fully
consumed order has left the id table afterwards. -/
def reduceAndSync (s : Side) (head : Nat) (price take : Int) (viaExecuteFront : Bool)
    (hh : GenHandle) : ExecutionSimulator kPageShift :=
  let preLive := sim.track.isLive hh.index
  let r := if viaExecuteFront then sim.book.executeFront s price take else sim.book.execute head take
  let victim := if viaExecuteFront then r.victim.getD head else head
  let log := sim.log.execute { ref := head, side := s, price, qty := take, displayed := true }
  if ¬ preLive ∨ victim ≠ head then { sim with book := r.book, log }
  else
    let rem := r.book.remainingOf head
    let track := { sim.track with recentSync := sim.track.recentSync ++ [hh.index] }
    let track :=
      if rem = 0 then track.retire hh.index
      else track.modify hh.index (fun o => { o with qtyRemaining := rem, qtyAhead := 0 })
    { sim with
      book := r.book
      track
      log := log.emitFill cfg (track.tracked hh.index) price take log.nowHint }

/-- Swap-and-pop removal. -/
def dropIceberg (l : List Iceberg) (idx : Nat) : List Iceberg :=
  match l.getLast? with
  | none => l
  | some ib => (l.set idx ib).dropLast

/-- When the executed head was an iceberg slice consumed to empty, show the next slice at
the tail of the level. -/
def replenishIfIceberg (head : Nat) : ExecutionSimulator kPageShift :=
  match sim.icebergIndexOf head with
  | none => sim
  | some idx =>
      match sim.icebergs[idx]? with
      | none => sim
      | some ib =>
          if ib.hidden = 0 then sim
          else if (sim.book.findHandle head).index ≠ kNullIndex then sim
          else
            let slice := min ib.display ib.hidden
            let r := sim.book.add ib.ref ib.side slice ib.priceTicks
            let icebergs := sim.icebergs.set idx { ib with hidden := ib.hidden - slice }
            { sim with
              book := r.book
              icebergs := if ib.hidden - slice = 0 then dropIceberg icebergs idx else icebergs }

/-! ## The non-displayed ledger -/

def bestHiddenPrice (opp : Side) : Int :=
  sim.hidden.foldl (fun best h =>
    if h.side ≠ opp ∨ h.qtyRemaining = 0 then best
    else if best = kNoTick then h.priceTicks
    else if opp = .buy ∧ best < h.priceTicks then h.priceTicks
    else if opp = .sell ∧ h.priceTicks < best then h.priceTicks
    else best) kNoTick

def hiddenReference (peg : Peg) (offset : Int) : Int :=
  let b := sim.book.bestBid
  let a := sim.book.bestAsk
  match peg with
  | .bid => if b = kNoTick then kNoTick else b + offset
  | .ask => if a = kNoTick then kNoTick else a + offset
  | .mid => if b = kNoTick ∨ a = kNoTick then kNoTick else (b + a).tdiv 2 + offset
  | .none => kNoTick

/-- Reprice the pegged entries to their references, keeping time priority. -/
def repegHidden : ExecutionSimulator kPageShift :=
  { sim with
    hidden := sim.hidden.map (fun h =>
      if h.pegged then
        let px := sim.hiddenReference h.peg h.pegOffset
        if px ≠ kNoTick then { h with priceTicks := px } else h
      else h) }

end ExecutionSimulator

/-- The state of the loop of `tap_hidden` besides the ledger. -/
structure Tap where
  log : FillLog
  remaining : Int
  filled : Int := 0
  notional : Nat

/-- The loop of `tap_hidden` over the entries from some position on: those that stay. -/
def tapLoop (cfg : SimConfig) (s : Side) (price : Int) : List Hidden → Tap → List Hidden × Tap
  | [], t => ([], t)
  | h :: l, t =>
      if t.remaining ≤ 0 then (h :: l, t)
      else if h.side ≠ s ∨ h.priceTicks ≠ price then
        let r := tapLoop cfg s price l t
        (h :: r.1, r.2)
      else
        let take := min t.remaining h.qtyRemaining
        let log := t.log.execute { ref := h.ref, side := s, price, qty := take, displayed := false }
        let t : Tap :=
          { log := log.settle cfg log.nowHint h.ref price take s
            remaining := t.remaining - take
            filled := t.filled + take
            notional := (t.notional + notionalOf price take) % 2 ^ 64 }
        let r := tapLoop cfg s price l t
        if h.qtyRemaining - take = 0 then r
        else ({ h with qtyRemaining := h.qtyRemaining - take } :: r.1, r.2)

namespace ExecutionSimulator

variable {kPageShift : Nat} (sim : ExecutionSimulator kPageShift) (cfg : SimConfig)

/-- Consume hidden quantity on one side at one exact price, in time priority. -/
def tapHidden (s : Side) (price remaining : Int) (notional : Nat) :
    ExecutionSimulator kPageShift × Tap :=
  let r := tapLoop cfg s price sim.hidden { log := sim.log, remaining, notional }
  ({ sim with hidden := r.1, log := r.2.log }, r.2)

/-! ## External flow -/

/-- The loop of `consume_level`; `applied` units of `q` are gone. -/
def consumeLoop (s : Side) (price q : Int) : Nat → Int → ExecutionSimulator kPageShift →
    ExecutionSimulator kPageShift × Int
  | 0, applied, sim => (sim, applied)
  | fuel + 1, applied, sim =>
      if q ≤ applied then (sim, applied)
      else
        let head := sim.book.frontRef s price
        if head = 0 then (sim, applied)
        else
          let hh := sim.book.findHandle head
          let take := min (q - applied) (sim.book.remainingOfHandle hh)
          consumeLoop s price q fuel (applied + take)
            ((sim.reduceAndSync cfg s head price take true hh).replenishIfIceberg head)

/-- Apply `q` units of external flow at an exact level. -/
def consumeLevel (s : Side) (price q : Int) : ExecutionSimulator kPageShift :=
  let track := { sim.track with recentSync := [] }
  let track := track.subtractLevel sim.book s price q false
  let r := consumeLoop cfg s price q q.toNat 0 { sim with track }
  if 0 < r.2 then { r.1 with log := r.1.log.emitTrade s price r.2 } else r.1

/-- Inject an observed external execution at an exact level. -/
def applyExternal (s : Side) (price qty : Int) : ExecutionSimulator kPageShift :=
  if sim.halted then sim
  else
    let sim := sim.repegHidden
    let avail := sim.book.qtyAt s price
    let sim := sim.consumeLevel cfg s price (min qty avail)
    if avail < qty then (sim.tapHidden cfg s price (qty - avail) 0).1 else sim

/-- The loop of the depth depletion: level number `lvl`, standing at `tick`, `rem` units left.
`scaled lvl rem` is the drawn quantity weighted for the level. -/
def depleteLoop (s : Side) (scaled : Nat → Nat → Int) :
    Nat → Nat → Int → Nat → ExecutionSimulator kPageShift → ExecutionSimulator kPageShift
  | 0, _, _, _, sim => sim
  | fuel + 1, lvl, tick, rem, sim =>
      if tick = kNoTick ∨ rem = 0 then sim
      else
        let avail := sim.book.qtyAt s tick
        let applied := if 0 < avail then min (max 1 (scaled lvl rem)) avail else 0
        let sim := if 0 < applied then sim.consumeLevel cfg s tick applied else sim
        let rem := if 0 < applied then rem - toU64 applied else rem
        let tick := match s with
          | .buy => sim.book.nextPriceBelow s tick
          | .sell => sim.book.nextPriceAbove s tick
        depleteLoop s scaled fuel (lvl + 1) tick rem sim

/-- Deplete one side by a drawn quantity, at the touch or over several levels. -/
def applyDepletion (s : Side) (qty : Nat) (scaled : Nat → Nat → Int) :
    ExecutionSimulator kPageShift :=
  if qty = 0 then sim
  else if cfg.depthDepletionLevels ≤ 1 ∨ cfg.depthDecayZero then
    let touch := sim.book.best s
    if touch = kNoTick then sim
    else
      let applied := min (toI64 qty) (sim.book.qtyAt s touch)
      if applied ≤ 0 then sim else sim.consumeLevel cfg s touch applied
  else
    depleteLoop cfg s scaled cfg.depthDepletionLevels 0 (sim.book.best s) qty sim

/-- Advance external time; the quantities drawn for the two sides are arguments. -/
def advanceTime (dtNs : Nat) (drawnBuy drawnSell : Nat) (scaled : Side → Nat → Nat → Int) :
    ExecutionSimulator kPageShift :=
  if dtNs = 0 ∨ sim.halted then sim
  else
    let extNow := (sim.extNow + dtNs) % 2 ^ 64
    let sim := { sim with extNow, log := { sim.log with nowHint := extNow } }
    let sim := sim.applyDepletion cfg .buy drawnBuy (scaled .buy)
    sim.applyDepletion cfg .sell drawnSell (scaled .sell)

/-! ## Cancel and replace -/

/-- Remove the first ledger entry of `ref`. -/
def eraseHidden (ref : Nat) : List Hidden → List Hidden
  | [] => []
  | h :: l => if h.ref = ref then l else h :: eraseHidden ref l

def cancelStrategy (ref : Nat) : Bool × ExecutionSimulator kPageShift :=
  let idx := sim.trackedIndexOf ref
  if idx = kNullIndex then
    if sim.hidden.any (fun h => h.ref = ref) then
      (true, { sim with
        hidden := eraseHidden ref sim.hidden
        log := { sim.log with seqCounter := sim.log.seqCounter + 1 } })
    else (false, sim)
  else
    let r := sim.book.remove ref
    if ¬ r.tick.ok then (false, { sim with book := r.book })
    else
      let o := sim.track.tracked idx
      let track := (sim.track.retire idx).recomputePositions r.book o.side o.priceTicks
      (true, { sim with book := r.book, track })

/-- Rewrite the first ledger entry of `orig`. -/
def replaceHidden (orig fresh : Nat) (qty price : Int) : List Hidden → List Hidden
  | [] => []
  | h :: l =>
      if h.ref = orig then { h with ref := fresh, priceTicks := price, qtyRemaining := qty } :: l
      else h :: replaceHidden orig fresh qty price l

def replaceStrategy (orig fresh : Nat) (qty price : Int) :
    BookTick × ExecutionSimulator kPageShift :=
  let sideC := sim.book.sideOf orig
  let idx := sim.trackedIndexOf orig
  if idx = kNullIndex then
    match sim.hidden.find? (fun h => h.ref = orig) with
    | some h =>
        ({ priceTicks := price, qty := toU32 qty, kind := .replaced, side := some h.side },
          { sim with
            hidden := replaceHidden orig fresh qty price sim.hidden
            log := { sim.log with seqCounter := sim.log.seqCounter + 1 } })
    | none => ({}, sim)
  else
    match sideC with
    | none => ({}, sim)
    | some s =>
        let oldPx := (sim.track.tracked idx).priceTicks
        let r := sim.book.replace orig fresh qty price
        if ¬ r.tick.ok then (r.tick, { sim with book := r.book })
        else
          let track := (sim.track.retire idx).trackResting r.book fresh s qty price
          let track :=
            if oldPx ≠ price then track.recomputePositions r.book s oldPx else track
          (r.tick, { sim with book := r.book, track })

/-! ## The sweep -/

end ExecutionSimulator

namespace Sweep

variable {kPageShift : Nat} (w : Sweep kPageShift) (cfg : SimConfig)

/-- Record the take at a level; past the buffer's eight levels one overflow slot is left. -/
def noteTake (opp : Side) (touch qty : Int) : Sweep kPageShift :=
  if w.touched.any (fun p => p.1 = touch) then { w with touched := addTake touch qty w.touched }
  else if w.touched.length < 8 then { w with touched := w.touched ++ [(touch, qty)] }
  else
    let sim :=
      if w.hasPendingOverflow ∧ w.pendingOverflow ≠ touch then
        { w.sim with
          track := w.sim.track.subtractLevel w.sim.book opp w.pendingOverflow
            w.pendingOverflowTake true }
      else w.sim
    -- the slot's price is overwritten before it is compared
    let pendingOverflow := touch
    { w with
      sim
      pendingOverflow
      pendingOverflowTake :=
        if w.hasPendingOverflow ∧ pendingOverflow = touch then w.pendingOverflowTake + qty else qty
      hasPendingOverflow := true }

/-- Tap the ledger at a price. -/
def tap (opp : Side) (price : Int) : Sweep kPageShift :=
  let r := w.sim.tapHidden cfg opp price w.remaining w.notional
  { w with
    sim := r.1
    remaining := r.2.remaining
    filled := w.filled + r.2.filled
    notional := r.2.notional }

/-- Cancel-oldest: the resting victim leaves, the incoming order goes on. -/
def removeVictim (opp : Side) (touch : Int) (head : Nat) (hh : GenHandle) (headRem : Int) :
    Sweep kPageShift :=
  ({ w with
    sim := { w.sim with
      book := (w.sim.book.remove head).book
      track := w.sim.track.retire hh.index } } : Sweep kPageShift).noteTake opp touch headRem

/-- Count `d` units executed at `touch`. -/
def count (touch d : Int) : Sweep kPageShift :=
  { w with
    notional := (w.notional + notionalOf d touch) % 2 ^ 64
    filled := w.filled + d
    remaining := w.remaining - d }

/-- Decrement: both sides shrink by the mutual minimum. -/
def decrementVictim (opp : Side) (touch : Int) (head : Nat) (hh : GenHandle) (headRem : Int) :
    Sweep kPageShift :=
  let d := min headRem w.remaining
  let w := { w with sim := w.sim.reduceAndSync cfg opp head touch d false hh }
  let w := w.noteTake opp touch d
  let w := { w with sim := w.sim.replenishIfIceberg head }
  w.count touch d

/-- A match with the head of the touch, then the non-displayed quantity at its price. -/
def executeHead (opp : Side) (touch : Int) (head : Nat) (hh : GenHandle) (headRem : Int) :
    Sweep kPageShift :=
  let take := min w.remaining headRem
  let w := w.noteTake opp touch take
  let w := { w with sim := w.sim.reduceAndSync cfg opp head touch take true hh }
  let w := { w with sim := w.sim.replenishIfIceberg head }
  let w := w.count touch take
  if 0 < w.remaining then w.tap cfg opp touch else w

/-- `price` lies beyond the bound of `order`. -/
def beyond (order : SimInbound) (price : Int) : Prop :=
  order.type ≠ .market ∧
    match order.side with
    | .buy => order.price < price
    | .sell => price < order.price

instance (order : SimInbound) (price : Int) : Decidable (beyond order price) := by
  unfold beyond; cases order.side <;> infer_instance

/-- Hidden quantity at `hBest` comes before displayed quantity at `touch`. -/
def hiddenBetter (side : Side) (hBest touch : Int) : Prop :=
  hBest ≠ kNoTick ∧
    (touch = kNoTick ∨
      match side with
      | .buy => hBest < touch
      | .sell => touch < hBest)

instance (side : Side) (hBest touch : Int) : Decidable (hiddenBetter side hBest touch) := by
  unfold hiddenBetter; cases side <;> infer_instance

/-- One pass of the sweep's loop. -/
def step (order : SimInbound) : SweepStep kPageShift :=
  let opp := order.side.opp
  let hBest := w.sim.bestHiddenPrice opp
  let touch := w.sim.book.best opp
  if hiddenBetter order.side hBest touch then
    if beyond order hBest then .leave else .more (w.tap cfg opp hBest)
  else if touch = kNoTick then .leave
  else if beyond order touch then .leave
  else
    let head := w.sim.book.frontRef opp touch
    if head = 0 then .leave
    else
      let hh := w.sim.book.findHandle head
      let headRem := w.sim.book.remainingOfHandle hh
      if w.sim.track.isLive hh.index then
        match w.sim.stp with
        | .none => .more (w.executeHead cfg opp touch head hh headRem)
        | .cancelNewest => .stpStop
        | .cancelOldest => .more (w.removeVictim opp touch head hh headRem)
        | .decrement => .more (w.decrementVictim cfg opp touch head hh headRem)
      else .more (w.executeHead cfg opp touch head hh headRem)

/-- The sweep's loop. -/
def loop (order : SimInbound) : Nat → Sweep kPageShift → Sweep kPageShift × SweepEnd
  | 0, w => (w, .outOfFuel)
  | fuel + 1, w =>
      if w.remaining ≤ 0 then (w, .done)
      else
        match w.step cfg order with
        | .more w' => loop order fuel w'
        | .leave => (w, .done)
        | .stpStop => (w, .stpStop)

/-- The post-pass: one subtraction per touched level. -/
def settle (opp : Side) : ExecutionSimulator kPageShift :=
  let track := w.sim.track
  let track :=
    if w.hasPendingOverflow then
      track.subtractLevel w.sim.book opp w.pendingOverflow w.pendingOverflowTake true
    else track
  { w.sim with
    track := w.touched.foldl (fun t p => t.subtractLevel w.sim.book opp p.1 p.2 true) track }

/-- A bound on the passes of the loop: every pass lowers it. -/
def fuel : Nat :=
  w.remaining.toNat + (w.sim.hidden.map (fun h => 1 + (-h.qtyRemaining).toNat)).sum
    + w.sim.book.liveOrders + 1

end Sweep

namespace ExecutionSimulator

variable {kPageShift : Nat} (sim : ExecutionSimulator kPageShift) (cfg : SimConfig)

/-- Cross an aggressive remainder against the opposite side. The early return of the
cancel-newest mode skips the post-pass and leaves the notional unwritten. -/
def cross (order : SimInbound) (remaining : Int) : CrossResult kPageShift :=
  let w : Sweep kPageShift :=
    { sim := { sim with track := { sim.track with recentSync := [] } }, remaining }
  let r := Sweep.loop cfg order w.fuel w
  match r.2 with
  | .stpStop => { sim := r.1.sim, filled := r.1.filled, stpStop := true, notionalOut := 0 }
  | _ =>
      { sim := r.1.settle order.side.opp, filled := r.1.filled, stpStop := false
        notionalOut := r.1.notional }

/-! ## Decisions -/

/-- The peg that an order's type implies. -/
def resolvePeg (order : SimInbound) : SimInbound :=
  match order.type with
  | .midpointPeg => { order with peg := .mid, nonDisplayed := true }
  | .primaryPeg =>
      { order with peg := if order.side = .buy then .bid else .ask, nonDisplayed := true }
  | .marketPeg =>
      { order with peg := if order.side = .buy then .ask else .bid, nonDisplayed := true }
  | _ => order

def withLog (f : FillLog → FillLog) : ExecutionSimulator kPageShift := { sim with log := f sim.log }

def pushDecision (d : SimDecision) (vis : Nat) (order : SimInbound) :
    ExecutionSimulator kPageShift :=
  sim.withLog (fun l => l.pushDecision d vis order.ref order.side)

/-- The opposite touch is inside the order's bound. -/
def touches (order : SimInbound) : Prop :=
  sim.book.best order.side.opp ≠ kNoTick ∧
    match order.side with
    | .buy => sim.book.best order.side.opp ≤ order.price
    | .sell => order.price ≤ sim.book.best order.side.opp

instance (order : SimInbound) : Decidable (sim.touches order) := by
  unfold touches; cases order.side <;> infer_instance

def crosses (order : SimInbound) : Prop :=
  sim.halted = false ∧
    (order.type = .market ∨
      (sim.touches order ∧
        (order.type = .ioc ∨ order.type = .dayLimit ∨ order.type = .postOnly)))

instance (order : SimInbound) : Decidable (sim.crosses order) :=
  inferInstanceAs (Decidable (_ ∧ _))

/-- The order types whose remainder rests. -/
def restsAfter (type : SimOrderType) : Prop :=
  type = .dayLimit ∨ type = .postOnly ∨ type = .midpointPeg ∨ type = .primaryPeg
    ∨ type = .marketPeg

instance (type : SimOrderType) : Decidable (restsAfter type) := inferInstanceAs (Decidable (_ ∨ _))

/-- The kind of a decision whose remainder rests. -/
def restKind (d : SimDecision) : DecisionKind :=
  if 0 < d.filledQty then .partialThenRest else .rested

/-- What `decide` does with the remainder once nothing more executes. -/
def finish (order : SimInbound) (remaining : Int) (out : SimDecision) (vis : Nat) :
    ExecutionSimulator kPageShift :=
  let rests := restsAfter order.type ∧ 0 < remaining
  let goesHidden := order.nonDisplayed = true ∨ order.peg ≠ .none
  if rests ∧ ¬ goesHidden then
    let r := sim.book.add order.ref order.side remaining order.price
    let sim := { sim with book := r.book }
    if ¬ r.tick.ok then sim.pushDecision { out with kind := .rejectedUnknown } vis order
    else
      let track := sim.track.trackResting sim.book order.ref order.side remaining order.price
      ({ sim with track } : ExecutionSimulator kPageShift).pushDecision
        { out with kind := restKind out } vis order
  else if rests then
    let hidden := sim.hidden ++
      [{ ref := order.ref, side := order.side, priceTicks := order.price, qtyRemaining := remaining
         peg := order.peg, pegOffset := order.pegOffsetTicks, pegged := order.peg ≠ .none }]
    ({ sim with hidden } : ExecutionSimulator kPageShift).pushDecision
      { out with kind := restKind out } vis order
  else
    let out := if 0 < remaining then { out with cancelledQty := toU32 remaining } else out
    let fully := out.cancelledQty = 0 ∧ remaining = 0
    let kind := if 0 < out.filledQty ∧ fully then .filled else .partialThenCancelled
    sim.pushDecision { out with kind } vis order

/-- The decision's record of a sweep that filled `got` units. -/
def sweepDecision (decisionTs : Nat) (got : Int) (notional : Nat) : SimDecision :=
  { decisionTs, filledQty := toU32 got, filledNotional := notional
    fee := feeBpsOf notional cfg.takerFeeBps }

/-- Sweep, then place the remainder. -/
def sweep (order : SimInbound) (decisionTs vis : Nat) : ExecutionSimulator kPageShift :=
  let c := sim.cross cfg order order.qty
  let remaining := order.qty - c.filled
  let out := sweepDecision cfg decisionTs c.filled c.notionalOut
  let sim := c.sim.withLog (fun l =>
    { l with
      naiveFilled := (l.naiveFilled + toU64 order.qty) % 2 ^ 64
      modelFilled := (l.modelFilled + toU64 c.filled) % 2 ^ 64
      aggressiveFilled := (l.aggressiveFilled + toU64 c.filled) % 2 ^ 64 })
  if c.stpStop then
    sim.pushDecision { out with kind := .rejectedStp, cancelledQty := toU32 remaining } vis order
  else sim.finish order remaining out vis

/-- `decide` once the order's peg and price are resolved. -/
def decideResolved (order : SimInbound) (decisionTs : Nat) : ExecutionSimulator kPageShift :=
  let r := sim.log.drawJitter cfg
  let vis := (decisionTs + cfg.wireLatencyNs + r.1) % 2 ^ 64
  let sim := { sim with log := r.2 }
  if (sim.book.findHandle order.ref).index ≠ kNullIndex then sim.pushDecision {} vis order
  else if order.type = .postOnly ∧ sim.crosses order then
    sim.pushDecision { kind := .rejectedWouldCross } vis order
  else if sim.crosses order ∧ 0 < order.qty then sim.sweep cfg order decisionTs vis
  else sim.finish order order.qty { decisionTs } vis

/-- An inbound order reaches its decision point. -/
def decide (order : SimInbound) (decisionTs : Nat) : ExecutionSimulator kPageShift :=
  let sim := (sim.withLog (fun l => { l with nowHint := decisionTs })).repegHidden
  let order := resolvePeg order
  if order.peg ≠ .none then
    let px := sim.hiddenReference order.peg order.pegOffsetTicks
    if px = kNoTick then
      let r := sim.log.drawJitter cfg
      let sim := { sim with log := r.2 }
      sim.pushDecision {} ((decisionTs + cfg.wireLatencyNs + r.1) % 2 ^ 64) order
    else sim.decideResolved cfg { order with price := px } decisionTs
  else sim.decideResolved cfg order decisionTs

/-- The loop of `run_until`; every pass takes one event off the scheduler. -/
def runLoop (untilTs : Nat) : Nat → ExecutionSimulator kPageShift → ExecutionSimulator kPageShift
  | 0, sim => sim
  | fuel + 1, sim =>
      if ¬ sim.wheel.empty ∧ sim.wheel.peekMinTs ≤ untilTs then
        let r := sim.wheel.popMin
        runLoop untilTs fuel
          (({ sim with wheel := r.2 } : ExecutionSimulator kPageShift).decide cfg r.1.order
            r.1.visibleTs)
      else sim

/-- Process every decision scheduled at or before `untilTs`. -/
def runUntil (untilTs : Nat) : ExecutionSimulator kPageShift :=
  runLoop cfg untilTs sim.wheel.heapSize sim

def drain : ExecutionSimulator kPageShift := sim.runUntil cfg (2 ^ 64 - 1)

/-- The exact-walk twin. -/
def recomputeAllTracked : ExecutionSimulator kPageShift :=
  { sim with track := sim.track.recomputeAll sim.book }

end ExecutionSimulator

end Mog
