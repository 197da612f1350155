import Mog.Book.Front
import Mog.Sim.Trade

/-!
# The simulator's own checks

The sources guard the simulator with contract checks that the definitions of the calls leave
out. Here every function has its own predicate, the conjunction of the conditions checked on
the way through it, those of the book and of the scheduler included. A loop's predicate
follows the loop.

The predicates follow the functions line by line: a check on a value that a function has
computed is stated about that value, and a check in a callee is the callee's predicate at the
arguments it is called with. Nothing is proved here; whether a run trips a check is the next
file's question.
-/

namespace Mog

open TrackTable

namespace Scheduler

variable {α : Type} (w : Scheduler α)

/-- The checks of `push`: room for one more event, and a slot for it. -/
structure PushOk : Prop where
  room : w.heapSize < w.capacity
  slot : w.freeHead = kNullIndex → w.watermark < w.capacity

/-- The checks of `pop_min`: there is an event, and none of those left sorts before it. -/
structure PopOk : Prop where
  pre : ¬ w.empty
  post : w.popMin.2.empty ∨ ¬ entryLess (w.popMin.2.heap 0) (w.heap 0)

end Scheduler

namespace OrderBook

variable {k : Nat} (b : OrderBook k)

/-- The slots a walk along a level reads. -/
def WalkOk (s : Side) (price : Int) : Prop := ∀ i ∈ b.levelSlots s price, b.arena.AtIndexOk i

/-- The slot `front_ref` reads. -/
def FrontRefOk (s : Side) (price : Int) : Prop :=
  ∀ lv, (b.ladderFor s).peek price = some lv → lv.head ≠ kNullIndex → b.arena.AtIndexOk lv.head

/-- The head of a level is looked up, asserted to be there, and its remainder read. -/
structure HeadOk (head : Nat) : Prop where
  lookup : IdFindSlotOk head
  found : (b.findHandle head).index ≠ kNullIndex
  handle : b.arena.HandleOk (b.findHandle head)

end OrderBook

namespace TrackTable

variable {k : Nat} (t : TrackTable)

/-- `subtract_level` walks a level that has no entry. -/
def SubtractOk (b : OrderBook k) (s : Side) (price : Int) : Prop :=
  t.levelFind s price = none → t.isFallbackLevel s price → b.WalkOk s price

/-- `track_resting` looks up the order that has come to rest, and asserts that it is there. -/
structure TrackRestingOk (b : OrderBook k) (ref : Nat) : Prop where
  lookup : OrderBook.IdFindSlotOk ref
  found : (b.findHandle ref).index ≠ kNullIndex

/-- `conservation_ok` looks up the reference of every live tracker it verifies. -/
def ConservationOk : Prop := ∀ i, (t.tracked i).live = true → OrderBook.IdFindSlotOk (t.tracked i).ref

end TrackTable

namespace ExecutionSimulator

variable {k : Nat} (sim : ExecutionSimulator k) (cfg : SimConfig)

/-- The result of the execution inside `reduce_and_sync`. -/
def executeVia (s : Side) (head : Nat) (price take : Int) (via : Bool) : BookResult k :=
  if via then sim.book.executeFront s price take else sim.book.execute head take

/-- The checks of `reduce_and_sync`. -/
structure ReduceAndSyncOk (s : Side) (head : Nat) (price take : Int) (via : Bool)
    (hh : GenHandle) : Prop where
  front : via = true → sim.book.ExecuteFrontOk s price take
  named : via = false → sim.book.ExecuteOk head take
  done : (sim.executeVia s head price take via).tick.ok
  lookup : sim.track.isLive hh.index → OrderBook.IdFindSlotOk head

/-- The checks of `replenish_if_iceberg`: the slice has a quantity, and comes to rest. -/
def ReplenishOk (head : Nat) : Prop :=
  ∀ ib, sim.registered head = some ib → ib.hidden ≠ 0 →
    OrderBook.IdFindSlotOk head ∧ ((sim.book.findHandle head).index = kNullIndex →
      0 < nextSlice ib ∧ sim.book.AddOk ib.ref ib.side (nextSlice ib) ib.priceTicks
        ∧ (sim.book.add ib.ref ib.side (nextSlice ib) ib.priceTicks).tick.ok)

/-- The checks of the loop of `consume_level`; when no pass is left it is over. -/
def ConsumeLoopOk (s : Side) (price q : Int) : Nat → Int → ExecutionSimulator k → Prop
  | 0, applied, _ => q ≤ applied
  | fuel + 1, applied, sim =>
      applied < q → sim.book.FrontRefOk s price ∧ (sim.book.frontRef s price ≠ 0 →
        let head := sim.book.frontRef s price
        let hh := sim.book.findHandle head
        let take := min (q - applied) (sim.book.remainingOfHandle hh)
        sim.book.HeadOk head ∧ 0 < take ∧ sim.ReduceAndSyncOk s head price take true hh
          ∧ (sim.reduceAndSync cfg s head price take true hh).ReplenishOk head
          ∧ ConsumeLoopOk s price q fuel (applied + take)
            ((sim.reduceAndSync cfg s head price take true hh).replenishIfIceberg head))

/-- The checks of `consume_level`. -/
structure ConsumeLevelOk (s : Side) (price q : Int) : Prop where
  subtract : ({ sim.track with recentSync := [] } : TrackTable).SubtractOk sim.book s price
  loop : ConsumeLoopOk cfg s price q q.toNat 0
    { sim with
      track := ({ sim.track with recentSync := [] } : TrackTable).subtractLevel sim.book s price q
        false }
  conservation : (sim.consumeLevel cfg s price q).track.ConservationOk

/-- The checks of `apply_external`. -/
structure ApplyExternalOk (s : Side) (price qty : Int) : Prop where
  pre : 0 < qty
  consume : sim.halted = false →
    sim.repegHidden.ConsumeLevelOk cfg s price (min qty (sim.repegHidden.book.qtyAt s price))

/-- The checks of the loop of the depth depletion. -/
def DepleteLoopOk (s : Side) (scaled : Nat → Nat → Int) :
    Nat → Nat → Int → Nat → ExecutionSimulator k → Prop
  | 0, _, _, _, _ => True
  | fuel + 1, lvl, tick, rem, sim =>
      ¬ (tick = kNoTick ∨ rem = 0) →
        let avail := sim.book.qtyAt s tick
        let applied := if 0 < avail then min (max 1 (scaled lvl rem)) avail else 0
        let sim' := if 0 < applied then sim.consumeLevel cfg s tick applied else sim
        (0 < applied → sim.ConsumeLevelOk cfg s tick applied)
          ∧ DepleteLoopOk s scaled fuel (lvl + 1)
            (match s with
              | .buy => sim'.book.nextPriceBelow s tick
              | .sell => sim'.book.nextPriceAbove s tick)
            (if 0 < applied then rem - toU64 applied else rem) sim'

/-- The checks of `apply_depletion`. -/
def ApplyDepletionOk (s : Side) (qty : Nat) (scaled : Nat → Nat → Int) : Prop :=
  qty ≠ 0 →
    if cfg.depthDepletionLevels ≤ 1 ∨ cfg.depthDecayZero then
      let applied := min (toI64 qty) (sim.book.qtyAt s (sim.book.best s))
      sim.book.best s ≠ kNoTick → 0 < applied →
        sim.ConsumeLevelOk cfg s (sim.book.best s) applied
    else DepleteLoopOk cfg s scaled cfg.depthDepletionLevels 0 (sim.book.best s) qty sim

/-- The checks of `advance_time`. -/
def AdvanceTimeOk (dtNs drawnBuy drawnSell : Nat) (scaled : Side → Nat → Nat → Int) : Prop :=
  ¬ (dtNs = 0 ∨ sim.halted = true) →
    let extNow := (sim.extNow + dtNs) % 2 ^ 64
    let sim1 : ExecutionSimulator k :=
      { sim with extNow, log := { sim.log with nowHint := extNow } }
    let sim2 := sim1.applyDepletion cfg .buy drawnBuy (scaled .buy)
    sim1.ApplyDepletionOk cfg .buy drawnBuy (scaled .buy)
      ∧ sim2.ApplyDepletionOk cfg .sell drawnSell (scaled .sell)
      ∧ (sim2.applyDepletion cfg .sell drawnSell (scaled .sell)).track.ConservationOk

/-- The checks of `cancel_strategy`. -/
structure CancelStrategyOk (ref : Nat) : Prop where
  lookup : OrderBook.IdFindSlotOk ref
  remove : sim.trackedIndexOf ref ≠ kNullIndex → sim.book.RemoveOk ref
  walk : sim.trackedIndexOf ref ≠ kNullIndex → (sim.book.remove ref).tick.ok →
    (sim.book.remove ref).book.WalkOk (sim.track.tracked (sim.trackedIndexOf ref)).side
      (sim.track.tracked (sim.trackedIndexOf ref)).priceTicks

/-- The checks of `replace_strategy`. -/
structure ReplaceStrategyOk (orig fresh : Nat) (qty price : Int) : Prop where
  pre : cfg.externalRefLimit ≤ fresh
  lookup : OrderBook.IdFindSlotOk orig
  replace : sim.trackedIndexOf orig ≠ kNullIndex → sim.book.ReplaceOk orig fresh qty price
  track : sim.trackedIndexOf orig ≠ kNullIndex → (sim.book.replace orig fresh qty price).tick.ok →
    TrackRestingOk (sim.book.replace orig fresh qty price).book fresh
  walk : sim.trackedIndexOf orig ≠ kNullIndex → (sim.book.replace orig fresh qty price).tick.ok →
    ∀ s, sim.book.sideOf orig = some s →
      (sim.track.tracked (sim.trackedIndexOf orig)).priceTicks ≠ price →
      (sim.book.replace orig fresh qty price).book.WalkOk s
        (sim.track.tracked (sim.trackedIndexOf orig)).priceTicks

/-- The checks of what `decide` does with a remainder. -/
def FinishOk (order : SimInbound) (remaining : Int) : Prop :=
  (restsAfter order.type ∧ 0 < remaining) → ¬ (order.nonDisplayed = true ∨ order.peg ≠ .none) →
    sim.book.AddOk order.ref order.side remaining order.price
      ∧ ((sim.book.add order.ref order.side remaining order.price).tick.ok →
        TrackRestingOk (sim.book.add order.ref order.side remaining order.price).book order.ref)

end ExecutionSimulator

namespace Sweep

variable {k : Nat} (w : Sweep k) (cfg : SimConfig)

/-- The checks of `note_take`: past the buffer, the level in the overflow slot is subtracted. -/
def NoteTakeOk (opp : Side) (touch : Int) : Prop :=
  w.touched.any (fun p => p.1 = touch) = false → 8 ≤ w.touched.length →
    w.hasPendingOverflow = true → w.pendingOverflow ≠ touch →
      w.sim.track.SubtractOk w.sim.book opp w.pendingOverflow

/-- The checks of a match with the head of the touch. -/
def ExecuteHeadOk (opp : Side) (touch : Int) (head : Nat) (hh : GenHandle) (headRem : Int) : Prop :=
  let take := min w.remaining headRem
  let w1 := w.noteTake opp touch take
  0 < take ∧ w.NoteTakeOk opp touch ∧ w1.sim.ReduceAndSyncOk opp head touch take true hh
    ∧ (w1.sim.reduceAndSync cfg opp head touch take true hh).ReplenishOk head

/-- The checks of a victim's removal. -/
def RemoveVictimOk (opp : Side) (touch : Int) (head : Nat) (hh : GenHandle) : Prop :=
  w.sim.book.RemoveOk head
    ∧ ({ w with
        sim := { w.sim with
          book := (w.sim.book.remove head).book
          track := w.sim.track.retire hh.index } } : Sweep k).NoteTakeOk opp touch

/-- The checks of a mutual decrement. -/
def DecrementVictimOk (opp : Side) (touch : Int) (head : Nat) (hh : GenHandle) (headRem : Int) :
    Prop :=
  let d := min headRem w.remaining
  let w1 : Sweep k := { w with sim := w.sim.reduceAndSync cfg opp head touch d false hh }
  w.sim.ReduceAndSyncOk opp head touch d false hh ∧ w1.NoteTakeOk opp touch
    ∧ (w1.noteTake opp touch d).sim.ReplenishOk head

/-- The checks of a match, by what self-trade prevention makes of it. -/
def MatchOk (opp : Side) (touch : Int) (head : Nat) (hh : GenHandle) (headRem : Int) : Prop :=
  if w.sim.track.isLive hh.index then
    match w.sim.stp with
    | .none => w.ExecuteHeadOk cfg opp touch head hh headRem
    | .cancelNewest => True
    | .cancelOldest => w.RemoveVictimOk opp touch head hh
    | .decrement => w.DecrementVictimOk cfg opp touch head hh headRem
  else w.ExecuteHeadOk cfg opp touch head hh headRem

/-- The checks of one pass of the sweep's loop. -/
def StepOk (order : SimInbound) : Prop :=
  let opp := order.side.opp
  let touch := w.sim.book.best opp
  ¬ hiddenBetter order.side (w.sim.bestHiddenPrice opp) touch → touch ≠ kNoTick →
    ¬ beyond order touch → w.sim.book.FrontRefOk opp touch ∧
      (w.sim.book.frontRef opp touch ≠ 0 →
        let head := w.sim.book.frontRef opp touch
        let hh := w.sim.book.findHandle head
        w.sim.book.HeadOk head
          ∧ w.MatchOk cfg opp touch head hh (w.sim.book.remainingOfHandle hh))

/-- The checks of the sweep's loop, which is over before the passes are. -/
def LoopOk (order : SimInbound) : Nat → Sweep k → Prop
  | 0, _ => False
  | fuel + 1, w =>
      0 < w.remaining → w.StepOk cfg order ∧
        ∀ w', w.step cfg order = .more w' → LoopOk order fuel w'

/-- The checks of the subtractions of the post-pass, in their order. -/
def SubtractAllOk (b : OrderBook k) (opp : Side) : List (Int × Int) → TrackTable → Prop
  | [], _ => True
  | p :: l, t => t.SubtractOk b opp p.1 ∧ SubtractAllOk b opp l (t.subtractLevel b opp p.1 p.2 true)

/-- The checks of the post-pass. -/
def SettleOk (opp : Side) : Prop :=
  (w.hasPendingOverflow = true → w.sim.track.SubtractOk w.sim.book opp w.pendingOverflow)
    ∧ SubtractAllOk w.sim.book opp w.touched
      (if w.hasPendingOverflow then
        w.sim.track.subtractLevel w.sim.book opp w.pendingOverflow w.pendingOverflowTake true
      else w.sim.track)

end Sweep

namespace ExecutionSimulator

variable {k : Nat} (sim : ExecutionSimulator k) (cfg : SimConfig)

/-- The checks of `cross`; the early return of cancel-newest has no post-pass. -/
structure CrossOk (order : SimInbound) (remaining : Int) : Prop where
  loop : Sweep.LoopOk cfg order (sim.crossStart remaining).fuel (sim.crossStart remaining)
  settle : (sim.crossLoop cfg order remaining).2 ≠ .stpStop →
    (sim.crossLoop cfg order remaining).1.SettleOk order.side.opp

/-- The checks of a decision whose order is priced. -/
def DecideResolvedOk (order : SimInbound) : Prop :=
  let sim : ExecutionSimulator k := { sim with log := (sim.log.drawJitter cfg).2 }
  OrderBook.IdFindSlotOk order.ref ∧ ((sim.book.findHandle order.ref).index = kNullIndex →
    ¬ (order.type = .postOnly ∧ sim.crosses order) →
      if sim.crosses order ∧ 0 < order.qty then
        let c := sim.cross cfg order order.qty
        sim.CrossOk cfg order order.qty
          ∧ (c.stpStop = false →
            (c.sim.counted order c.filled).FinishOk order (order.qty - c.filled))
      else sim.FinishOk order order.qty)

/-- The checks of `decide`. -/
def DecideOk (order : SimInbound) (decisionTs : Nat) : Prop :=
  let sim := (sim.withLog (fun l => { l with nowHint := decisionTs })).repegHidden
  ∀ o, sim.resolved order = some o → sim.DecideResolvedOk cfg o

/-- The checks of a pass of `run_until`. -/
def DecideNextOk : Prop :=
  ¬ sim.wheel.empty → sim.wheel.PopOk ∧
    ({ sim with wheel := sim.wheel.popMin.2 } : ExecutionSimulator k).DecideOk cfg
      sim.wheel.popMin.1.order sim.wheel.popMin.1.visibleTs

/-- The checks a call reaches. -/
def CallOk : SimCall → Prop
  | .seedExternal ref s qty price => ref < cfg.externalRefLimit ∧ sim.book.AddOk ref s qty price
  | .seedIceberg spec =>
      spec.ref < cfg.externalRefLimit ∧ (0 < spec.display ∧ spec.display ≤ spec.total)
        ∧ sim.book.AddOk spec.ref spec.side spec.display spec.price
  | .submit order _ => cfg.externalRefLimit ≤ order.ref ∧ sim.wheel.PushOk
  | .decideNext => sim.DecideNextOk cfg
  | .applyExternal s price qty => sim.ApplyExternalOk cfg s price qty
  | .advanceTime dtNs drawnBuy drawnSell scaled =>
      sim.AdvanceTimeOk cfg dtNs drawnBuy drawnSell scaled
  | .cancelStrategy ref => sim.CancelStrategyOk ref
  | .replaceStrategy orig fresh qty price => sim.ReplaceStrategyOk cfg orig fresh qty price
  | .setHalted _ => True
  | .setStpMode _ => True

end ExecutionSimulator

end Mog
