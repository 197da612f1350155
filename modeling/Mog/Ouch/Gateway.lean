import Mathlib.Data.Nat.Bitwise
import Mog.Sim.Simulate
import Mog.Wire.Message

/-!
# The OUCH gateway

Client tokens, the order table, and the session that turns inbound wire messages into
calls of the simulator and the simulator's logs into outbound frames. A wire structure
here has the fields the gateway reads, as native numbers; a frame has those that depend
on the order. The gateway's own trace digest is left out.

A client may put any character where its message says on which side it trades. What the
gateway makes of it, `side_from_wire`, is one of three values: the two sides, and `?` for
every other character. The gateway stores that value, prints it on the frame of a
replacement, and hands it to the simulator, which knows two sides: it compares with `buy`
and sells what is not. There is one exception, `replace_strategy`, which asks the book for
the character itself and takes an order with a `?` for no order at all. That exception is
not in the model of the simulator: results that hang on what the book holds are about
sessions whose Enter messages say `B` or `S`.
-/

namespace Mog

namespace Ouch

/-! ## Tokens -/

abbrev Token := Vector UInt8 14

abbrev Symbol := Vector UInt8 8

/-- The number spelt by the digits of a token; other characters are skipped. -/
def idFromToken (tok : Token) : Nat :=
  tok.toList.foldl
    (fun id c => if 48 ≤ c ∧ c ≤ 57 then (id * 10 + (c.toNat - 48)) % 2 ^ 64 else id) 0

/-- The length of `%014llu`. -/
def printedWidth (id : Nat) : Nat := max 14 (Nat.toDigits 10 id).length

/-- The first fourteen characters of `%014llu`. -/
def tokenFromId (id : Nat) : Token :=
  Vector.ofFn (fun i => UInt8.ofNat (48 + id / 10 ^ (printedWidth id - 1 - i.val) % 10))

/-! ## The order table -/

/-- What is stored of an order. A side that is none stands for `?`. -/
structure OrderMeta where
  token : Token := .replicate 14 0
  shares : UInt32 := 0
  priceTicks : Int := 0
  side : Option Side := some .buy
  stock : Symbol := .replicate 8 32
deriving DecidableEq

/-- Open addressing over a power of two of slots; `mask + 1` of them. -/
structure FlatOrderTable where
  mask : Nat := 2047
  /-- A slot without an order has reference zero. -/
  slots : Nat → Nat × OrderMeta := fun _ => (0, {})
  size : Nat := 0

namespace FlatOrderTable

def hash (x : Nat) : Nat :=
  let x := x ^^^ (x >>> 30)
  let x := x * 0xbf58476d1ce4e5b9 % 2 ^ 64
  let x := x ^^^ (x >>> 27)
  let x := x * 0x94d049bb133111eb % 2 ^ 64
  x ^^^ (x >>> 31)

variable (t : FlatOrderTable)

/-- The slot of the `i`-th probe for a reference. -/
def probe (ref i : Nat) : Nat := (hash ref % (t.mask + 1) + i) % (t.mask + 1)

/-- The loop of `find`, from probe `i` on. -/
def findFrom (ref : Nat) : Nat → Nat → Option OrderMeta
  | 0, _ => none
  | fuel + 1, i =>
      if (t.slots (t.probe ref i)).1 = ref then some (t.slots (t.probe ref i)).2
      else if (t.slots (t.probe ref i)).1 = 0 then none
      else findFrom ref fuel (i + 1)

def find (ref : Nat) : Option OrderMeta :=
  if ref = 0 then none else t.findFrom ref (t.mask + 1) 0

/-- The loop of `insert_or_assign`, from probe `i` on. -/
def insertFrom (ref : Nat) (m : OrderMeta) : Nat → Nat → FlatOrderTable
  | 0, _ => t
  | fuel + 1, i =>
      let x := t.probe ref i
      if (t.slots x).1 = ref then
        { t with slots := fun y => if y = x then (ref, m) else t.slots y }
      else if (t.slots x).1 = 0 then
        { t with
          slots := fun y => if y = x then (ref, m) else t.slots y
          size := t.size + 1 }
      else insertFrom ref m fuel (i + 1)

/-- Twice the slots, and every order again. A table being refilled has room for all; that the vector
of slots can hold them is for the caller to see to. -/
def grow : FlatOrderTable :=
  (List.range (t.mask + 1)).foldl
    (fun u x =>
      if (t.slots x).1 ≠ 0 then u.insertFrom (t.slots x).1 (t.slots x).2 (u.mask + 1) 0 else u)
    { mask := 2 * (t.mask + 1) - 1 }

def insertOrAssign (ref : Nat) (m : OrderMeta) : FlatOrderTable :=
  if ref = 0 then t
  else
    let t := if t.mask + 1 ≤ t.size * 2 then t.grow else t
    t.insertFrom ref m (t.mask + 1) 0

end FlatOrderTable

/-! ## Wire structures -/

structure EnterOrderWire where
  orderToken : Token
  buySell : UInt8
  shares : UInt32
  stock : Symbol
  price : UInt32
  timeInForce : UInt32

structure ReplaceOrderWire where
  existingOrderToken : Token
  replacementOrderToken : Token
  shares : UInt32
  price : UInt32

structure CancelOrderWire where
  orderToken : Token

/-- The outbound frames, prices cut to the width of their field. -/
inductive OutboundFrame where
  | accepted (ts : Nat) (token : Token) (side : Option Side) (shares : Nat) (stock : Symbol)
      (price : Nat) (ref : Nat)
  | replaced (ts : Nat) (token : Token) (side : Option Side) (shares : UInt32) (stock : Symbol)
      (price : Nat) (ref : Nat) (previous : Token)
  | executed (ts : Nat) (token : Token) (shares price matchNumber : Nat)
  | cancelled (ts : Nat) (token : Token) (decrement : Nat)
  | aiqCancelled (ts : Nat) (token : Token) (decrement price : Nat)
  | rejected (ts : Nat) (token : Token)
deriving DecidableEq

/-! ## The session -/

structure ReplacedEvent where
  replacementToken : Token
  previousToken : Token
  side : Option Side
  shares : UInt32
  stock : Symbol
  priceTicks : Int
  ref : Nat
  tsNs : Nat
deriving DecidableEq

structure OuchGateway (kPageShift : Nat) where
  sim : ExecutionSimulator kPageShift
  defaultSymbol : Symbol
  orders : FlatOrderTable := {}
  replacedEvents : List ReplacedEvent := []
  lastDecisionIdx : Nat := 0
  lastReplacedIdx : Nat := 0
  lastReportIdx : Nat := 0

namespace OuchGateway

variable {kPageShift : Nat} (g : OuchGateway kPageShift) (cfg : SimConfig)

def submitEnter (wire : EnterOrderWire) (arrivalTs : Nat) : Nat × OuchGateway kPageShift :=
  let ref := idFromToken wire.orderToken
  let side := Wire.sideFromWire wire.buySell
  let price : Int := wire.price.toNat
  let orders := g.orders.insertOrAssign ref
    { token := wire.orderToken, shares := wire.shares, priceTicks := price, side
      stock := wire.stock }
  let type := if wire.timeInForce = 99999 then SimOrderType.ioc else .dayLimit
  -- the simulator sells what is not bought; there the third side is not told apart
  let r := g.sim.submit cfg
    { ref, side := side.getD .sell, qty := wire.shares.toNat, price, type } arrivalTs
  (r.1, { g with orders, sim := r.2 })

def submitReplace (wire : ReplaceOrderWire) (arrivalTs : Nat) : Bool × OuchGateway kPageShift :=
  let oldRef := idFromToken wire.existingOrderToken
  let newRef := idFromToken wire.replacementOrderToken
  let price : Int := wire.price.toNat
  let found := g.orders.find oldRef
  let side := (found.map OrderMeta.side).getD (some .buy)
  let stock := (found.map OrderMeta.stock).getD g.defaultSymbol
  let r := g.sim.replaceStrategy oldRef newRef wire.shares.toNat price
  if ¬ r.1.ok then (false, { g with sim := r.2 })
  else
    (true, { g with
      sim := r.2
      orders := g.orders.insertOrAssign newRef
        { token := wire.replacementOrderToken, shares := wire.shares, priceTicks := price, side
          stock }
      replacedEvents := g.replacedEvents ++
        [{ replacementToken := wire.replacementOrderToken
           previousToken := wire.existingOrderToken, side, shares := wire.shares, stock
           priceTicks := price, ref := newRef, tsNs := arrivalTs }] })

def submitCancel (wire : CancelOrderWire) : Bool × OuchGateway kPageShift :=
  let r := g.sim.cancelStrategy (idFromToken wire.orderToken)
  (r.1, { g with sim := r.2 })

/-- The frame that reports a decision. -/
def decisionFrame (d : SimDecision) : OutboundFrame :=
  let tok := tokenFromId d.ref
  let found := g.orders.find d.ref
  let shares := (found.map (fun m => m.shares.toNat)).getD d.filledQty
  let price := (found.map OrderMeta.priceTicks).getD 0
  let stock := (found.map OrderMeta.stock).getD g.defaultSymbol
  match d.kind with
  | .rested | .filled | .partialThenRest =>
      .accepted d.visibleTs tok (some d.side) shares stock (toU32 price) d.ref
  | .rejectedStp => .aiqCancelled d.visibleTs tok d.cancelledQty (toU32 price)
  | .rejectedWouldCross | .rejectedUnknown => .rejected d.visibleTs tok
  | .partialThenCancelled => .cancelled d.visibleTs tok d.cancelledQty

def replacedFrame (e : ReplacedEvent) : OutboundFrame :=
  .replaced e.tsNs e.replacementToken e.side e.shares e.stock (toU32 e.priceTicks) e.ref
    e.previousToken

def reportFrame (r : SimFillReport) : OutboundFrame :=
  .executed r.visibleTs (tokenFromId r.ref) r.qty (toU32 r.priceTicks) r.seq

/-- The frames of everything the session has not yet reported, in the order they are sent. -/
def drainOutboundStream : List OutboundFrame × OuchGateway kPageShift :=
  ((g.sim.log.decisions.drop g.lastDecisionIdx).map g.decisionFrame
      ++ (g.replacedEvents.drop g.lastReplacedIdx).map replacedFrame
      ++ (g.sim.log.reports.drop g.lastReportIdx).map reportFrame,
    { g with
      lastDecisionIdx := max g.lastDecisionIdx g.sim.log.decisions.length
      lastReplacedIdx := max g.lastReplacedIdx g.replacedEvents.length
      lastReportIdx := max g.lastReportIdx g.sim.log.reports.length })

end OuchGateway

end Ouch

end Mog
