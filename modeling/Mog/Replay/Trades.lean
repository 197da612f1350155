import Mog.Replay.Fault

/-!
# Trade reconstruction

`run_trades` streams a day into a book of its own and records a print for every execution
that the book accepts: an `E` at the price its order rests at, a `C` at the price on the
wire. It repeats the three transport loops of the replay; both hand the same frames to
their sinks, so that they succeed and fail alike.

A recorder is a book of its own and what has been made of the feed so far. An execution is
looked up before it is applied, for the price at which its order rests, and becomes a print only
when the book accepts it; an execution that the book refuses is counted as unpriced.
-/

namespace Mog

namespace Session.Model

/-- The locate was halted at the time, in a window that may still be open. -/
def wasHaltedAt (m : Model) (locate tsNs : Nat) : Bool :=
  (m.windowsOf locate).any fun idx =>
    (m.windows[idx]?).any fun w => w.startNs ≤ tsNs && (w.endNs = 0 || tsNs < w.endNs)

end Session.Model

namespace Trades

open Wire Replay

variable {k : Nat}

structure Print where
  matchNumber : Nat
  locate : Nat
  tsNs : Nat
  /-- `C` has the wire price, `E` the level price. -/
  priceTicks : Int
  shares : Nat
  printable : Bool
  fromExecuteWithPrice : Bool
deriving DecidableEq, Repr

structure Summary where
  bytesConsumed : Nat := 0
  decoded : Nat := 0
  skipped : Nat := 0
  /-- `E` and `C` reconstructed. -/
  prints : Nat := 0
  /-- The book rejected the reference. -/
  unpricedExecutions : Nat := 0
  bookEventsFailed : Nat := 0
  printsDuringHalts : Nat := 0
  records : List Print := []
deriving DecidableEq, Repr

/-- What the sink of a reconstruction owns. -/
structure Recorder (kPageShift : Nat) where
  book : OrderBook kPageShift
  model : Session.Model := .init
  summary : Summary := {}

namespace Recorder

def init (cfg : BookConfig) : Recorder k := { book := OrderBook.init cfg }

/-- `on_frame`: a skipped frame goes to the session model. -/
def onFrame (r : Recorder k) (type : UInt8) (_ : Nat) (p : List UInt8) : Recorder k :=
  { r with model := Session.feedFrame r.model type p }

def record (r : Recorder k) (hdr : Header) (matchNo shares : Nat) (tick : BookTick)
    (wirePrice : Int) (printable withPrice : Bool) : Recorder k :=
  if ¬ tick.ok then
    { r with summary := { r.summary with unpricedExecutions := r.summary.unpricedExecutions + 1 } }
  else
    { r with
      summary := { r.summary with
        printsDuringHalts := if r.model.wasHaltedAt hdr.locate hdr.tsNs then
            r.summary.printsDuringHalts + 1
          else r.summary.printsDuringHalts
        prints := r.summary.prints + 1
        records := r.summary.records ++
          [{ matchNumber := matchNo, locate := hdr.locate, tsNs := hdr.tsNs
             priceTicks := if withPrice then wirePrice else tick.priceTicks
             shares := shares % 2 ^ 32, printable, fromExecuteWithPrice := withPrice }] } }

/-- `on_message`: the book applies the message, then an execution is recorded. -/
def onMessage (r : Recorder k) (m : Message) : Recorder k :=
  let applied := r.book.apply m
  let r : Recorder k :=
    { r with
      book := applied.book
      summary := { r.summary with
        bookEventsFailed := if applied.tick.ok then r.summary.bookEventsFailed
          else r.summary.bookEventsFailed + 1 } }
  match m with
  | .orderExecuted v =>
      r.record v.header v.matchNumber (toU64 v.executedShares) applied.tick 0 true false
  | .orderExecutedWithPrice v =>
      r.record v.header v.matchNumber (toU64 v.executedShares) applied.tick v.executionPrice
        v.printable true
  | _ => r

end Recorder

/-- One call of the session parser on a payload. -/
def parsePayload (kernels : KernelTable) (payload : List UInt8) (r : Recorder k) :
    Except ParseError SessionStats × Recorder k :=
  parseItchSessionListenAs payload Recorder.onMessage kernels Recorder.onFrame r

/-- The summary of a run that has taken its input. -/
def Recorder.finish (r : Recorder k) (decoded skipped bytesConsumed : Nat) : Summary :=
  { r.summary with decoded, skipped, bytesConsumed }

/-- Length-prefixed: one call for each block, from position `off` on. -/
def tradesPrefixed (kernels : KernelTable) (bytes : List UInt8) (off decoded skipped : Nat)
    (r : Recorder k) : Except Failure Summary :=
  if off + 2 ≤ bytes.length then
    if be16 bytes off = 0 ∨ bytes.length - (off + 2) < be16 bytes off then
      .error (.parseError { code := .truncated, offset := off + 2 - 2 })
    else
      match parsePayload kernels (bytesAt bytes (off + 2) (be16 bytes off)) r with
      | (.error e, _) => .error (.parseError e)
      | (.ok res, r) =>
          tradesPrefixed kernels bytes (off + 2 + be16 bytes off) (decoded + res.decoded)
            (skipped + res.skipped) r
  else if off ≠ bytes.length then .error (.parseError { code := .truncated, offset := off })
  else .ok (r.finish decoded skipped off)
termination_by bytes.length - off

/-- Raw: the whole buffer in one call. -/
def tradesRaw (kernels : KernelTable) (bytes : List UInt8) (r : Recorder k) :
    Except Failure Summary :=
  match parsePayload kernels bytes r with
  | (.error e, _) => .error (.parseError e)
  | (.ok res, r) => .ok (r.finish res.decoded res.skipped bytes.length)

/-- The sink of the packet framer. -/
structure Chain (kPageShift : Nat) where
  recorder : Recorder kPageShift
  decoded : Nat := 0
  skipped : Nat := 0
  err : Option ParseError := none

def Chain.call (kernels : KernelTable) (c : Chain k) (q : Nat × List UInt8 × Nat) : Chain k :=
  match c.err with
  | some _ => c
  | none =>
      match parsePayload kernels q.2.1 c.recorder with
      | (.error e, recorder) => { c with recorder, err := some e }
      | (.ok res, recorder) =>
          { c with
            recorder, decoded := c.decoded + res.decoded, skipped := c.skipped + res.skipped }

/-- MoldUDP64: one call for each message of each packet. -/
def tradesMold (kernels : KernelTable) (bytes : List UInt8) (r : Recorder k) :
    Except Failure Summary :=
  match Mold.parseMoldudp64 bytes (Chain.call kernels) { recorder := r } with
  | (.fail e, _) => .error (.moldGap e)
  | (.outOfBounds, _) => .error .outOfBounds
  | (.done n, c) =>
      match c.err with
      | some e => .error (.parseError e)
      | none => .ok (c.recorder.finish c.decoded c.skipped n)

/-- `run_trades`, with the kernels of the machine it runs on. -/
def runTrades (k : Nat) (kernels : KernelTable) (opts : Options) (bytes : List UInt8) :
    Except Failure Summary :=
  if bytes = [] then .error .emptyStream
  else
    let r : Recorder k := .init opts.book
    match opts.format with
    | .lengthPrefixed => tradesPrefixed kernels bytes 0 0 0 r
    | .itchRaw => tradesRaw kernels bytes r
    | .moldudp64 => tradesMold kernels bytes r

/-! ## The frames of an input -/

/-- The frames `fs` are what the payloads of a whole input divide into, in order. -/
def Decodes (format : Format) (bytes : List UInt8) (fs : List (SessionItem × List UInt8)) : Prop :=
  ∃ (ps : List (Nat × List UInt8)) (ds : List (List (SessionItem × List UInt8))),
    Payloads format bytes ps none ∧ ps.map Prod.snd = ds.map Framing.bytes
      ∧ (∀ d ∈ ds, Framing.Valid SessionFrame d) ∧ fs = ds.flatten

/-- What a frame does to a recorder. -/
def recordFrame (r : Recorder k) (x : SessionItem × List UInt8) : Recorder k :=
  match x.1 with
  | .message m => r.onMessage m
  | .skip type => r.onFrame type 0 x.2

/-- What the frames of a division do. -/
def recorded (r : Recorder k) (fs : List (SessionItem × List UInt8)) : Recorder k :=
  fs.foldl recordFrame r

end Trades

end Mog
