import Mog.Book.Contracts
import Mog.Replay.Session
import Mog.Wire.MoldUdp
import Mog.Wire.Stream

/-!
# Replay

A day of messages is streamed into a fresh book, raw, length-prefixed or in MoldUDP64
packets. Whatever the format, the session parser sees frames: messages go to the book and
into the summary, the other frames to the session model.

The three loops are translated as they stand, each with its own way of adding up statistics and
of reporting an error. The trace hash folds the frames' payloads in 64 bits. Instruction sets
differ in the kernel that reads one message, which is a parameter of the loops.
-/

namespace Mog

/-! ## The trace hash -/

def kFnvPrime : Nat := 0x100000001b3

def kFnvOffset : Nat := 0xcbf29ce484222325

def hashFold (h value : Nat) : Nat := (h ^^^ value) * kFnvPrime % 2 ^ 64

def hashFoldBytes (h : Nat) (data : List UInt8) : Nat :=
  data.foldl (fun h c => hashFold h c.toNat) h

def hashHeader (h : Nat) (hdr : Header) : Nat :=
  hashFold (hashFold (hashFold h hdr.locate) hdr.tracking) hdr.tsNs

/-- FNV-1a over the decoded fields, in a fixed order for each type. -/
def traceHash (m : Message) (seed : Nat) : Nat :=
  let h := hashFold seed (Wire.typeByte m).toNat
  match m with
  | .addOrder v =>
      let h := hashFold (hashHeader h v.header) v.orderRef
      let h := hashFold (hashFold h (Wire.toWire v.side).toNat) (toU64 v.shares)
      hashFold (hashFoldBytes h v.stock) (toU64 v.price)
  | .addOrderAttribution v =>
      let h := hashFold (hashHeader h v.header) v.orderRef
      let h := hashFold (hashFold h (Wire.toWire v.side).toNat) (toU64 v.shares)
      hashFoldBytes (hashFold (hashFoldBytes h v.stock) (toU64 v.price)) v.attribution
  | .orderExecuted v =>
      let h := hashFold (hashHeader h v.header) v.orderRef
      hashFold (hashFold h (toU64 v.executedShares)) v.matchNumber
  | .orderExecutedWithPrice v =>
      let h := hashFold (hashHeader h v.header) v.orderRef
      let h := hashFold (hashFold h (toU64 v.executedShares)) v.matchNumber
      hashFold (hashFold h (if v.printable then 1 else 0)) (toU64 v.executionPrice)
  | .orderCancel v =>
      hashFold (hashFold (hashHeader h v.header) v.orderRef) (toU64 v.cancelledShares)
  | .orderDelete v => hashFold (hashHeader h v.header) v.orderRef
  | .orderReplace v =>
      let h := hashFold (hashFold (hashHeader h v.header) v.originalOrderRef) v.newOrderRef
      hashFold (hashFold h (toU64 v.shares)) (toU64 v.price)

namespace Message

def header : Message → Header
  | .addOrder v => v.header
  | .addOrderAttribution v => v.header
  | .orderExecuted v => v.header
  | .orderExecutedWithPrice v => v.header
  | .orderCancel v => v.header
  | .orderDelete v => v.header
  | .orderReplace v => v.header

end Message

namespace Replay

open Wire

inductive Format where
  | itchRaw
  | moldudp64
  | lengthPrefixed
deriving DecidableEq, Repr

structure Options where
  format : Format
  book : BookConfig
deriving DecidableEq, Repr

structure Summary where
  bytesConsumed : Nat
  decoded : Nat
  skipped : Nat
  skippedByType : UInt8 → Nat
  bookEventsFailed : Nat
  bestBidTicks : Int
  bestAskTicks : Int
  liveOrders : Nat
  traceDigest : Nat
  firstTsNs : Nat
  lastTsNs : Nat
  phase : Session.Phase
  haltWindows : Nat
  noiiUpdates : Nat
  closeCrosses : List Session.CrossRecord

def Summary.init : Summary :=
  { bytesConsumed := 0, decoded := 0, skipped := 0, skippedByType := fun _ => 0
    bookEventsFailed := 0, bestBidTicks := 0, bestAskTicks := 0, liveOrders := 0
    traceDigest := kFnvOffset, firstTsNs := 0, lastTsNs := 0, phase := .idle, haltWindows := 0
    noiiUpdates := 0, closeCrosses := [] }

/-- Why a replay fails, with what is meaningful for the reason. -/
inductive Failure where
  | parseError (e : ParseError)
  | moldGap (e : Mold.ErrorInfo)
  | emptyStream
  /-- A read past the end of the buffer; no run has it. -/
  | outOfBounds
deriving DecidableEq, Repr

/-- What a replay threads through its callbacks. -/
structure ReplayState (kPageShift : Nat) where
  book : OrderBook kPageShift
  out : Summary
  model : Session.Model

variable {k : Nat}

def ReplayState.init (cfg : BookConfig) : ReplayState k :=
  { book := OrderBook.init cfg, out := .init, model := .init }

/-- `ReplaySink::on_message`. -/
def onMessage (st : ReplayState k) (m : Message) : ReplayState k :=
  let r := st.book.apply m
  let ts := m.header.tsNs
  { st with
      book := r.book
      out := { st.out with
        bookEventsFailed := if r.tick.ok then st.out.bookEventsFailed
          else st.out.bookEventsFailed + 1
        traceDigest := traceHash m st.out.traceDigest
        firstTsNs := if st.out.firstTsNs = 0 ∨ ts < st.out.firstTsNs then ts else st.out.firstTsNs
        lastTsNs := if st.out.lastTsNs < ts then ts else st.out.lastTsNs } }

/-- The listener: a skipped frame goes to the session model. -/
def listen (st : ReplayState k) (type : UInt8) (_ : Nat) (p : List UInt8) : ReplayState k :=
  { st with model := Session.feedFrame st.model type p }

/-- The statistics of one parser call are added up. -/
def ReplayState.count (st : ReplayState k) (stats : SessionStats) : ReplayState k :=
  { st with
      out := { st.out with
        decoded := st.out.decoded + stats.decoded
        skipped := st.out.skipped + stats.skipped
        skippedByType := fun t => st.out.skippedByType t + stats.skippedByType t } }

/-- One call of the session parser on a payload. -/
def parsePayload (kernels : KernelTable) (payload : List UInt8) (st : ReplayState k) :
    Except ParseError SessionStats × ReplayState k :=
  parseItchSessionListenAs payload onMessage kernels listen st

/-! ## The three formats -/

/-- Raw: the whole buffer in one call. -/
def replayRaw (kernels : KernelTable) (bytes : List UInt8) (st : ReplayState k) :
    Except Failure Nat × ReplayState k :=
  match parsePayload kernels bytes st with
  | (.error e, st) => (.error (.parseError e), st)
  | (.ok stats, st) =>
      (.ok bytes.length,
        { st with
            out := { st.out with
              decoded := stats.decoded
              skipped := stats.skipped
              skippedByType := stats.skippedByType } })

/-- Length-prefixed: one call for each block. -/
def replayPrefixed (kernels : KernelTable) (bytes : List UInt8) (off : Nat) (st : ReplayState k) :
    Except Failure Nat × ReplayState k :=
  if off + 2 ≤ bytes.length then
    if be16 bytes off = 0 ∨ bytes.length - (off + 2) < be16 bytes off then
      (.error (.parseError { code := .truncated, offset := off + 2 - 2 }), st)
    else
      match parsePayload kernels (bytesAt bytes (off + 2) (be16 bytes off)) st with
      | (.error e, st) => (.error (.parseError e), st)
      | (.ok stats, st) =>
          replayPrefixed kernels bytes (off + 2 + be16 bytes off) (st.count stats)
  else if off ≠ bytes.length then
    (.error (.parseError { code := .truncated, offset := off }), st)
  else (.ok off, st)
termination_by bytes.length - off

/-- The sink of the packet framer: it stops parsing at the first error, not framing. -/
structure Chain (kPageShift : Nat) where
  st : ReplayState kPageShift
  err : Option ParseError

def Chain.call (kernels : KernelTable) (c : Chain k) (q : Nat × List UInt8 × Nat) : Chain k :=
  match c.err with
  | some _ => c
  | none =>
      match parsePayload kernels q.2.1 c.st with
      | (.error e, st) => { st, err := some e }
      | (.ok stats, st) => { st := st.count stats, err := none }

/-- MoldUDP64: one call for each message of each packet. -/
def replayMold (kernels : KernelTable) (bytes : List UInt8) (st : ReplayState k) :
    Except Failure Nat × ReplayState k :=
  match Mold.parseMoldudp64 bytes (Chain.call kernels) { st, err := none } with
  | (.fail e, c) => (.error (.moldGap e), c.st)
  | (.outOfBounds, c) => (.error .outOfBounds, c.st)
  | (.done n, c) =>
      match c.err with
      | some e => (.error (.parseError e), c.st)
      | none => (.ok n, c.st)

/-- The branch on the format. -/
def ingest (kernels : KernelTable) (format : Format) (bytes : List UInt8) (st : ReplayState k) :
    Except Failure Nat × ReplayState k :=
  match format with
  | .itchRaw => replayRaw kernels bytes st
  | .lengthPrefixed => replayPrefixed kernels bytes 0 st
  | .moldudp64 => replayMold kernels bytes st

/-- What is read off the book and the session model at the end. -/
def ReplayState.summary (st : ReplayState k) (bytesConsumed : Nat) : Summary :=
  { st.out with
      bytesConsumed
      liveOrders := st.book.liveOrders
      bestBidTicks := st.book.bestBid
      bestAskTicks := st.book.bestAsk
      phase := st.model.phase
      haltWindows := st.model.windows.length
      noiiUpdates := st.model.noiiUpdates
      closeCrosses := st.model.closeCrosses }

/-- `run_replay`, with the kernels of the machine it runs on. -/
def runReplay (kernels : KernelTable) (opts : Options) (bytes : List UInt8) :
    Except Failure Summary × ReplayState k :=
  if bytes = [] then (.error .emptyStream, .init opts.book)
  else
    match ingest kernels opts.format bytes (.init opts.book) with
    | (.error e, st) => (.error e, st)
    | (.ok n, st) => (.ok (st.summary n), st)

end Replay

end Mog
