import Mog.Wire.Message

/-!
# The session model

What the frames that never reach the book say about the day: its phase, halt windows,
imbalance snapshots and the crosses computed from them. The maps of the source are
association lists here, one binding for each key.

Each handler is a function of the model and one frame: actions open and close halt windows,
imbalance messages replace the snapshot of their locate, and a resumption computes a cross from
the snapshot. Frames of any other type leave the model alone.
-/

namespace Mog

namespace Session

open Wire

/-- Where the session stands, by its system events. -/
inductive Phase where
  | idle
  | messagesStarted
  | systemHours
  | marketOpen
  | marketClosed
  | systemClosed
  | ended
deriving DecidableEq, Repr

/-- A halt of one stock. It is open while its end is zero. -/
structure HaltWindow where
  locate : Nat
  startNs : Nat
  endNs : Nat
  reason : List UInt8
deriving DecidableEq, Repr

/-- What an imbalance message said. -/
structure NoiiSnapshot where
  tsNs : Nat
  locate : Nat
  pairedShares : Nat
  imbalanceShares : Nat
  direction : UInt8
  nearPriceTicks : Int
  referencePriceTicks : Int
deriving DecidableEq, Repr

inductive CrossType where
  | opening
  | closing
  | haltIpo
deriving DecidableEq, Repr

/-- A cross as it is computed from a snapshot. -/
structure CrossRecord where
  locate : Nat
  priceTicks : Int
  qty : Int
  direction : UInt8
  type : CrossType
deriving DecidableEq, Repr

/-! ## Maps -/

/-- The value at a key. -/
def find {α : Type} (m : List (Nat × α)) (key : Nat) : Option α :=
  (m.find? fun p => p.1 = key).map Prod.snd

/-- Insert or assign. -/
def assign {α : Type} (m : List (Nat × α)) (key : Nat) (value : α) : List (Nat × α) :=
  (key, value) :: m.filter fun p => p.1 ≠ key

/-- The keys, sorted. -/
def sortedKeys {α : Type} (m : List (Nat × α)) : List Nat :=
  (m.map Prod.fst).mergeSort fun a b => a ≤ b

/-! ## The model -/

/-- What is known of the day. -/
structure Model where
  phase : Phase
  systemEvents : Nat
  tradingActions : Nat
  noiiUpdates : Nat
  regShoEvents : Nat
  openTs : Nat
  closeTs : Nat
  windows : List HaltWindow
  locateToWindows : List (Nat × List Nat)
  openCrosses : List CrossRecord
  closeCrosses : List CrossRecord
  haltCrosses : List CrossRecord
  latest : List (Nat × NoiiSnapshot)
  informative : List (Nat × NoiiSnapshot)
  sho : List (Nat × UInt8)
deriving DecidableEq, Repr

namespace Model

def init : Model :=
  { phase := .idle, systemEvents := 0, tradingActions := 0, noiiUpdates := 0, regShoEvents := 0
    openTs := 0, closeTs := 0, windows := [], locateToWindows := [], openCrosses := []
    closeCrosses := [], haltCrosses := [], latest := [], informative := [], sho := [] }

/-- The cross of a snapshot: the full imbalance counts as executable. -/
def crossOf (type : CrossType) (locate : Nat) (snap : NoiiSnapshot) : CrossRecord :=
  { locate, priceTicks := snap.nearPriceTicks
    qty := toI64 (snap.pairedShares + snap.imbalanceShares)
    direction := snap.direction, type }

/-- One cross for each informative snapshot, in the order of the locates. -/
def crosses (m : Model) (type : CrossType) : List CrossRecord :=
  (sortedKeys m.informative).filterMap fun locate =>
    (find m.informative locate).map (crossOf type locate)

def computeOpenCross (m : Model) : Model := { m with openCrosses := m.crosses .opening }

def computeCloseCross (m : Model) : Model := { m with closeCrosses := m.crosses .closing }

/-- The cross that ends a halt, if the stock had an informative snapshot. -/
def computeHaltCross (m : Model) (locate : Nat) : Model :=
  match find m.informative locate with
  | some snap => { m with haltCrosses := m.haltCrosses ++ [crossOf .haltIpo locate snap] }
  | none => m

/-- `O`, `S`, `Q`, `M`, `E` and `C`; reserved codes only count. -/
def onSystemEvent (m : Model) (code : UInt8) (tsNs : Nat) : Model :=
  let m :=
    if code = 79 then { m with phase := .messagesStarted }
    else if code = 83 then { m with phase := .systemHours }
    else if code = 81 then ({ m with phase := .marketOpen, openTs := tsNs }).computeOpenCross
    else if code = 77 then ({ m with phase := .marketClosed, closeTs := tsNs }).computeCloseCross
    else if code = 69 then { m with phase := .systemClosed }
    else if code = 67 then { m with phase := .ended }
    else m
  { m with systemEvents := m.systemEvents + 1 }

def windowsOf (m : Model) (locate : Nat) : List Nat := (find m.locateToWindows locate).getD []

/-- A window that has not ended. -/
def openWindow (m : Model) (idx : Nat) : Bool := (m.windows[idx]?).any fun w => w.endNs = 0

/-- Some window of the locate is open. -/
def isHalted (m : Model) (locate : Nat) : Bool := (m.windowsOf locate).any m.openWindow

/-- `H` and `P` open a window unless one is open, `T` ends what is open. -/
def onTradingAction (m : Model) (locate : Nat) (state : UInt8) (reason : List UInt8)
    (tsNs : Nat) : Model :=
  let m :=
    if state = 72 ∨ state = 80 then
      if m.isHalted locate then m
      else
        { m with
            windows := m.windows ++ [{ locate, startNs := tsNs, endNs := 0, reason := reason ++ [0] }]
            locateToWindows := assign m.locateToWindows locate
              (m.windowsOf locate ++ [m.windows.length]) }
    else if state = 84 then
      match find m.locateToWindows locate with
      | some idxs =>
          ({ m with
              windows := m.windows.mapIdx fun i (w : HaltWindow) =>
                if i ∈ idxs ∧ w.endNs = 0 then { w with endNs := tsNs } else w }).computeHaltCross
            locate
      | none => m
    else m
  { m with tradingActions := m.tradingActions + 1 }

/-- A snapshot with nothing in it does not replace the last informative one. -/
def onNoii (m : Model) (snap : NoiiSnapshot) : Model :=
  { m with
      latest := assign m.latest snap.locate snap
      informative :=
        if 0 < snap.pairedShares ∨ 0 < snap.imbalanceShares then
          assign m.informative snap.locate snap
        else m.informative
      noiiUpdates := m.noiiUpdates + 1 }

def onRegSho (m : Model) (locate : Nat) (action : UInt8) : Model :=
  { m with sho := assign m.sho locate action, regShoEvents := m.regShoEvents + 1 }

end Model

/-! ## The feed -/

def frameTs (p : List UInt8) : Nat := be48 p 5

/-- `feed_frame`: System Event, Trading Action, NOII and Reg SHO; other frames are ignored. -/
def feedFrame (m : Model) (type : UInt8) (p : List UInt8) : Model :=
  if type = 83 then
    if p.length < 12 then m else m.onSystemEvent (charAt p 11) (frameTs p)
  else if type = 72 then
    if p.length < 25 then m
    else m.onTradingAction (be16 p 1) (charAt p 19) (bytesAt p 21 4) (frameTs p)
  else if type = 73 then
    if p.length < 50 then m
    else
      m.onNoii
        { tsNs := frameTs p, locate := be16 p 1, pairedShares := be64 p 11
          imbalanceShares := be64 p 19, direction := charAt p 27, nearPriceTicks := be32 p 40
          referencePriceTicks := be32 p 44 }
  else if type = 89 then
    if p.length < 20 then m else m.onRegSho (be16 p 1) (charAt p 19)
  else m

end Session

end Mog
