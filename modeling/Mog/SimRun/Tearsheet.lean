import Mog.SimRun.Run

/-!
# The tearsheet

The performance summary is recomputed from the events log alone: the runner's records are
written as text, one line each, and a reader that knows nothing of the engine parses them
and adds them up. Floating-point metrics (drawdown and markouts in basis points) are left
out, and of the hit rate there are only numerator and denominator.

The reader makes two passes over the rows: one adds up counts, fees, volume and positions, one
looks at the marks. Writer and reader are translated apart, from the runner's printing and the
tearsheet's parsing, so that whether they agree is a theorem and not a definition.
-/

namespace Mog

namespace SimRun

/-! ## The writer -/


/-- The character of a side in a log. -/
def sideChar : Side → Char
  | .buy => 'B'
  | .sell => 'S'

def EventType.char : EventType → Char
  | .fill => 'F'
  | .print => 'P'

def Ledger.char : Ledger → Char
  | .maker => 'M'
  | .taker => 'T'

/-- An unsigned number as `printf` writes it. -/
def showNat (n : Nat) : List Char := Nat.toDigits 10 n

/-- A signed number as `printf` writes it. -/
def showInt (z : Int) : List Char :=
  if z < 0 then '-' :: showNat z.natAbs else showNat z.natAbs

def eventsHeader : List Char :=
  "type,ts_ns,ref,side,price_ticks,qty,fee_cash,mid_ticks,ledger,submit_ns".toList

/-- The fields of a record, in the order of the header. -/
def EventRecord.fields (e : EventRecord) : List (List Char) :=
  [[e.type.char], showNat e.tsNs, showNat e.ref, [sideChar e.side], showInt e.priceTicks,
    showNat e.qty, showInt e.feeCash, showInt e.midTicks, [e.ledger.char], showNat e.submitNs]

def toCsv (e : EventRecord) : List Char := [','].intercalate e.fields

/-- The log of a run: the header and the events, each on a line of its own. -/
def logText (events : List EventRecord) : List Char :=
  (eventsHeader :: events.map toCsv).flatMap fun line => line ++ ['\n']

end SimRun

/-! ## The reader -/

namespace Tearsheet

open SimRun

structure Row where
  type : Char
  tsNs : Nat
  side : Char
  priceTicks : Int
  qty : Nat
  feeCash : Int
  midTicks : Int
  ledger : Char
deriving DecidableEq, Repr

def kPrefix : List Char :=
  "type,ts_ns,ref,side,price_ticks,qty,fee_cash,mid_ticks".toList

/-- A field of digits, maybe behind a minus sign, or -1. -/
def num (field : List Char) : Int :=
  if field = [] then -1
  else
    let neg := field.head? = some '-'
    match digitsLoop 0 (if neg then field.tail else field) with
    | none => -1
    | some val => if neg then -val else val

/-- One row of a log. Reading a field that is missing throws. -/
def parseRow (line : List Char) : Option Row :=
  match line.splitOn ',' with
  | t :: ts :: _ :: side :: price :: qty :: fee :: mid :: led :: _ =>
      match t, side, led with
      | [type], [side], [ledger] =>
          if num ts < 0 ∨ num price < 0 ∨ num qty ≤ 0 ∨ num mid < 0 then none
          else
            some { type, tsNs := toU64 (num ts), side, priceTicks := num price
                   qty := toU32 (num qty), feeCash := num fee, midTicks := num mid, ledger }
      | _, _, _ => none
  | _ => none

/-- `parse_log`: the rows behind a header that begins as it should. -/
def parseLog (text : List Char) : Option (List Row) :=
  match lines text with
  | [] => none
  | header :: rows => if kPrefix.isPrefixOf header then rows.mapM parseRow else none

structure Report where
  fills : Nat := 0
  prints : Nat := 0
  buyQty : Nat := 0
  sellQty : Nat := 0
  volumeTicks : Int := 0
  feesCash : Int := 0
  feesMakerCash : Int := 0
  feesTakerCash : Int := 0
  finalInventory : Int := 0
  finalMidTicks : Int := 0
  /-- Realized cash from fills only. -/
  cashPnlTicks : Int := 0
  /-- Cash and the inventory marked at the last mid. -/
  equityPnlTicks : Int := 0
  /-- The absolute drop from a peak of the equity curve. -/
  maxDrawdownTicks : Int := 0
  /-- The numerator and the denominator of the hit rate. -/
  hits : Nat := 0
  edgeMeasurable : Nat := 0
deriving DecidableEq, Repr

/-- The quantity a row adds to the inventory. -/
def Row.signedQty (r : Row) : Int := if r.side = 'B' then r.qty else -(r.qty : Int)

/-- One row of the first pass. -/
def Report.addRow (rep : Report) (r : Row) : Report :=
  if r.type = 'P' then { rep with prints := rep.prints + 1 }
  else if r.type ≠ 'F' then rep
  else
    { rep with
      fills := rep.fills + 1
      cashPnlTicks := rep.cashPnlTicks + -r.signedQty * r.priceTicks
      finalInventory := rep.finalInventory + r.signedQty
      volumeTicks := rep.volumeTicks + r.priceTicks * r.qty
      feesCash := rep.feesCash + r.feeCash
      feesMakerCash := if r.ledger = 'M' then rep.feesMakerCash + r.feeCash else rep.feesMakerCash
      feesTakerCash := if r.ledger ≠ 'M' ∧ r.ledger = 'T' then rep.feesTakerCash + r.feeCash
        else rep.feesTakerCash
      buyQty := rep.buyQty + if r.side = 'B' then r.qty else 0
      sellQty := rep.sellQty + if r.side = 'S' then r.qty else 0
      hits := if (if r.side = 'B' then r.priceTicks < r.midTicks else r.midTicks < r.priceTicks) then
          rep.hits + 1
        else rep.hits
      edgeMeasurable := if 0 < r.midTicks ∧ r.midTicks ≠ r.priceTicks then rep.edgeMeasurable + 1
        else rep.edgeMeasurable }

/-- The last mid that is known. -/
def lastMid (rows : List Row) : Int :=
  rows.foldl (fun mid r => if 0 < r.midTicks then r.midTicks else mid) 0

/-- The state of the second pass: cash, inventory, peak and drawdown. -/
structure Curve where
  cash : Int := 0
  inventory : Int := 0
  peak : Int := 0
  drawdown : Int := 0
deriving DecidableEq, Repr

/-- One row of the second pass. -/
def Curve.addRow (last : Int) (c : Curve) (r : Row) : Curve :=
  let c :=
    if r.type = 'F' then
      { c with cash := c.cash + -r.signedQty * r.priceTicks, inventory := c.inventory + r.signedQty }
    else c
  let eq := c.cash + c.inventory * (if 0 < r.midTicks then r.midTicks else last)
  let peak := if c.peak < eq then eq else c.peak
  { c with peak, drawdown := if c.drawdown < peak - eq then peak - eq else c.drawdown }

def compute (rows : List Row) : Report :=
  let rep : Report := rows.foldl Report.addRow {}
  let last := lastMid rows
  let c : Curve := rows.foldl (Curve.addRow last) {}
  { rep with
    finalMidTicks := last
    maxDrawdownTicks := c.drawdown
    equityPnlTicks := c.cash + c.inventory * last }

/-- `compute_from_csv`: no report for a log that is not accepted. -/
def computeFromCsv (text : List Char) : Option Report := (parseLog text).map compute

end Tearsheet

end Mog
