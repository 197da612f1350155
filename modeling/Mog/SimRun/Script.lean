import Mog.Sim.Simulate

/-!
# Scripts

A script is a header line and rows of comma-separated fields: liquidity, prints and the
strategy's orders, and halts. A text is the list of its characters. Numbers are read
without a bound; past 63 bits the source's are undefined.

The reader splits at commas, looks the kind of the row up by its name and checks each number
that the kind needs; a row that fails a check rejects the whole script. The flags column says
whether an order is displayed, and to what it is pegged and how far from it; a peg hides the
order.
-/

namespace Mog

namespace SimRun

inductive RowKind where
  | extAdd
  | trade
  | stratLimit
  | stratIoc
  | stratCancel
  | halt
  | resume
deriving DecidableEq, Repr

/-- Halts and resumes carry only a timestamp. -/
def RowKind.control (kind : RowKind) : Prop := kind = halt ∨ kind = resume

instance (kind : RowKind) : Decidable kind.control := inferInstanceAs (Decidable (_ ∨ _))

def RowKind.ofName (name : List Char) : Option RowKind :=
  if name = "halt".toList then some halt
  else if name = "resume".toList then some resume
  else if name = "ext_add".toList then some extAdd
  else if name = "trade".toList then some trade
  else if name = "strat_limit".toList then some stratLimit
  else if name = "strat_ioc".toList then some stratIoc
  else if name = "strat_cancel".toList then some stratCancel
  else none

structure Row where
  kind : RowKind
  ts : Nat := 0
  side : Side := .buy
  price : Int := 0
  qty : Nat := 0
  ref : Nat := 0
  /-- The optional seventh field. -/
  flags : List Char := []
deriving DecidableEq, Repr

/-- The lines of a text without their carriage returns; empty lines are skipped. -/
def lines (text : List Char) : List (List Char) :=
  ((text.splitOn '\n').map fun line =>
    if line.getLast? = some '\r' then line.dropLast else line).filter fun line => line ≠ []

/-- The value of a run of digits. -/
def digitsLoop : Int → List Char → Option Int
  | val, [] => some val
  | val, ch :: l =>
      if ch < '0' ∨ '9' < ch then none else digitsLoop (val * 10 + ((ch.toNat : Int) - 48)) l

/-- A field of digits, or -1. -/
def num (field : List Char) : Int := if field = [] then -1 else (digitsLoop 0 field).getD (-1)

/-- The offset after the colon of a flag, signed. -/
def flagOffset (field : List Char) : Option Int :=
  let neg := field.head? = some '-'
  let digits := if field.head? = some '-' ∨ field.head? = some '+' then field.tail else field
  if digits = [] then none
  else (digitsLoop 0 digits).map fun off => if neg then -off else off

/-- The optional flags column: `nd`, `mid`, `bid` or `ask`, the last three with an offset. -/
def applyFlagColumn (flags : List Char) (order : SimInbound) : Option SimInbound :=
  if flags = [] ∨ flags = "nd".toList then
    some { order with nonDisplayed := flags = "nd".toList }
  else
    let kind := flags.takeWhile (· ≠ ':')
    let off := if ':' ∈ flags then flagOffset ((flags.dropWhile (· ≠ ':')).tail) else some 0
    off.bind fun off =>
      let pegged (peg : Peg) : SimInbound :=
        { order with peg, pegOffsetTicks := off, nonDisplayed := true, type := .dayLimit }
      if kind = "mid".toList then some (pegged .mid)
      else if kind = "bid".toList then some (pegged .bid)
      else if kind = "ask".toList then some (pegged .ask)
      else if kind = "nd".toList then
        some { order with nonDisplayed := true, pegOffsetTicks := off }
      else none

def parseSide (field : List Char) : Side := if field.head? = some 'B' ∨ field = [] then .buy else .sell

/-- One row of a script; a missing field is empty. -/
def parseRow (line : List Char) : Option Row :=
  let fields := line.splitOn ','
  let field (i : Nat) := fields.getD i []
  match RowKind.ofName (field 0) with
  | none => none
  | some kind =>
      let ts := num (field 1)
      let px := if kind.control then 0 else num (field 3)
      let qty := if kind.control then 0 else num (field 4)
      let ref := if kind.control then 0 else num (field 5)
      if ts < 0 then none
      else if ¬ kind.control ∧ (px < 0 ∨ qty ≤ 0 ∨ ref < 0 ∨ (field 2).length ≠ 1) then none
      else if ¬ kind.control ∧ field 2 ≠ ['B'] ∧ field 2 ≠ ['S'] then none
      else if 7 ≤ fields.length ∧ applyFlagColumn (field 6) {} = none then none
      else
        some { kind, ts := toU64 ts, side := parseSide (field 2), price := px, qty := toU32 qty
               ref := toU64 ref, flags := field 6 }

def scriptHeaders : List (List Char) :=
  ["kind,ts_ns,side,price_ticks,qty,ref".toList, "kind,ts_ns,side,price_ticks,qty,ref,flags".toList]

/-- `parse_script`: the rows of a script, unless its header or a row is malformed. -/
def parseScript (text : List Char) : Option (List Row) :=
  match lines text with
  | [] => none
  | header :: rows => if header ∈ scriptHeaders then rows.mapM parseRow else none

/-- What every result satisfies, a list of results satisfies. -/
theorem forall_mapM {α β : Type} {f : α → Option β} {P : β → Prop}
    (hf : ∀ a b, f a = some b → P b) {l : List α} {l' : List β} (h : l.mapM f = some l') :
    ∀ b ∈ l', P b := by
  induction l generalizing l' with
  | nil =>
      cases h
      exact fun b hb => absurd hb List.not_mem_nil
  | cons a l ih =>
      rw [List.mapM_cons] at h
      obtain ⟨b, hb, h⟩ := Option.bind_eq_some_iff.mp h
      obtain ⟨bs, hbs, h⟩ := Option.bind_eq_some_iff.mp h
      cases h
      exact List.forall_mem_cons.mpr ⟨hf a b hb, ih hbs⟩

end SimRun

end Mog
