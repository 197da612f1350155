import Mog.Lib.OwnedTree
import Mog.Log.RoundTrip
import Mog.Replay.Trades
import Mog.Sim.Types
import Mathlib.Data.Nat.Bitwise

/-!
# Arrow export

Records go out as columns. An exported table is a structure with one structure for each
column inside it, and another such pair describes it; each owns a holder on the heap,
where the bytes of a column or the strings of its description are. The consumer reads them
through the structures, moves columns out and calls the release callbacks.

The argument is about ownership and about bytes. Ownership is the general one of trees of owned
structures: an export builds a tree that owns its holders, a release takes what is alive in it,
a move leaves a dead structure behind. Bytes are read back column by column, from the buffers
that stand in memory as long as their holder does. What the allocator hands out is a parameter.
-/

namespace Mog

namespace Arrow

open OwnedTree OrderBook

/-! ## Columns -/

/-- The types of the exported columns. -/
inductive ArrowType where
  | u8
  | u32
  | u64
  | i64
  | f64
  | bool
deriving DecidableEq, Repr

namespace ArrowType

def format : ArrowType → List UInt8
  | u8 => [67]
  | u32 => [73]
  | u64 => [76]
  | i64 => [108]
  | f64 => [103]
  | bool => [98]

/-- The bytes of a value; a boolean has no bytes of its own. -/
def width : ArrowType → Nat
  | u8 => 1
  | u32 => 4
  | bool => 0
  | _ => 8

/-- A value as its type holds it, a floating one by its bits. -/
def wrap (t : ArrowType) (v : Int) : Int :=
  match t with
  | i64 => toI64 (toU64 v)
  | bool => if v = 0 then 0 else 1
  | _ => (v % 256 ^ t.width).toNat

end ArrowType

/-- A column: what its producer gives for each record. -/
structure Column where
  type : ArrowType
  name : List UInt8
  values : List Int

/-- `make_primitive_array_direct`: the values one after the other. -/
def primitiveBuffer (width : Nat) (values : List Int) : List UInt8 :=
  values.flatMap fun v => storeLe width (v % 256 ^ width).toNat

/-- `dst[i / 8] |= 1u << (i % 8)` -/
def setBit (dst : List UInt8) (i : Nat) : List UInt8 :=
  dst.modify (i / 8) (· ||| 1 <<< UInt8.ofNat (i % 8))

/-- `make_bool_array_direct`: eight values a byte, the first in the lowest bit. -/
def boolBuffer (values : List Int) : List UInt8 :=
  (List.range values.length).foldl
    (fun dst i => if values.getD i 0 ≠ 0 then setBit dst i else dst)
    (List.replicate ((values.length + 7) / 8) 0)

def Column.buffer (c : Column) : List UInt8 :=
  if c.type = .bool then boolBuffer c.values else primitiveBuffer c.type.width c.values

/-- The value that a consumer finds in a buffer. -/
def valueAt (t : ArrowType) (buffer : List UInt8) (i : Nat) : Int :=
  match t with
  | .bool => if buffer.getD (i / 8) 0 &&& 1 <<< UInt8.ofNat (i % 8) ≠ 0 then 1 else 0
  | .i64 => toI64 (loadLe ((buffer.drop (i * 8)).take 8))
  | t => loadLe ((buffer.drop (i * t.width)).take t.width)

/-! ### Bits -/

/-- A bit of a packed buffer. -/
def bitAt (buffer : List UInt8) (i : Nat) : Bool := (buffer.getD (i / 8) 0).toNat.testBit (i % 8)

theorem toNat_one_shiftLeft {j : Nat} (hj : j < 8) : (1 <<< UInt8.ofNat j : UInt8).toNat = 2 ^ j := by
  have hcases : ∀ j : Fin 8, (1 <<< UInt8.ofNat j.val : UInt8).toNat = 2 ^ j.val := by decide
  exact hcases ⟨j, hj⟩

/-- The consumer's test of a bit. -/
theorem and_ne_zero {x : UInt8} {j : Nat} (hj : j < 8) :
    (x &&& 1 <<< UInt8.ofNat j ≠ 0) ↔ x.toNat.testBit j = true := by
  rw [ne_eq, ← UInt8.toNat_inj, UInt8.toNat_and, toNat_one_shiftLeft hj]
  constructor
  · intro hne
    refine Bool.of_not_eq_false fun hbit => hne (Nat.eq_of_testBit_eq fun i => ?_)
    rw [Nat.testBit_and, Nat.testBit_two_pow]
    by_cases hij : j = i
    · subst hij
      rw [hbit, Bool.false_and]
      exact (Nat.zero_testBit j).symm
    · rw [decide_eq_false hij, Bool.and_false]
      exact (Nat.zero_testBit i).symm
  · intro hbit hzero
    have hset : (x.toNat &&& 2 ^ j).testBit j = true := by
      rw [Nat.testBit_and, hbit, Nat.testBit_two_pow_self]
      rfl
    rw [hzero] at hset
    exact absurd hset (by simp)

theorem length_setBit (dst : List UInt8) (i : Nat) : (setBit dst i).length = dst.length :=
  List.length_modify _ _ _

/-- One bit is set, and the others are as they were. -/
theorem bitAt_setBit {dst : List UInt8} {i : Nat} (hi : i / 8 < dst.length) (j : Nat) :
    bitAt (setBit dst i) j = (bitAt dst j || decide (i = j)) := by
  have hlow : i % 8 < 8 := Nat.mod_lt _ (by decide)
  unfold bitAt setBit
  rw [List.getD_eq_getElem?_getD, List.getElem?_modify, List.getD_eq_getElem?_getD]
  by_cases hbyte : i / 8 = j / 8
  · simp only [if_pos hbyte]
    rw [← hbyte, List.getElem?_eq_getElem hi, Option.map_eq_map, Option.map_some, Option.getD_some,
      Option.getD_some, UInt8.toNat_or, Nat.testBit_or, toNat_one_shiftLeft hlow,
      Nat.testBit_two_pow]
    have hiff : i % 8 = j % 8 ↔ i = j := by omega
    simp only [hiff]
  · have hne : i ≠ j := fun h => hbyte (congrArg (· / 8) h)
    simp only [if_neg hbyte]
    rw [decide_eq_false hne, Bool.or_false, Option.map_eq_map, Option.map_id']

/-- What is in a buffer once the values before `n` have been packed. -/
theorem packed (values : List Int) {n : Nat} (hn : n ≤ values.length) {dst : List UInt8}
    (hdst : dst = (List.range n).foldl
      (fun dst i => if values.getD i 0 ≠ 0 then setBit dst i else dst)
      (List.replicate ((values.length + 7) / 8) 0)) :
    dst.length = (values.length + 7) / 8
      ∧ ∀ j, bitAt dst j = (decide (j < n) && decide (values.getD j 0 ≠ 0)) := by
  induction n generalizing dst with
  | zero =>
      rw [hdst, List.range_zero, List.foldl_nil]
      refine ⟨List.length_replicate, fun j => ?_⟩
      unfold bitAt
      rw [List.getD_eq_getElem?_getD, List.getElem?_replicate]
      split <;> simp
  | succ n ih =>
      obtain ⟨hlen, hbits⟩ := ih (Nat.le_of_succ_le hn) rfl
      rw [hdst, List.range_succ, List.foldl_append, List.foldl_cons, List.foldl_nil]
      by_cases hv : values.getD n 0 ≠ 0
      · rw [if_pos hv, length_setBit]
        refine ⟨hlen, fun j => ?_⟩
        rw [bitAt_setBit (by rw [hlen]; omega), hbits j]
        by_cases hj : n = j
        · subst hj
          rw [decide_eq_true rfl, decide_eq_true (Nat.lt_succ_self n), decide_eq_true hv,
            Bool.or_true]
          rfl
        · have hiff : j < n + 1 ↔ j < n := by omega
          rw [decide_eq_false hj, Bool.or_false]
          simp only [hiff]
      · rw [if_neg hv]
        refine ⟨hlen, fun j => ?_⟩
        rw [hbits j]
        by_cases hj : n = j
        · subst hj
          rw [decide_eq_false hv, Bool.and_false, Bool.and_false]
        · have hiff : j < n + 1 ↔ j < n := by omega
          simp only [hiff]

/-! ### A column is read back -/

theorem valueAt_bool {values : List Int} {i : Nat} (hi : i < values.length) :
    valueAt .bool (boolBuffer values) i = ArrowType.bool.wrap (values.getD i 0) := by
  obtain ⟨-, hbits⟩ := packed values (Nat.le_refl _) rfl
  have hbit : bitAt (boolBuffer values) i = decide (values.getD i 0 ≠ 0) := by
    rw [boolBuffer, hbits i, decide_eq_true hi, Bool.true_and]
  have htest := and_ne_zero (x := (boolBuffer values).getD (i / 8) 0) (Nat.mod_lt i (by decide : 0 < 8))
  unfold valueAt ArrowType.wrap
  dsimp only
  by_cases hv : values.getD i 0 = 0
  · rw [if_pos hv, if_neg]
    rw [htest]
    refine Bool.eq_false_iff.mp ?_
    exact hbit.trans (decide_eq_false (not_not.mpr hv))
  · rw [if_neg hv, if_pos]
    exact htest.mpr (hbit.trans (decide_eq_true hv))

/-- The bytes of one value among the others. -/
theorem slice_primitive {width : Nat} {values : List Int} {i : Nat} (hi : i < values.length) :
    ((primitiveBuffer width values).drop (i * width)).take width
      = storeLe width (values.getD i 0 % 256 ^ width).toNat := by
  induction values generalizing i with
  | nil => exact absurd hi (Nat.not_lt_zero _)
  | cons v values ih =>
      have hfront : (storeLe width (v % 256 ^ width).toNat).length = width := storeLe_length _ _
      unfold primitiveBuffer
      rw [List.flatMap_cons]
      cases i with
      | zero =>
          rw [Nat.zero_mul, List.drop_zero]
          exact List.take_left' hfront
      | succ i =>
          rw [Nat.succ_mul, Nat.add_comm, ← List.drop_drop, List.drop_left' hfront]
          exact ih (Nat.lt_of_succ_lt_succ hi)

theorem valueAt_primitive {t : ArrowType} (ht : t ≠ .bool) {values : List Int} {i : Nat}
    (hi : i < values.length) :
    valueAt t (primitiveBuffer t.width values) i = t.wrap (values.getD i 0) := by
  have hslice : ((primitiveBuffer t.width values).drop (i * t.width)).take t.width
      = storeLe t.width (values.getD i 0 % 256 ^ t.width).toNat := slice_primitive hi
  have hpos : (0 : Int) < 256 ^ t.width := Int.pow_pos (by decide)
  have hload : loadLe (storeLe t.width (values.getD i 0 % 256 ^ t.width).toNat)
      = (values.getD i 0 % 256 ^ t.width).toNat := by
    refine loadLe_storeLe_of_lt ?_
    have hlt := Int.emod_lt_of_pos (values.getD i 0) hpos
    have hnonneg := Int.emod_nonneg (values.getD i 0) (Int.ne_of_gt hpos)
    have hcast : ((256 ^ t.width : Nat) : Int) = 256 ^ t.width := by push_cast; rfl
    omega
  cases t with
  | bool => exact absurd rfl ht
  | i64 =>
      unfold valueAt
      dsimp only
      rw [show (8 : Nat) = ArrowType.i64.width from rfl, hslice, hload]
      rfl
  | _ =>
      unfold valueAt
      dsimp only
      rw [hslice, hload]
      rfl

theorem valueAt_buffer (c : Column) {i : Nat} (hi : i < c.values.length) :
    valueAt c.type c.buffer i = c.type.wrap (c.values.getD i 0) := by
  rcases c with ⟨t, name, values⟩
  unfold Column.buffer
  by_cases hb : t = .bool
  · subst hb
    exact valueAt_bool hi
  · rw [if_neg hb]
    exact valueAt_primitive hb hi

/-- **A column is read back**, each value as its type holds it. -/
theorem values_read (c : Column) :
    (List.range c.values.length).map (valueAt c.type c.buffer) = c.values.map c.type.wrap := by
  refine List.ext_getElem (by simp) fun i hi hi' => ?_
  rw [List.length_map] at hi'
  have hget : c.values.getD i 0 = c.values[i] := List.getD_eq_getElem _ _ hi'
  rw [List.getElem_map, List.getElem_range, List.getElem_map, valueAt_buffer c hi', hget]

/-! ## Structures -/

/-- A structure of the interface. A pointer into its own holder is a position there. -/
inductive Struct where
  | array (length nullCount offset : Int) (buffers : List (Option Nat))
  | schema (named : Bool) (flags : Int)

inductive Holder where
  | array (ownedBuffers : List (List UInt8))
  | schema (format name : List UInt8)

/-- A structure and the holder that is made for it. -/
structure Piece where
  struct : Struct
  holder : Holder

def initSchema (format name : List UInt8) (children : List (Plan Piece)) : Plan Piece :=
  .mk { struct := .schema (decide (name ≠ [])) 0, holder := .schema format name } children

/-- A leaf: no null bitmap, and the bytes of the column. -/
def makeArray (length : Nat) (buffer : List UInt8) : Plan Piece :=
  .mk { struct := .array length 0 0 [none, some 0], holder := .array [buffer] } []

def assembleStructArray (length : Nat) (children : List (Plan Piece)) : Plan Piece :=
  .mk { struct := .array length 0 0 [none], holder := .array [] } children

def Column.schema (c : Column) : Plan Piece := initSchema c.type.format c.name []

def Column.array (c : Column) : Plan Piece := makeArray c.values.length c.buffer

/-- The columns of some records, one value for each record. -/
structure Table where
  length : Nat
  columns : List Column
  same : ∀ c ∈ columns, c.values.length = length

namespace Table

def schema (t : Table) : Plan Piece := initSchema [43, 115] [] (t.columns.map Column.schema)

def array (t : Table) : Plan Piece :=
  assembleStructArray t.length (t.columns.map Column.array)

end Table

/-! ## The exporters -/

/-- The characters of a literal. -/
def literal (s : String) : List UInt8 := s.toList.map fun c => UInt8.ofNat c.toNat

def exportTrades (records : List Trades.Print) : Table where
  length := records.length
  columns :=
    [{ type := .u64, name := literal "match_number", values := records.map fun r => r.matchNumber },
      { type := .u32, name := literal "locate", values := records.map fun r => r.locate },
      { type := .u64, name := literal "ts_ns", values := records.map fun r => r.tsNs },
      { type := .i64, name := literal "price_ticks", values := records.map fun r => r.priceTicks },
      { type := .u32, name := literal "shares", values := records.map fun r => r.shares },
      { type := .bool, name := literal "printable"
        values := records.map fun r => r.printable.toNat },
      { type := .bool, name := literal "from_execute_with_price"
        values := records.map fun r => r.fromExecuteWithPrice.toNat }]
  same := by simp

def exportFillReports (reports : List SimFillReport) : Table where
  length := reports.length
  columns :=
    [{ type := .u64, name := literal "visible_ts", values := reports.map fun r => r.visibleTs },
      { type := .u64, name := literal "ref", values := reports.map fun r => r.ref },
      { type := .i64, name := literal "price_ticks", values := reports.map fun r => r.priceTicks },
      { type := .u32, name := literal "qty", values := reports.map fun r => r.qty },
      { type := .u64, name := literal "seq", values := reports.map fun r => r.seq },
      { type := .i64, name := literal "fee", values := reports.map fun r => r.fee },
      { type := .u8, name := literal "side"
        values := reports.map fun r => (Wire.toWire r.side).toNat }]
  same := by simp

/-- The code of a decision's kind. -/
def kindCode : DecisionKind → Nat
  | .rested => 0
  | .filled => 1
  | .partialThenRest => 2
  | .partialThenCancelled => 3
  | .rejectedWouldCross => 4
  | .rejectedStp => 5
  | .rejectedUnknown => 6

def exportDecisions (decisions : List SimDecision) : Table where
  length := decisions.length
  columns :=
    [{ type := .u8, name := literal "kind", values := decisions.map fun d => kindCode d.kind },
      { type := .u32, name := literal "filled_qty", values := decisions.map fun d => d.filledQty },
      { type := .u32, name := literal "cancelled_qty"
        values := decisions.map fun d => d.cancelledQty },
      { type := .u64, name := literal "filled_notional"
        values := decisions.map fun d => d.filledNotional },
      { type := .u64, name := literal "visible_ts", values := decisions.map fun d => d.visibleTs },
      { type := .u64, name := literal "ref", values := decisions.map fun d => d.ref },
      { type := .u8, name := literal "side"
        values := decisions.map fun d => (Wire.toWire d.side).toNat },
      { type := .u64, name := literal "seq", values := decisions.map fun d => d.seq },
      { type := .i64, name := literal "fee", values := decisions.map fun d => d.fee }]
  same := by simp

/-- `arrow_format_of`, for the types that a record can have. -/
def arrowTypeOf : (t : ColumnType) → 0 < t.width → ArrowType
  | .u8, _ => .u8
  | .u32, _ => .u32
  | .u64, _ => .u64
  | .i64, _ => .i64
  | .f64, _ => .f64
  | .other _, h => absurd h (Nat.lt_irrefl 0)

/-- The value of a field, a floating one by its bits. -/
def cellValue (c : Cell) : Int := if c.type = .i64 then toI64 c.bits else c.bits

def exportReflectedRecords (S : Reflected) (records : List Record) : Table where
  length := records.length
  columns := S.fields.attach.mapIdx fun i f =>
    { type := arrowTypeOf f.1.type (S.known f.1 f.2), name := f.1.name
      values := records.map fun r => (r[i]?).elim 0 cellValue }
  same := by
    intro c hc
    obtain ⟨i, hi, rfl⟩ := List.mem_mapIdx.mp hc
    exact List.length_map _

/-! ## The consumer -/

/-- A string behind a pointer ends at its first zero. -/
def cString (s : List UInt8) : List UInt8 := s.takeWhile (· ≠ 0)

/-- The type that a format string names. -/
def typeOfFormat (format : List UInt8) : Option ArrowType :=
  [ArrowType.u8, .u32, .u64, .i64, .f64, .bool].find? fun t => t.format = format

/-- The name and the values of a column, read through its two structures. -/
def importColumn (m : Memory Holder) (sch arr : Node Piece) : Option (List UInt8 × List Int) :=
  if sch.live = true ∧ arr.live = true then
    match sch.data.struct, m.lookup sch.block, arr.data.struct, m.lookup arr.block with
    | .schema named _, some (.schema format name), .array length _ _ [_, some k],
        some (.array ownedBuffers) =>
        (typeOfFormat (cString format)).bind fun t => (ownedBuffers[k]?).map fun buffer =>
          (if named then cString name else [],
            (List.range length.toNat).map (valueAt t buffer))
    | _, _, _, _ => none
  else none

/-- A table, read through its structures: a column for each of their children. -/
def importTable (m : Memory Holder) (sch arr : Node Piece) :
    Option (List (List UInt8 × List Int)) :=
  match m.lookup sch.block with
  | some (.schema format _) =>
      if sch.live = true ∧ arr.live = true ∧ cString format = [43, 115]
          ∧ sch.children.length = arr.children.length then
        (sch.children.zip arr.children).mapM fun x => importColumn m x.1 x.2
      else none
  | _ => none

/-- A column as a consumer sees it. -/
def Column.read (c : Column) : List UInt8 × List Int :=
  (cString c.name, c.values.map c.type.wrap)

/-- What is exported in a call. -/
inductive Exported where
  | trades (records : List Trades.Print)
  | fillReports (reports : List SimFillReport)
  | decisions (ds : List SimDecision)
  | reflected (S : Reflected) (records : List Record)

def Exported.table : Exported → Table
  | trades records => exportTrades records
  | fillReports reports => exportFillReports reports
  | decisions ds => exportDecisions ds
  | reflected S records => exportReflectedRecords S records

/-- What the program and the consumer do. An export fills the structures it is given, and
a consumer calls the release callback of a structure or moves one out of another. -/
inductive ArrowCall where
  | exportTable (e : Exported) (outArray outSchema : Bool)
  | release (i : Nat)
  | move (i : Nat) (path : List Nat)

def ArrowCall.events : ArrowCall → List (Event Piece)
  | exportTable e outArray outSchema =>
      (if outSchema then [.build e.table.schema] else [])
        ++ (if outArray then [.build e.table.array] else [])
  | release i => [.release i]
  | move i path => [.move i path]

def run (A : Allocator Holder) (calls : List ArrowCall) : Option (Pool Piece Holder) :=
  OwnedTree.run A Piece.holder (calls.flatMap ArrowCall.events) {}

/-- What has been exported. -/
def exported (calls : List ArrowCall) : List Exported :=
  calls.filterMap fun
    | .exportTable e _ _ => some e
    | _ => none

/-! ## What a consumer reads -/

theorem typeOfFormat_format (t : ArrowType) : typeOfFormat (cString t.format) = some t := by
  cases t <;> decide

/-- What a live structure was made with is in memory. -/
def Backed (m : Memory Holder) (n : Node Piece) : Prop :=
  n.live = true ∧ m.lookup n.block = some n.data.holder

theorem plan_eq_mk {n : Node Piece} {d : Piece} {qs : List (Plan Piece)}
    (h : plan n = .mk d qs) : n.data = d ∧ n.children.map plan = qs := by
  rcases n with ⟨d', p, b, cs⟩
  rw [plan, plans_eq] at h
  cases h
  exact ⟨rfl, rfl⟩

/-- **A column is imported** as it was exported. -/
theorem importColumn_read {m : Memory Holder} {c : Column} {sch arr : Node Piece}
    (hsch : plan sch = c.schema) (harr : plan arr = c.array) (hs : Backed m sch)
    (ha : Backed m arr) : importColumn m sch arr = some c.read := by
  obtain ⟨hslive, hslook⟩ := hs
  obtain ⟨halive, halook⟩ := ha
  have hsd := (plan_eq_mk hsch).1
  have had := (plan_eq_mk harr).1
  rw [hsd] at hslook
  rw [had] at halook
  unfold importColumn
  rw [if_pos ⟨hslive, halive⟩, hsd, had, hslook, halook]
  dsimp only
  rw [typeOfFormat_format, Option.bind_some]
  show some _ = some _
  congr 1
  unfold Column.read
  refine Prod.ext ?_ ?_
  · by_cases hname : c.name = []
    · simp [hname, cString]
    · simp [hname]
  · exact values_read c

/-- The columns of a table, child by child. -/
theorem importColumns_read {m : Memory Holder} {cols : List Column} {ss as : List (Node Piece)}
    (hss : ss.map plan = cols.map Column.schema) (has : as.map plan = cols.map Column.array)
    (hs : ∀ n ∈ ss, Backed m n) (ha : ∀ n ∈ as, Backed m n) :
    (ss.zip as).mapM (fun x => importColumn m x.1 x.2) = some (cols.map Column.read) := by
  induction cols generalizing ss as with
  | nil =>
      rw [List.map_eq_nil_iff.mp hss, List.map_eq_nil_iff.mp has]
      rfl
  | cons c cols ih =>
      obtain ⟨sch, ss', rfl, hsch, hss'⟩ := List.map_eq_cons_iff.mp hss
      obtain ⟨arr, as', rfl, harr, has'⟩ := List.map_eq_cons_iff.mp has
      rw [List.zip_cons_cons, List.mapM_cons,
        importColumn_read hsch harr (hs _ List.mem_cons_self) (ha _ List.mem_cons_self),
        ih hss' has' (fun n hn => hs n (List.mem_cons_of_mem _ hn))
          fun n hn => ha n (List.mem_cons_of_mem _ hn)]
      rfl

/-- A structure whose children are all alive, as it is. -/
def Intact (n : Node Piece) : Prop := n.live = true ∧ ∀ c ∈ n.children, c.live = true

/-- A structure that is held, or is inside a live one that is held. -/
def Reached (s : Pool Piece Holder) (n : Node Piece) : Prop :=
  n ∈ s.held ∨ ∃ r ∈ s.held, r.live = true ∧ n ∈ r.children

/-- What a consumer may rely on, after some calls. -/
structure Sound (calls : List ArrowCall) (s : Pool Piece Holder) : Prop where
  /-- What is held was exported: a table, a column of one, or the description of either. -/
  origin : ∀ n ∈ s.held, ∃ e ∈ exported calls, plan n = e.table.schema ∨ plan n = e.table.array
    ∨ ∃ c ∈ e.table.columns, plan n = c.schema ∨ plan n = c.array
  /-- A table from which nothing has been taken reads as it was exported. -/
  table : ∀ (t : Table), ∀ sch ∈ s.held, ∀ arr ∈ s.held, plan sch = t.schema →
    plan arr = t.array → Intact sch → Intact arr →
    importTable s.memory sch arr = some (t.columns.map Column.read)
  /-- So does a column, in its table or where it has been moved to. -/
  column : ∀ (c : Column) (sch arr : Node Piece), Reached s sch → Reached s arr →
    plan sch = c.schema → plan arr = c.array → sch.live = true → arr.live = true →
    importColumn s.memory sch arr = some c.read
  /-- Nothing is left behind. -/
  released : (∀ n ∈ s.held, n.live = false) → s.memory = ∅

/-- The parts of a table's structures. -/
theorem part_table {t : Table} {q : Plan Piece} :
    (Part q t.schema → q = t.schema ∨ ∃ c ∈ t.columns, q = c.schema)
      ∧ (Part q t.array → q = t.array ∨ ∃ c ∈ t.columns, q = c.array) := by
  have hleaf : ∀ {d : Piece}, Part q (.mk d []) → q = .mk d [] := by
    intro d h
    cases h with
    | self => rfl
    | inside hmem => exact absurd hmem List.not_mem_nil
  constructor
  · intro h
    cases h with
    | self => exact Or.inl rfl
    | inside hmem hpart =>
        obtain ⟨c, hc, rfl⟩ := List.mem_map.mp hmem
        exact Or.inr ⟨c, hc, hleaf hpart⟩
  · intro h
    cases h with
    | self => exact Or.inl rfl
    | inside hmem hpart =>
        obtain ⟨c, hc, rfl⟩ := List.mem_map.mp hmem
        exact Or.inr ⟨c, hc, hleaf hpart⟩

/-- What is built is the structures of what is exported. -/
theorem built_events {calls : List ArrowCall} {q : Plan Piece}
    (h : q ∈ built (calls.flatMap ArrowCall.events)) :
    ∃ e ∈ exported calls, q = e.table.schema ∨ q = e.table.array := by
  obtain ⟨ev, hev, hq⟩ := List.mem_filterMap.mp h
  obtain ⟨call, hcall, hin⟩ := List.mem_flatMap.mp hev
  cases call with
  | exportTable e outArray outSchema =>
      refine ⟨e, List.mem_filterMap.mpr ⟨_, hcall, rfl⟩, ?_⟩
      rcases List.mem_append.mp hin with hin | hin
      · cases outSchema with
        | false => exact absurd hin List.not_mem_nil
        | true =>
            rw [List.mem_singleton.mp hin] at hq
            exact Or.inl (Option.some.inj hq).symm
      · cases outArray with
        | false => exact absurd hin List.not_mem_nil
        | true =>
            rw [List.mem_singleton.mp hin] at hq
            exact Or.inr (Option.some.inj hq).symm
  | release i =>
      rw [List.mem_singleton.mp hin] at hq
      exact nomatch hq
  | move i path =>
      rw [List.mem_singleton.mp hin] at hq
      exact nomatch hq

theorem sound_of_safe {calls : List ArrowCall} {s : Pool Piece Holder}
    (h : Safe Piece.holder (built (calls.flatMap ArrowCall.events)) s) : Sound calls s := by
  have hbacked : ∀ n, Reached s n → n.live = true → Backed s.memory n := by
    rintro n (hn | ⟨r, hr, hrl, hn⟩) hlive
    · exact ⟨hlive, h.lookup hn (mem_owned hlive)⟩
    · exact ⟨hlive, h.lookup hr (mem_owned_child hrl hn (mem_owned hlive))⟩
  have hinside : ∀ n ∈ s.held, Intact n → ∀ c ∈ n.children, Backed s.memory c :=
    fun n hn hintact c hc => hbacked c (Or.inr ⟨n, hn, hintact.1, hc⟩) (hintact.2 c hc)
  constructor
  case origin =>
    intro n hn
    obtain ⟨q, hq, hpart⟩ := h.origin n hn
    obtain ⟨e, he, rfl | rfl⟩ := built_events hq
    · rcases part_table.1 hpart with hroot | ⟨c, hc, hcol⟩
      · exact ⟨e, he, Or.inl hroot⟩
      · exact ⟨e, he, Or.inr (Or.inr ⟨c, hc, Or.inl hcol⟩)⟩
    · rcases part_table.2 hpart with hroot | ⟨c, hc, hcol⟩
      · exact ⟨e, he, Or.inr (Or.inl hroot)⟩
      · exact ⟨e, he, Or.inr (Or.inr ⟨c, hc, Or.inr hcol⟩)⟩
  case table =>
    intro t sch hs arr ha hsch harr hsi hai
    obtain ⟨hsd, hsc⟩ := plan_eq_mk hsch
    obtain ⟨-, hac⟩ := plan_eq_mk harr
    have hlook := (hbacked sch (Or.inl hs) hsi.1).2
    rw [hsd] at hlook
    have hcount : sch.children.length = arr.children.length := by
      have hslen := congrArg List.length hsc
      have halen := congrArg List.length hac
      rw [List.length_map, List.length_map] at hslen halen
      rw [hslen, halen]
    unfold importTable
    rw [hlook]
    dsimp only
    rw [if_pos ⟨hsi.1, hai.1, by decide, hcount⟩]
    exact importColumns_read hsc hac (hinside sch hs hsi) (hinside arr ha hai)
  case column =>
    intro c sch arr hs ha hsch harr hsl hal
    exact importColumn_read hsch harr (hbacked sch hs hsl) (hbacked arr ha hal)
  case released => exact h.empty

/--
**An export is safe and says what was exported.**

For every allocator and every sequence of exports, releases and moves, in any order: no
holder is freed twice, whatever is alive reads as the columns that were exported, also
where it has been moved out of its table, and when the consumer has released everything
it holds, no holder is left.
-/
theorem exports_sound (A : Allocator Holder) (calls : List ArrowCall) :
    ∃ s, run A calls = some s ∧ Sound calls s := by
  obtain ⟨s, hrun, hsafe⟩ := (Safe.start : Safe Piece.holder [] {}).run A
    (calls.flatMap ArrowCall.events)
  exact ⟨s, hrun, sound_of_safe hsafe⟩

end Arrow

end Mog
