import Mog.Wire.Codec

/-!
# The column log

The columnar event log: a magic, a table of streams with their schemas, then row groups,
each a stream's number, a row count and the columns one after the other. The writer
buffers the cells of every column and writes one group for each stream that has rows at a
flush; the reader takes the groups of one stream and skips the others. `moglog.py` reads
the same file.

A file is the list of its bytes. A reader's position is what is left of the file: seeking
past the end succeeds, as it does on any file, and leaves nothing to read.
-/

namespace Mog

open Wire

/-! ## Little-endian words -/

/-- The low `n` bytes of `v`, the least significant first. -/
def storeLe (n v : Nat) : List UInt8 := (storeBe n v).reverse

def loadLe (l : List UInt8) : Nat := loadBe l.reverse

/-! ## Schemas and records -/

/-- The codes of the column types; a code byte may be none of the five. -/
inductive ColumnType where
  | u8
  | u32
  | u64
  | i64
  | f64
  | other (code : UInt8)
deriving DecidableEq, Repr

namespace ColumnType

def code : ColumnType → UInt8
  | u8 => 0
  | u32 => 1
  | u64 => 2
  | i64 => 3
  | f64 => 4
  | other c => c

def ofCode (c : UInt8) : ColumnType :=
  if c = 0 then u8 else if c = 1 then u32 else if c = 2 then u64 else if c = 3 then i64
  else if c = 4 then f64 else other c

/-- `column_type_name`, in bytes. -/
def typeName : ColumnType → List UInt8
  | u8 => [117, 56]
  | u32 => [117, 51, 50]
  | u64 => [117, 54, 52]
  | i64 => [105, 54, 52]
  | f64 => [102, 54, 52]
  | other _ => [63]

def width : ColumnType → Nat
  | u8 => 1
  | u32 => 4
  | u64 => 8
  | i64 => 8
  | f64 => 8
  | other _ => 0

end ColumnType

structure FieldSpec where
  name : List UInt8
  type : ColumnType
deriving DecidableEq

/-- Every field's name, a colon, its type's name and a comma. -/
def schemaFingerprint (specs : List FieldSpec) : List UInt8 :=
  specs.flatMap fun f => f.name ++ 58 :: f.type.typeName ++ [44]

/-- A reflected record type. -/
structure Reflected where
  fields : List FieldSpec
  names_le : ∀ f ∈ fields, f.name.length ≤ 255
  known : ∀ f ∈ fields, 0 < f.type.width
  count_lt : fields.length < 2 ^ 32

/-- One field of a record: its bits as a number, signed and floating values included. -/
structure Cell where
  type : ColumnType
  bits : Nat
  fits : bits < 256 ^ type.width
deriving DecidableEq

/-- The bytes that `memcpy` moves. -/
def Cell.store (c : Cell) : List UInt8 := storeLe c.type.width c.bits

def Cell.load (t : ColumnType) (bytes : List UInt8) : Cell :=
  { type := t
    bits := loadLe bytes % 256 ^ t.width
    fits := Nat.mod_lt _ (Nat.pow_pos (by decide)) }

abbrev Record := List Cell

/-- The record has the type that `S` reflects. -/
def Record.HasType (rec : Record) (S : List FieldSpec) : Prop :=
  rec.map Cell.type = S.map FieldSpec.type

instance (rec : Record) (S : List FieldSpec) : Decidable (rec.HasType S) :=
  inferInstanceAs (Decidable (_ = _))

/-! ## The writer -/

/-- `MOGLOG`, 1, 0. -/
def kLogMagic : List UInt8 := [77, 79, 71, 76, 79, 71, 1, 0]

structure LogStream where
  specs : List FieldSpec
  widths : List Nat
  colPending : List (List UInt8)
  rows : Nat := 0
  rowsTotal : Nat := 0

structure ColumnLogWriter where
  file : List UInt8
  streams : List LogStream := []
  bytesWritten : Nat := 0
  sealed : Bool := false

namespace ColumnLogWriter

def write (w : ColumnLogWriter) (bytes : List UInt8) : ColumnLogWriter :=
  { w with file := w.file ++ bytes }

def putU32 (w : ColumnLogWriter) (v : Nat) : ColumnLogWriter :=
  { w.write (storeLe 4 v) with bytesWritten := w.bytesWritten + 4 }

/-- A writer on an empty file. -/
def create : ColumnLogWriter := ({ file := kLogMagic } : ColumnLogWriter).putU32 0

/-- The stream count is rewritten in its place after the magic. -/
def patchCount (w : ColumnLogWriter) : ColumnLogWriter :=
  { w with file := w.file.take 8 ++ storeLe 4 w.streams.length ++ w.file.drop 12 }

def putField (w : ColumnLogWriter) (f : FieldSpec) : ColumnLogWriter :=
  w.write (f.type.code :: UInt8.ofNat f.name.length :: f.name)

def addStream (w : ColumnLogWriter) (name : List UInt8) (S : Reflected) : ColumnLogWriter :=
  let w := w.write (UInt8.ofNat name.length :: name)
  let w := w.putU32 S.fields.length
  let w := S.fields.foldl putField w
  let st : LogStream :=
    { specs := S.fields
      widths := S.fields.map fun f => f.type.width
      colPending := S.fields.map fun _ => [] }
  ({ w with streams := w.streams ++ [st] } : ColumnLogWriter).patchCount

/-- Each cell goes to the end of its column's buffer. -/
def putCells : List (List UInt8) → Record → List (List UInt8)
  | col :: cols, c :: cs => (col ++ c.store) :: putCells cols cs
  | cols, _ => cols

/-- The row counter of a stream is a `u32`. -/
def append (w : ColumnLogWriter) (stream : Nat) (rec : Record) : ColumnLogWriter :=
  { w with
    streams := w.streams.modify stream fun st =>
      { st with colPending := putCells st.colPending rec, rows := (st.rows + 1) % 2 ^ 32 } }

def flushStream (w : ColumnLogWriter) (si : Nat) : ColumnLogWriter :=
  match w.streams[si]? with
  | none => w
  | some st =>
      if st.rows = 0 then w
      else
        let w := ({ w with sealed := true } : ColumnLogWriter)
        let w := (w.putU32 si).putU32 st.rows
        let w := w.write st.colPending.flatten
        { w with
          bytesWritten := w.bytesWritten + st.colPending.flatten.length
          streams := w.streams.set si { st with
            colPending := st.colPending.map fun _ => []
            rows := 0
            rowsTotal := st.rowsTotal + st.rows } }

/-- Every buffered row, one row group for each stream. -/
def flush (w : ColumnLogWriter) : ColumnLogWriter :=
  (List.range w.streams.length).foldl flushStream w

/-- The first close; a closed writer is not used again. -/
def close (w : ColumnLogWriter) : ColumnLogWriter := w.flush

end ColumnLogWriter

/-! ## The reader -/

structure StreamMeta where
  name : List UInt8
  fieldCount : Nat
  specs : List FieldSpec
deriving DecidableEq

/-- `get` of a `u32`: the word and what follows it. -/
def getU32 (rest : List UInt8) : Option (Nat × List UInt8) :=
  if rest.length < 4 then none else some (loadLe (rest.take 4), rest.drop 4)

/-- A name of `n` bytes. Only a read of nothing at all is noticed; what is missing of a name that
was begun stays zero. -/
def readName (n : Nat) (rest : List UInt8) : Option (List UInt8 × List UInt8) :=
  if n ≠ 0 ∧ rest = [] then none
  else some (rest.take n ++ List.replicate (n - rest.length) 0, rest.drop n)

def readFields : Nat → List UInt8 → Option (List FieldSpec × List UInt8)
  | 0, rest => some ([], rest)
  | n + 1, tc :: nl :: rest => do
      let (name, rest) ← readName nl.toNat rest
      let (specs, rest) ← readFields n rest
      some ({ name, type := ColumnType.ofCode tc } :: specs, rest)
  | _ + 1, _ => none

def readStreamMeta : List UInt8 → Option (StreamMeta × List UInt8)
  | [] => none
  | nl :: rest => do
      let (name, rest) ← readName nl.toNat rest
      let (fieldCount, rest) ← getU32 rest
      let (specs, rest) ← readFields fieldCount rest
      some ({ name, fieldCount, specs }, rest)

/-- The streams read before the table ends or breaks off, and what follows a whole table. -/
def readStreams : Nat → List UInt8 → List StreamMeta × Option (List UInt8)
  | 0, rest => ([], some rest)
  | n + 1, rest =>
      match readStreamMeta rest with
      | none => ([], none)
      | some (sm, rest) =>
          let others := readStreams n rest
          (sm :: others.1, others.2)

structure ColumnLogReader where
  streams : List StreamMeta := []
  error : String := ""
  /-- The file from `data_begin_` on. -/
  data : List UInt8

/-- The outcome of `read_stream`: its result, the reader's error and the records given to the
sink. -/
structure ReadResult where
  ok : Bool
  error : String
  delivered : List Record
deriving DecidableEq

namespace ColumnLogReader

def create (file : List UInt8) : ColumnLogReader :=
  if file.take 8 ≠ kLogMagic then { error := "bad magic", data := file }
  else
    match getU32 (file.drop 8) with
    | none => { error := "truncated header", data := file }
    | some (n, rest) =>
        match readStreams n rest with
        | (streams, none) => { streams, error := "truncated", data := file }
        | (streams, some data) => { streams, data }

variable (r : ColumnLogReader)

def schema (i : Nat) : List FieldSpec :=
  match r.streams[i]? with
  | none => []
  | some sm => sm.specs

def schemaMatches (S : Reflected) (stream : Nat) : Prop :=
  schemaFingerprint S.fields = schemaFingerprint (r.schema stream)

instance (S : Reflected) (stream : Nat) : Decidable (r.schemaMatches S stream) :=
  inferInstanceAs (Decidable (_ = _))

/-- A payload is what one file holds, so its size is far below `2 ^ 63`. -/
def groupPayload (stream rows : Nat) : Nat :=
  ((r.schema stream).map fun f => f.type.width * rows).sum

end ColumnLogReader

/-- Each column's width and offset; column `c` starts at the payload of the columns before it. -/
def columnOffsets (rows : Nat) : Nat → List Nat → List (Nat × Nat)
  | _, [] => []
  | acc, w :: ws => (w, acc) :: columnOffsets rows (acc + w * rows) ws

/-- Record `r` of a group's buffer, unless a field is not as wide as its column. -/
def loadRecord (buf : List UInt8) (r : Nat) : List FieldSpec → List (Nat × Nat) → Option Record
  | [], _ => some []
  | fld :: flds, (w, off) :: cols =>
      if w ≠ fld.type.width then none
      else
        (loadRecord buf r flds cols).map fun rest =>
          Cell.load fld.type ((buf.drop (off + r * w)).take w) :: rest
  | _ :: _, [] => none

/-- `n` records from record `r` on, up to the first that cannot be read. -/
def loadRecords (buf : List UInt8) (flds : List FieldSpec) (cols : List (Nat × Nat)) :
    Nat → Nat → List Record × Bool
  | 0, _ => ([], true)
  | n + 1, r =>
      match loadRecord buf r flds cols with
      | none => ([], false)
      | some rec =>
          let others := loadRecords buf flds cols n (r + 1)
          (rec :: others.1, others.2)

namespace ColumnLogReader

variable (r : ColumnLogReader)

/-- The loop of `read_stream`; every pass takes a group header of eight bytes, so a fuel of the
bytes left is enough. -/
def readLoop (S : Reflected) (stream : Nat) : Nat → List UInt8 → ReadResult
  | 0, _ => { ok := true, error := r.error, delivered := [] }
  | fuel + 1, rest =>
      if rest.length < 8 then { ok := true, error := r.error, delivered := [] }
      else
        let si := loadLe (rest.take 4)
        let rows := loadLe ((rest.drop 4).take 4)
        let rest := rest.drop 8
        if si ≠ stream ∨ rows = 0 then readLoop S stream fuel (rest.drop (r.groupPayload si rows))
        else
          let total := r.groupPayload stream rows
          if rest.length < total then { ok := false, error := "truncated group", delivered := [] }
          else
            let cols := columnOffsets rows 0 ((r.schema stream).map fun f => f.type.width)
            let recs := loadRecords (rest.take total) S.fields cols rows 0
            if recs.2 = false then
              { ok := false, error := "field width mismatch", delivered := recs.1 }
            else
              let next := readLoop S stream fuel (rest.drop total)
              { next with delivered := recs.1 ++ next.delivered }

/-- `read_stream` from the position where `rest` is left of the file. -/
def readStream (S : Reflected) (stream : Nat) (rest : List UInt8) : ReadResult :=
  if r.schemaMatches S stream then r.readLoop S stream rest.length rest
  else { ok := false, error := r.error, delivered := [] }

end ColumnLogReader

/-! ## `moglog.py` -/

namespace Moglog

def readExact (n : Nat) (rest : List UInt8) : Except String (List UInt8 × List UInt8) :=
  if rest.length < n then .error "truncated file" else .ok (rest.take n, rest.drop n)

/-- The values of one column. -/
def readValues (w : Nat) : Nat → List UInt8 → Except String (List Nat × List UInt8)
  | 0, rest => .ok ([], rest)
  | n + 1, rest => do
      let (bytes, rest) ← readExact w rest
      let (vals, rest) ← readValues w n rest
      .ok (loadLe bytes :: vals, rest)

/-- The columns of a group under their names; a type code without a width is a `KeyError`. -/
def readColumns (rows : Nat) : List FieldSpec →
    List UInt8 → Except String (List (List UInt8 × List Nat) × List UInt8)
  | [], rest => .ok ([], rest)
  | f :: fs, rest => do
      if f.type.width = 0 then .error "KeyError"
      let (vals, rest) ← readValues f.type.width rows rest
      let (cols, rest) ← readColumns rows fs rest
      .ok ((f.name, vals) :: cols, rest)

/-- The groups yielded, and the error that ends them, if one does. -/
def iterGroups (streams : List StreamMeta) :
    Nat → List UInt8 → List (Nat × List (List UInt8 × List Nat)) × Option String
  | 0, _ => ([], none)
  | fuel + 1, rest =>
      if rest.length = 0 then ([], none)
      else if rest.length < 8 then ([], some "truncated group header")
      else
        let si := loadLe (rest.take 4)
        let rows := loadLe ((rest.drop 4).take 4)
        match streams[si]? with
        | none => ([], some s!"group references stream {si} beyond schema")
        | some sm =>
            match readColumns rows sm.specs (rest.drop 8) with
            | .error e => ([], some e)
            | .ok (cols, rest) =>
                let others := iterGroups streams fuel rest
                ((si, cols) :: others.1, others.2)

end Moglog

end Mog
