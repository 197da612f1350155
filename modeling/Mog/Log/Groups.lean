import Mog.Lib.ColumnMajor
import Mog.Log.ColumnLog

/-!
# Well-formed logs

A log as its header and its row groups, and what the two readers make of the bytes: the
header reads back as the streams that were declared, and a whole group at the position of
a reader is taken or skipped as one step.

Lists of declarations and groups stand for files, and the lemmas say how a reader moves through
the bytes of one. Nothing depends on where in the file the reader is: what is left of it begins
with a whole group or it does not. Counts are 32-bit, so that a group says how many rows it has
only as long as there are fewer.
-/

namespace Mog

open Wire

/-! ## Words and cells -/

@[simp] theorem storeLe_length (n v : Nat) : (storeLe n v).length = n := by
  rw [storeLe, List.length_reverse, storeBe_length]

theorem loadLe_storeLe (n v : Nat) : loadLe (storeLe n v) = v % 256 ^ n := by
  rw [loadLe, storeLe, List.reverse_reverse, loadBe_storeBe]

theorem loadLe_storeLe_of_lt {n v : Nat} (h : v < 256 ^ n) : loadLe (storeLe n v) = v := by
  rw [loadLe_storeLe, Nat.mod_eq_of_lt h]

/-- A `u32` is read back as it was counted. -/
theorem loadLe_storeLe_u32 (v : Nat) : loadLe (storeLe 4 v) = v % 2 ^ 32 := loadLe_storeLe 4 v

@[simp] theorem Cell.store_length (c : Cell) : c.store.length = c.type.width := storeLe_length _ _

/-- **A cell is read back bit for bit.** -/
theorem Cell.load_store (c : Cell) : Cell.load c.type c.store = c := by
  have hbits : loadLe c.store % 256 ^ c.type.width = c.bits := by
    rw [Cell.store, loadLe_storeLe_of_lt c.fits, Nat.mod_eq_of_lt c.fits]
  unfold Cell.load
  simp only [hbits]

theorem ColumnType.ofCode_code {t : ColumnType} (h : 0 < t.width) : ofCode t.code = t := by
  cases t with
  | other c => exact absurd h (by simp [width])
  | _ => rfl

/-! ## The header -/

/-- A stream that is added to a log: its name and its record type. -/
structure StreamDecl where
  name : List UInt8
  type : Reflected
  name_le : name.length ≤ 255

namespace StreamDecl

/-- What a reader knows of the stream. -/
def toMeta (d : StreamDecl) : StreamMeta :=
  { name := d.name, fieldCount := d.type.fields.length, specs := d.type.fields }

def fieldBytes (f : FieldSpec) : List UInt8 := f.type.code :: UInt8.ofNat f.name.length :: f.name

/-- The stream's entry in the table. -/
def bytes (d : StreamDecl) : List UInt8 :=
  UInt8.ofNat d.name.length :: d.name ++ storeLe 4 d.type.fields.length
    ++ d.type.fields.flatMap fieldBytes

end StreamDecl

/-- The header of a log with the given streams. -/
def headerBytes (decls : List StreamDecl) : List UInt8 :=
  kLogMagic ++ storeLe 4 decls.length ++ decls.flatMap StreamDecl.bytes

theorem readName_append {name : List UInt8} (rest : List UInt8) :
    readName name.length (name ++ rest) = some (name, rest) := by
  unfold readName
  have hgo : ¬ (name.length ≠ 0 ∧ name ++ rest = []) := by
    intro h
    exact h.1 (List.length_eq_zero_iff.mpr (List.append_eq_nil_iff.mp h.2).1)
  have hpad : name.length - (name ++ rest).length = 0 := by
    rw [List.length_append]
    omega
  rw [if_neg hgo, List.take_left, List.drop_left, hpad, List.replicate_zero, List.append_nil]

theorem readName_byte {name : List UInt8} (h : name.length ≤ 255) (rest : List UInt8) :
    readName (UInt8.ofNat name.length).toNat (name ++ rest) = some (name, rest) := by
  have hlen : (UInt8.ofNat name.length).toNat = name.length := by
    rw [UInt8.toNat_ofNat']
    exact Nat.mod_eq_of_lt (by omega)
  rw [hlen, readName_append]

theorem readFields_append {fs : List FieldSpec} (hn : ∀ f ∈ fs, f.name.length ≤ 255)
    (hk : ∀ f ∈ fs, 0 < f.type.width) (rest : List UInt8) :
    readFields fs.length (fs.flatMap StreamDecl.fieldBytes ++ rest) = some (fs, rest) := by
  induction fs with
  | nil => rfl
  | cons f fs ih =>
      have hf := readName_byte (hn f List.mem_cons_self)
        (fs.flatMap StreamDecl.fieldBytes ++ rest)
      have hrest := ih (fun g hg => hn g (List.mem_cons_of_mem _ hg))
        (fun g hg => hk g (List.mem_cons_of_mem _ hg))
      have hcode := ColumnType.ofCode_code (hk f List.mem_cons_self)
      rw [List.flatMap_cons, List.append_assoc]
      show readFields (fs.length + 1) (f.type.code :: UInt8.ofNat f.name.length
        :: (f.name ++ (fs.flatMap StreamDecl.fieldBytes ++ rest))) = _
      rw [readFields, hf]
      dsimp only [Option.bind_eq_bind, Option.bind_some]
      rw [hrest]
      dsimp only [Option.bind_some]
      rw [hcode]

theorem getU32_storeLe_mod (v : Nat) (rest : List UInt8) :
    getU32 (storeLe 4 v ++ rest) = some (v % 2 ^ 32, rest) := by
  have hlen : ¬ (storeLe 4 v ++ rest).length < 4 := by
    rw [List.length_append, storeLe_length]
    omega
  unfold getU32
  rw [if_neg hlen, List.take_left' (storeLe_length 4 v), List.drop_left' (storeLe_length 4 v),
    loadLe_storeLe_u32]

theorem getU32_storeLe {v : Nat} (h : v < 2 ^ 32) (rest : List UInt8) :
    getU32 (storeLe 4 v ++ rest) = some (v, rest) := by
  rw [getU32_storeLe_mod, Nat.mod_eq_of_lt h]

theorem readStreamMeta_append (d : StreamDecl) (rest : List UInt8) :
    readStreamMeta (d.bytes ++ rest) = some (d.toMeta, rest) := by
  have hbytes : d.bytes ++ rest = UInt8.ofNat d.name.length :: (d.name ++ (storeLe 4
      d.type.fields.length ++ (d.type.fields.flatMap StreamDecl.fieldBytes ++ rest))) := by
    unfold StreamDecl.bytes
    rw [List.cons_append, List.cons_append, List.cons_append, List.append_assoc,
      List.append_assoc]
  rw [hbytes, readStreamMeta, readName_byte d.name_le]
  dsimp only [Option.bind_eq_bind, Option.bind_some]
  rw [getU32_storeLe d.type.count_lt]
  dsimp only [Option.bind_some]
  rw [readFields_append d.type.names_le d.type.known]
  rfl

theorem readStreams_append (decls : List StreamDecl) (rest : List UInt8) :
    readStreams decls.length (decls.flatMap StreamDecl.bytes ++ rest)
      = (decls.map StreamDecl.toMeta, some rest) := by
  induction decls with
  | nil => rfl
  | cons d decls ih =>
      rw [List.flatMap_cons, List.append_assoc, List.length_cons, readStreams,
        readStreamMeta_append]
      dsimp only
      rw [ih]
      rfl

theorem headerBytes_append (decls : List StreamDecl) (rest : List UInt8) :
    headerBytes decls ++ rest
      = kLogMagic ++ (storeLe 4 decls.length ++ (decls.flatMap StreamDecl.bytes ++ rest)) := by
  unfold headerBytes
  rw [List.append_assoc, List.append_assoc]

/-- **The header reads back** as the streams that it declares. -/
theorem create_header {decls : List StreamDecl} (h : decls.length < 2 ^ 32) (rest : List UInt8) :
    ColumnLogReader.create (headerBytes decls ++ rest)
      = { streams := decls.map StreamDecl.toMeta, data := rest } := by
  have hmagic : kLogMagic.length = 8 := rfl
  unfold ColumnLogReader.create
  rw [headerBytes_append, List.take_left' hmagic, List.drop_left' hmagic,
    if_neg (not_not.mpr rfl), getU32_storeLe h]
  dsimp only
  rw [readStreams_append]

/-- A stream count that comes round to zero reads as no streams. -/
theorem create_wrapped {decls : List StreamDecl} (h : decls.length % 2 ^ 32 = 0)
    (rest : List UInt8) : (ColumnLogReader.create (headerBytes decls ++ rest)).streams = [] := by
  have hmagic : kLogMagic.length = 8 := rfl
  unfold ColumnLogReader.create
  rw [headerBytes_append, List.take_left' hmagic, List.drop_left' hmagic,
    if_neg (not_not.mpr rfl), getU32_storeLe_mod, h]
  rfl

/-! ## Row groups -/

structure Group where
  stream : Nat
  rows : Nat
  payload : List UInt8

/-- The payload of `rows` records of a schema. -/
def payloadSize (S : List FieldSpec) (rows : Nat) : Nat := (S.map fun f => f.type.width * rows).sum

namespace Group

def bytes (g : Group) : List UInt8 := storeLe 4 g.stream ++ storeLe 4 g.rows ++ g.payload

/-- The group belongs to one of the streams and holds its rows whole. -/
structure Fits (decls : List StreamDecl) (g : Group) : Prop where
  rows_lt : g.rows < 2 ^ 32
  payload : ∃ d, decls[g.stream]? = some d ∧ g.payload.length = payloadSize d.type.fields g.rows

/-- The records of a group whose columns have the types of `S`. -/
def records (S : List FieldSpec) (g : Group) : List Record :=
  (loadRecords g.payload S (columnOffsets g.rows 0 (S.map fun f => f.type.width)) g.rows 0).1

/-- The records that a group has for stream `i`. -/
def recordsFor (S : List FieldSpec) (i : Nat) (g : Group) : List Record :=
  if g.stream = i then g.records S else []

end Group

/-- A well-formed log. -/
structure LogFile where
  decls : List StreamDecl
  groups : List Group
  count_lt : decls.length < 2 ^ 32
  fits : ∀ g ∈ groups, g.Fits decls

def LogFile.bytes (log : LogFile) : List UInt8 :=
  headerBytes log.decls ++ log.groups.flatMap Group.bytes

/-! ## Records in a buffer -/

/-- A record is the strided reads of its columns. -/
theorem loadRecord_eq (buf : List UInt8) (n r : Nat) (S : List FieldSpec) (off : Nat) :
    loadRecord buf r S (columnOffsets n off (S.map fun f => f.type.width))
      = some (List.zipWith Cell.load (S.map FieldSpec.type)
          (ColumnMajor.readRow buf n r off (S.map fun f => f.type.width))) := by
  induction S generalizing off with
  | nil => rfl
  | cons f S ih =>
      rw [List.map_cons, columnOffsets, loadRecord, if_neg (not_not.mpr rfl), ih]
      rfl

/-- The records of a buffer, where each of them can be read. -/
theorem loadRecords_of {buf : List UInt8} {S : List FieldSpec} {cols : List (Nat × Nat)}
    {recs : List Record} (h : ∀ i rec, recs[i]? = some rec → loadRecord buf i S cols = some rec)
    {n r : Nat} (hn : r + n = recs.length) :
    loadRecords buf S cols n r = (recs.drop r, true) := by
  induction n generalizing r with
  | zero =>
      rw [List.drop_eq_nil_of_le (by omega)]
      rfl
  | succ n ih =>
      have hr : r < recs.length := by omega
      rw [loadRecords, h r recs[r] (List.getElem?_eq_getElem hr), ih (by omega),
        List.drop_eq_getElem_cons hr]

/-- A schema's own columns can be read from any buffer. -/
theorem loadRecords_ok (buf : List UInt8) (S : List FieldSpec) (n : Nat) :
    (loadRecords buf S (columnOffsets n 0 (S.map fun f => f.type.width)) n 0).2 = true := by
  have hall := @loadRecords_of buf S (columnOffsets n 0 (S.map fun f => f.type.width))
    ((List.range n).map fun r => List.zipWith Cell.load (S.map FieldSpec.type)
      (ColumnMajor.readRow buf n r 0 (S.map fun f => f.type.width))) ?_ n 0 (by simp)
  · rw [hall]
  · intro i rec hrec
    rw [List.getElem?_map] at hrec
    obtain ⟨j, hj, rfl⟩ := Option.map_eq_some_iff.mp hrec
    rw [List.getElem?_eq_some_iff] at hj
    obtain ⟨_, hj⟩ := hj
    rw [List.getElem_range] at hj
    rw [← hj]
    exact loadRecord_eq buf n i S 0

/-! ## One group at the reader's position -/

/-- A reader's result with records delivered before. -/
def ReadResult.after (recs : List Record) (res : ReadResult) : ReadResult :=
  { res with delivered := recs ++ res.delivered }

theorem ReadResult.after_after (a b : List Record) (res : ReadResult) :
    (res.after b).after a = res.after (a ++ b) := by
  unfold ReadResult.after
  rw [List.append_assoc]

namespace Group

theorem bytes_length (g : Group) : g.bytes.length = 8 + g.payload.length := by
  unfold bytes
  rw [List.length_append, List.length_append, storeLe_length, storeLe_length]

/-- The two words of a group's header. -/
theorem words {g : Group} (hs : g.stream < 2 ^ 32) (hr : g.rows < 2 ^ 32) (rest : List UInt8) :
    loadLe ((storeLe 4 g.stream ++ storeLe 4 g.rows ++ rest).take 4) = g.stream
      ∧ loadLe (((storeLe 4 g.stream ++ storeLe 4 g.rows ++ rest).drop 4).take 4) = g.rows
      ∧ (storeLe 4 g.stream ++ storeLe 4 g.rows ++ rest).drop 8 = rest := by
  have h4 : ∀ v, (storeLe 4 v).length = 4 := storeLe_length 4
  have h8 : (storeLe 4 g.stream ++ storeLe 4 g.rows).length = 8 := by
    rw [List.length_append, h4, h4]
  refine ⟨?_, ?_, List.drop_left' h8⟩
  · rw [List.append_assoc, List.take_left' (h4 _), loadLe_storeLe_u32, Nat.mod_eq_of_lt hs]
  · rw [List.append_assoc, List.drop_left' (h4 _), List.take_left' (h4 _), loadLe_storeLe_u32,
      Nat.mod_eq_of_lt hr]

end Group

/-- Nothing left to read. -/
theorem readLoop_nil (r : ColumnLogReader) (S : Reflected) (i fuel : Nat) :
    r.readLoop S i fuel [] = { ok := true, error := r.error, delivered := [] } := by
  cases fuel with
  | zero => rfl
  | succ fuel => exact if_pos (by decide)

section

variable {decls : List StreamDecl} (hcount : decls.length < 2 ^ 32)

/-- The reader of a log with the given streams. -/
def readerOf (decls : List StreamDecl) (data : List UInt8) : ColumnLogReader :=
  { streams := decls.map StreamDecl.toMeta, data }

theorem readerOf_schema {d : StreamDecl} {i : Nat} (hd : decls[i]? = some d) (data : List UInt8) :
    (readerOf decls data).schema i = d.type.fields := by
  unfold ColumnLogReader.schema readerOf
  dsimp only
  rw [List.getElem?_map, hd]
  rfl

theorem readerOf_payload {d : StreamDecl} {i : Nat} (hd : decls[i]? = some d) (data : List UInt8)
    (rows : Nat) : (readerOf decls data).groupPayload i rows = payloadSize d.type.fields rows := by
  unfold ColumnLogReader.groupPayload payloadSize
  rw [readerOf_schema hd]

include hcount

theorem Group.stream_lt {g : Group} (hg : g.Fits decls) : g.stream < 2 ^ 32 := by
  obtain ⟨d, hd, -⟩ := hg.payload
  have := (List.getElem?_eq_some_iff.mp hd).1
  omega

/-- **A whole group** is one pass of the reader's loop. -/
theorem readLoop_group {d : StreamDecl} {i : Nat} (hd : decls[i]? = some d) {g : Group}
    (hg : g.Fits decls) (data rest : List UInt8) (fuel : Nat) :
    (readerOf decls data).readLoop d.type i (fuel + 1) (g.bytes ++ rest)
      = ((readerOf decls data).readLoop d.type i fuel rest).after
          (g.recordsFor d.type.fields i) := by
  obtain ⟨e, he, hlen⟩ := hg.payload
  have hbytes : g.bytes ++ rest
      = storeLe 4 g.stream ++ storeLe 4 g.rows ++ (g.payload ++ rest) := List.append_assoc _ _ _
  obtain ⟨hsi, hrows, hdrop⟩ :=
    Group.words (Group.stream_lt hcount hg) hg.rows_lt (g.payload ++ rest)
  have hlong : ¬ (g.bytes ++ rest).length < 8 := by
    rw [List.length_append, g.bytes_length]
    omega
  rw [ColumnLogReader.readLoop, if_neg hlong, hbytes]
  dsimp only
  rw [hsi, hrows, hdrop]
  by_cases hskip : g.stream ≠ i ∨ g.rows = 0
  · rw [if_pos hskip, readerOf_payload he, ← hlen, List.drop_left]
    -- A skipped group has nothing for the stream: it is another's, or has no rows.
    have hnone : g.recordsFor d.type.fields i = [] := by
      unfold Group.recordsFor
      by_cases hother : g.stream = i
      · rw [if_pos hother]
        have hzero : g.rows = 0 := hskip.resolve_left (not_not.mpr hother)
        unfold Group.records
        rw [hzero]
        rfl
      · rw [if_neg hother]
    rw [hnone]
    rfl
  · rw [if_neg hskip]
    obtain ⟨hmine, -⟩ := not_or.mp hskip
    have hmine : g.stream = i := not_not.mp hmine
    have hed : e = d := by
      rw [hmine, hd] at he
      exact (Option.some.inj he).symm
    rw [hed] at hlen
    have henough : ¬ (g.payload ++ rest).length < payloadSize d.type.fields g.rows := by
      rw [List.length_append]
      omega
    rw [readerOf_payload hd, if_neg henough, ← hlen, List.take_left, List.drop_left,
      readerOf_schema hd, if_neg (by rw [loadRecords_ok]; exact Bool.noConfusion)]
    unfold Group.recordsFor
    rw [if_pos hmine]
    rfl

/-- **A run of whole groups**, whatever comes next. -/
theorem readLoop_groups {d : StreamDecl} {i : Nat} (hd : decls[i]? = some d) {gs : List Group}
    (hgs : ∀ g ∈ gs, g.Fits decls) (data rest : List UInt8) {fuel : Nat}
    (hf : (gs.flatMap Group.bytes ++ rest).length ≤ fuel) :
    ∃ left, rest.length ≤ left
      ∧ (readerOf decls data).readLoop d.type i fuel (gs.flatMap Group.bytes ++ rest)
        = ((readerOf decls data).readLoop d.type i left rest).after
            (gs.flatMap (Group.recordsFor d.type.fields i)) := by
  induction gs generalizing fuel with
  | nil => exact ⟨fuel, hf, rfl⟩
  | cons g gs ih =>
      rw [List.flatMap_cons, List.append_assoc] at hf ⊢
      have hlen := g.bytes_length
      rw [List.length_append] at hf
      cases fuel with
      | zero => omega
      | succ fuel =>
          obtain ⟨left, hleft, hrest⟩ := @ih (fun x hx => hgs x (List.mem_cons_of_mem _ hx))
            fuel (by omega)
          refine ⟨left, hleft, ?_⟩
          rw [readLoop_group hcount hd (hgs g List.mem_cons_self), hrest,
            ReadResult.after_after, List.flatMap_cons]

end

end Mog
