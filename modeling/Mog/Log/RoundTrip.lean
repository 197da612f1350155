import Mog.Log.Groups

/-!
# The round trip

Whatever the interleaving of appends and flushes, a closed log is well formed: its header
declares the streams that were added, and its groups hold, stream by stream, the records
that were appended. A batch is the records of one stream that one flush writes.

The counts that the file stores in 32 bits bound all this: rows of a group and streams.

The invariant of a run, `Models`, says that what has been written and what is still buffered
make up, stream by stream, all that was appended. A flush moves one stream's buffer into a group
of the file, and the closing flush leaves nothing behind; the reader is then run over the groups
one after the other.
-/

namespace Mog

/-! ## A batch of records and its group -/

def Record.cells (rec : Record) : List (List UInt8) := rec.map Cell.store

theorem Record.shaped {rec : Record} {S : List FieldSpec} (h : rec.HasType S) :
    ColumnMajor.Shaped (S.map fun f => f.type.width) rec.cells := by
  have hwidths := congrArg (List.map ColumnType.width) h
  rw [List.map_map, List.map_map] at hwidths
  have hlen : List.length ∘ Cell.store = ColumnType.width ∘ Cell.type :=
    funext fun c => c.store_length
  unfold ColumnMajor.Shaped Record.cells
  rw [List.map_map, hlen]
  exact hwidths

/-- **A record is read back from its cells.** -/
theorem Record.load_cells {rec : Record} {S : List FieldSpec} (h : rec.HasType S) :
    List.zipWith Cell.load (S.map FieldSpec.type) rec.cells = rec := by
  have hload : (fun c : Cell => Cell.load c.type c.store) = id := funext Cell.load_store
  unfold Record.cells
  rw [← h, List.zipWith_map, List.zipWith_self, hload, List.map_id]

structure Batch where
  stream : Nat
  recs : List Record

namespace Batch

/-- The columns of a batch. -/
def columns (S : List FieldSpec) (recs : List Record) : List (List UInt8) :=
  ColumnMajor.columns (S.map fun f => f.type.width) (recs.map Record.cells)

def group (S : List FieldSpec) (b : Batch) : Group :=
  { stream := b.stream, rows := b.recs.length, payload := (columns S b.recs).flatten }

variable {S : List FieldSpec} {recs : List Record}

theorem shaped_cells (h : ∀ rec ∈ recs, rec.HasType S) :
    ∀ row ∈ recs.map Record.cells, ColumnMajor.Shaped (S.map fun f => f.type.width) row := by
  intro row hrow
  obtain ⟨rec, hrec, rfl⟩ := List.mem_map.mp hrow
  exact Record.shaped (h rec hrec)

theorem payload_length (h : ∀ rec ∈ recs, rec.HasType S) :
    (columns S recs).flatten.length = payloadSize S recs.length := by
  unfold columns payloadSize
  rw [ColumnMajor.columns_length (shaped_cells h), List.map_map, List.length_map]
  rfl

/-- **The records of a batch's group** are the batch. -/
theorem group_records {b : Batch} (h : ∀ rec ∈ b.recs, rec.HasType S) :
    (b.group S).records S = b.recs := by
  have hload : ∀ i rec, b.recs[i]? = some rec →
      loadRecord (b.group S).payload i S
        (columnOffsets b.recs.length 0 (S.map fun f => f.type.width)) = some rec := by
    intro i rec hrec
    have hrow : (b.recs.map Record.cells)[i]? = some rec.cells := by
      rw [List.getElem?_map, hrec]
      rfl
    have hread := ColumnMajor.readRow_columns (shaped_cells h) hrow [] []
    rw [List.nil_append, List.append_nil, List.length_map] at hread
    rw [loadRecord_eq]
    show some (List.zipWith Cell.load (S.map FieldSpec.type)
      (ColumnMajor.readRow (columns S b.recs).flatten b.recs.length i 0
        (S.map fun f => f.type.width))) = some rec
    rw [show ColumnMajor.readRow (columns S b.recs).flatten b.recs.length i 0
      (S.map fun f => f.type.width) = rec.cells from hread,
      Record.load_cells (h rec (List.mem_of_getElem? hrec))]
  have hall := loadRecords_of hload (Nat.zero_add b.recs.length)
  exact congrArg Prod.fst hall

end Batch

/-! ## The calls of a writer -/

inductive WriterCall where
  | addStream (d : StreamDecl)
  | append (stream : Nat) (rec : Record)
  | flush

namespace WriterCall

/-- The streams that the calls add. -/
def declared : List WriterCall → List StreamDecl
  | [] => []
  | addStream d :: cs => d :: declared cs
  | _ :: cs => declared cs

/-- The records that the calls append to stream `i`. -/
def appended (i : Nat) : List WriterCall → List Record
  | [] => []
  | append stream rec :: cs => if stream = i then rec :: appended i cs else appended i cs
  | _ :: cs => appended i cs

end WriterCall

namespace ColumnLogWriter

def call (w : ColumnLogWriter) : WriterCall → ColumnLogWriter
  | .addStream d => w.addStream d.name d.type
  | .append stream rec => w.append stream rec
  | .flush => w.flush

def run : List WriterCall → ColumnLogWriter → ColumnLogWriter
  | [], w => w
  | c :: cs, w => run cs (w.call c)

/-- `P` holds of each call, where it is made. -/
def Along (P : ColumnLogWriter → WriterCall → Prop) : List WriterCall → ColumnLogWriter → Prop
  | [], _ => True
  | c :: cs, w => P w c ∧ Along P cs (w.call c)

/-- Streams are added before rows have been written, and a record is appended to a stream of its
type. -/
def Promised (w : ColumnLogWriter) : WriterCall → Prop
  | .addStream _ => w.sealed = false
  | .append stream rec => ∃ st, w.streams[stream]? = some st ∧ rec.HasType st.specs
  | .flush => True

/-- No count reaches `2 ^ 32`: of streams, and of the rows that a stream has buffered. -/
def Counted (w : ColumnLogWriter) : WriterCall → Prop
  | .addStream _ => w.streams.length + 1 < 2 ^ 32
  | .append stream _ => ∀ st, w.streams[stream]? = some st → st.rows + 1 < 2 ^ 32
  | .flush => True

/-! ## What a writer has written and buffered -/

/-- The schema of stream `i`. -/
def schemaOf (decls : List StreamDecl) (i : Nat) : List FieldSpec :=
  match decls[i]? with
  | none => []
  | some d => d.type.fields

theorem schemaOf_eq {decls : List StreamDecl} {i : Nat} {d : StreamDecl} (h : decls[i]? = some d) :
    schemaOf decls i = d.type.fields := by
  unfold schemaOf
  rw [h]

/-- The records of stream `i` in the batches. -/
def recordsOf (written : List Batch) (i : Nat) : List Record :=
  written.flatMap fun b => if b.stream = i then b.recs else []

/-- The stream's buffers hold `recs`. -/
structure Buffers (st : LogStream) (S : List FieldSpec) (recs : List Record) : Prop where
  specs : st.specs = S
  columns : st.colPending = Batch.columns S recs
  rows : st.rows = recs.length
  lt : recs.length < 2 ^ 32
  typed : ∀ rec ∈ recs, rec.HasType S

/-- The writer has added `decls`, written the batches `written`, and buffers `pending`; together
these are the records `total` of each stream. -/
structure Models (w : ColumnLogWriter) (decls : List StreamDecl) (total : Nat → List Record)
    (written : List Batch) (pending : Nat → List Record) : Prop where
  file : w.file = headerBytes decls ++ written.flatMap fun b =>
    (b.group (schemaOf decls b.stream)).bytes
  unsealed : w.sealed = false → written = []
  count : w.streams.length = decls.length
  count_lt : decls.length < 2 ^ 32
  streams : ∀ i d, decls[i]? = some d →
    ∃ st, w.streams[i]? = some st ∧ Buffers st d.type.fields (pending i)
  beyond : ∀ i, decls.length ≤ i → pending i = []
  batches : ∀ b ∈ written, ∃ d, decls[b.stream]? = some d ∧ b.recs.length < 2 ^ 32
    ∧ ∀ rec ∈ b.recs, rec.HasType d.type.fields
  total : ∀ i, recordsOf written i ++ pending i = total i

variable {w : ColumnLogWriter} {decls : List StreamDecl} {total : Nat → List Record}
  {written : List Batch} {pending : Nat → List Record}

theorem models_create : Models create [] (fun _ => []) [] (fun _ => []) where
  file := rfl
  unsealed _ := rfl
  count := rfl
  count_lt := by decide
  streams i d h := absurd h nofun
  beyond _ _ := rfl
  batches b hb := absurd hb List.not_mem_nil
  total _ := rfl

theorem putFields_file (fs : List FieldSpec) (w : ColumnLogWriter) :
    (fs.foldl putField w).file = w.file ++ fs.flatMap StreamDecl.fieldBytes
      ∧ (fs.foldl putField w).streams = w.streams ∧ (fs.foldl putField w).sealed = w.sealed := by
  induction fs generalizing w with
  | nil => exact ⟨(List.append_nil _).symm, rfl, rfl⟩
  | cons f fs ih =>
      obtain ⟨hfile, hstreams, hsealed⟩ := ih (w.putField f)
      refine ⟨?_, hstreams, hsealed⟩
      rw [List.foldl_cons, hfile, List.flatMap_cons, ← List.append_assoc]
      rfl

/-- The stream that is added to a header of the streams `decls`. -/
theorem addStream_eq {d : StreamDecl} (hfile : w.file = headerBytes decls)
    (hcount : w.streams.length = decls.length) :
    (w.addStream d.name d.type).file = headerBytes (decls ++ [d])
      ∧ (w.addStream d.name d.type).streams = w.streams ++ [
          { specs := d.type.fields
            widths := d.type.fields.map fun f => f.type.width
            colPending := d.type.fields.map fun _ => [] }]
      ∧ (w.addStream d.name d.type).sealed = w.sealed := by
  obtain ⟨hf, hs, hz⟩ := putFields_file d.type.fields
    ((w.write (UInt8.ofNat d.name.length :: d.name)).putU32 d.type.fields.length)
  have hentry : (d.type.fields.foldl putField
      ((w.write (UInt8.ofNat d.name.length :: d.name)).putU32 d.type.fields.length)).file
      = kLogMagic ++ (storeLe 4 decls.length ++ (decls ++ [d]).flatMap StreamDecl.bytes) := by
    rw [hf]
    show ((w.file ++ UInt8.ofNat d.name.length :: d.name) ++ storeLe 4 d.type.fields.length) ++ _ = _
    rw [hfile, List.flatMap_append, headerBytes]
    simp only [List.append_assoc, List.flatMap_cons, List.flatMap_nil, List.append_nil,
      StreamDecl.bytes, List.cons_append]
  unfold addStream
  dsimp only
  generalize d.type.fields.foldl putField
    ((w.write (UInt8.ofNat d.name.length :: d.name)).putU32 d.type.fields.length) = v at hs hz hentry
  refine ⟨?_, congrArg (· ++ _) hs, hz⟩
  have hmagic : kLogMagic.length = 8 := rfl
  have h12 : (kLogMagic ++ storeLe 4 decls.length).length = 12 := by
    rw [List.length_append, storeLe_length]
    rfl
  have hlen : (v.streams ++ [({ specs := d.type.fields
                                widths := d.type.fields.map fun f => f.type.width
                                colPending := d.type.fields.map fun _ => [] } : LogStream)]).length
      = (decls ++ [d]).length := by
    rw [hs, List.length_append, List.length_append]
    exact congrArg (· + 1) hcount
  unfold patchCount
  dsimp only
  rw [hlen, hentry, List.take_left' hmagic, ← List.append_assoc, List.drop_left' h12]
  rfl

theorem Models.addStream (h : Models w decls total written pending) {d : StreamDecl}
    (hp : Promised w (.addStream d)) (hc : Counted w (.addStream d)) :
    Models (w.call (.addStream d)) (decls ++ [d]) total written pending := by
  have hnone := h.unsealed hp
  have hfile := h.file
  rw [hnone, List.flatMap_nil, List.append_nil] at hfile
  obtain ⟨hf, hs, hz⟩ := addStream_eq (d := d) hfile h.count
  have hcount := h.count
  constructor
  · rw [hnone, List.flatMap_nil, List.append_nil]
    exact hf
  · intro _
    exact hnone
  · show (w.addStream d.name d.type).streams.length = _
    rw [hs, List.length_append, List.length_append, hcount]
    rfl
  · rw [List.length_append, ← hcount]
    exact hc
  · intro i e he
    show ∃ st, (w.addStream d.name d.type).streams[i]? = some st ∧ _
    rw [hs]
    by_cases hi : i < decls.length
    · rw [List.getElem?_append_left hi] at he
      obtain ⟨st, hst, hbuf⟩ := h.streams i e he
      exact ⟨st, by rw [List.getElem?_append_left (by omega)]; exact hst, hbuf⟩
    · -- The new stream starts with empty buffers.
      have hlast : i = decls.length := by
        have := (List.getElem?_eq_some_iff.mp he).1
        rw [List.length_append, List.length_singleton] at this
        omega
      rw [hlast, List.getElem?_concat_length] at he
      cases he
      refine ⟨_, by rw [hlast, ← hcount, List.getElem?_concat_length], ?_⟩
      have hempty := h.beyond i (by omega)
      constructor
      · rfl
      · rw [hempty]
        show _ = ColumnMajor.columns _ []
        rw [ColumnMajor.columns_nil, List.map_map]
        rfl
      · rw [hempty]
        rfl
      · rw [hempty]
        decide
      · rw [hempty]
        exact fun rec hrec => absurd hrec List.not_mem_nil
  · intro i hi
    rw [List.length_append] at hi
    exact h.beyond i (by omega)
  · intro b hb
    rw [hnone] at hb
    exact absurd hb List.not_mem_nil
  · exact h.total

/-- Cells go to the ends of their columns. -/
theorem putCells_eq {cols : List (List UInt8)} {rec : Record} (h : cols.length = rec.length) :
    putCells cols rec = List.zipWith (· ++ ·) cols rec.cells := by
  induction cols generalizing rec with
  | nil => rfl
  | cons col cols ih =>
      cases rec with
      | nil => exact absurd h (by simp)
      | cons c rec =>
          have hrest := ih (Nat.succ.inj h)
          rw [putCells, hrest]
          rfl

theorem Models.append (h : Models w decls total written pending) {i : Nat} {rec : Record}
    (hp : Promised w (.append i rec)) (hc : Counted w (.append i rec)) :
    Models (w.call (.append i rec)) decls (Function.update total i (total i ++ [rec])) written
      (Function.update pending i (pending i ++ [rec])) := by
  obtain ⟨st, hst, htype⟩ := hp
  have hi : i < decls.length := by
    have := (List.getElem?_eq_some_iff.mp hst).1
    rw [h.count] at this
    exact this
  have hd := List.getElem?_eq_getElem hi
  obtain ⟨st', hst', hbuf⟩ := h.streams i _ hd
  rw [hst] at hst'
  cases hst'
  rw [hbuf.specs] at htype
  have hlt := hc st hst
  constructor
  · exact h.file
  · exact h.unsealed
  · show (w.streams.modify i _).length = _
    rw [List.length_modify]
    exact h.count
  · exact h.count_lt
  · intro j e he
    show ∃ st', (w.streams.modify i _)[j]? = some st' ∧ _
    by_cases hj : i = j
    · subst hj
      rw [hd] at he
      cases he
      rw [List.getElem?_modify_eq, hst, Function.update_self]
      refine ⟨_, rfl, hbuf.specs, ?_, ?_, ?_, ?_⟩
      -- Each column has the record's cell behind those that it had.
      · show putCells st.colPending rec = _
        have hcols : (Batch.columns decls[i].type.fields (pending i)).length = rec.length := by
          have hlen := congrArg List.length htype
          rw [List.length_map, List.length_map] at hlen
          unfold Batch.columns
          rw [ColumnMajor.columns_count, List.length_map, hlen]
        rw [hbuf.columns, putCells_eq hcols]
        unfold Batch.columns
        rw [List.map_append]
        exact (ColumnMajor.columns_append_row _ _ (Record.shaped htype)).symm
      · show (st.rows + 1) % 2 ^ 32 = _
        rw [Nat.mod_eq_of_lt hlt, List.length_append, hbuf.rows]
        rfl
      · rw [List.length_append, ← hbuf.rows]
        exact hlt
      · intro x hx
        rcases List.mem_append.mp hx with hx | hx
        · exact hbuf.typed x hx
        · rw [List.mem_singleton.mp hx]
          exact htype
    · obtain ⟨st', hst', hbuf'⟩ := h.streams j e he
      refine ⟨st', by rw [List.getElem?_modify_ne _ _ hj]; exact hst', ?_⟩
      rw [Function.update_of_ne (Ne.symm hj)]
      exact hbuf'
  -- The streams that have not been declared, and the records of each stream in all.
  · intro j hj
    rw [Function.update_of_ne (by omega)]
    exact h.beyond j hj
  · exact h.batches
  · intro j
    by_cases hj : j = i
    · subst hj
      rw [Function.update_self, Function.update_self, ← List.append_assoc, h.total]
    · rw [Function.update_of_ne hj, Function.update_of_ne hj]
      exact h.total j

theorem recordsOf_append (written : List Batch) (b : Batch) (i : Nat) :
    recordsOf (written ++ [b]) i
      = recordsOf written i ++ (if b.stream = i then b.recs else []) := by
  unfold recordsOf
  rw [List.flatMap_append, List.flatMap_singleton]

/-- **One stream is flushed**: what it has buffered becomes a batch. -/
theorem Models.flushStream (h : Models w decls total written pending) {i : Nat}
    (hi : i < decls.length) : ∃ written' pending',
      Models (w.flushStream i) decls total written' pending' ∧ pending' i = []
        ∧ ∀ j, pending j = [] → pending' j = [] := by
  have hd := List.getElem?_eq_getElem hi
  obtain ⟨st, hst, hbuf⟩ := h.streams i _ hd
  by_cases hrows : st.rows = 0
  · have hempty : pending i = [] := List.length_eq_zero_iff.mp (hbuf.rows.symm.trans hrows)
    refine ⟨written, pending, ?_, hempty, fun j hj => hj⟩
    have hsame : w.flushStream i = w := by
      unfold ColumnLogWriter.flushStream
      rw [hst]
      exact if_pos hrows
    rw [hsame]
    exact h
  -- The batch's group is appended to the file and the stream's buffers are cleared.
  refine ⟨written ++ [{ stream := i, recs := pending i }], Function.update pending i [], ?_,
    Function.update_self _ _ _, ?_⟩
  · have hflush : w.flushStream i =
        { file := w.file ++ storeLe 4 i ++ storeLe 4 st.rows ++ st.colPending.flatten
          streams := w.streams.set i { st with
            colPending := st.colPending.map fun _ => []
            rows := 0
            rowsTotal := st.rowsTotal + st.rows }
          bytesWritten := w.bytesWritten + 4 + 4 + st.colPending.flatten.length
          sealed := true } := by
      unfold ColumnLogWriter.flushStream
      rw [hst]
      exact if_neg hrows
    rw [hflush]
    constructor
    · show w.file ++ storeLe 4 i ++ storeLe 4 st.rows ++ st.colPending.flatten = _
      rw [h.file, List.flatMap_append, List.flatMap_singleton, schemaOf_eq hd, hbuf.rows,
        hbuf.columns]
      simp only [List.append_assoc, Batch.group, Group.bytes]
    · exact fun hfalse => absurd hfalse nofun
    · show (w.streams.set i _).length = _
      rw [List.length_set]
      exact h.count
    · exact h.count_lt
    · intro j e he
      show ∃ st', (w.streams.set i _)[j]? = some st' ∧ _
      by_cases hj : i = j
      · subst hj
        rw [hd] at he
        cases he
        rw [Function.update_self]
        refine ⟨_, List.getElem?_set_self (by rw [h.count]; exact hi), hbuf.specs, ?_, rfl, by decide,
          fun rec hrec => absurd hrec List.not_mem_nil⟩
        show st.colPending.map _ = ColumnMajor.columns _ []
        rw [hbuf.columns, ColumnMajor.columns_nil]
        unfold Batch.columns
        rw [List.map_const', List.map_const', ColumnMajor.columns_count]
      · obtain ⟨st', hst', hbuf'⟩ := h.streams j e he
        refine ⟨st', by rw [List.getElem?_set_ne hj]; exact hst', ?_⟩
        rw [Function.update_of_ne (Ne.symm hj)]
        exact hbuf'
    · intro j hj
      rw [Function.update_of_ne (by omega)]
      exact h.beyond j hj
    · intro b hb
      rcases List.mem_append.mp hb with hb | hb
      · exact h.batches b hb
      · rw [List.mem_singleton.mp hb]
        exact ⟨_, hd, hbuf.lt, hbuf.typed⟩
    · intro j
      rw [recordsOf_append]
      by_cases hj : j = i
      · subst hj
        rw [if_pos rfl, Function.update_self, List.append_nil]
        exact h.total j
      · rw [if_neg (Ne.symm hj), Function.update_of_ne hj, List.append_nil]
        exact h.total j
  · intro j hj
    by_cases hji : j = i
    · rw [hji]
      exact Function.update_self _ _ _
    · rw [Function.update_of_ne hji]
      exact hj

theorem Models.flushStreams (l : List Nat) (hl : ∀ i ∈ l, i < decls.length)
    {w : ColumnLogWriter} {written : List Batch} {pending : Nat → List Record}
    (h : Models w decls total written pending) : ∃ written' pending',
      Models (l.foldl ColumnLogWriter.flushStream w) decls total written' pending'
        ∧ (∀ i ∈ l, pending' i = []) ∧ ∀ j, pending j = [] → pending' j = [] := by
  induction l generalizing w written pending with
  | nil => exact ⟨written, pending, h, fun i hi => absurd hi List.not_mem_nil, fun _ hj => hj⟩
  | cons i l ih =>
      obtain ⟨written1, pending1, h1, hi, hkeep⟩ := h.flushStream (hl i List.mem_cons_self)
      obtain ⟨written2, pending2, h2, hall, hkeep2⟩ :=
        ih (fun j hj => hl j (List.mem_cons_of_mem _ hj)) h1
      refine ⟨written2, pending2, h2, fun j hj => ?_, fun j hj => hkeep2 j (hkeep j hj)⟩
      rcases List.mem_cons.mp hj with rfl | hj
      · exact hkeep2 j hi
      · exact hall j hj

/-- **A flush** leaves nothing buffered. -/
theorem Models.flush (h : Models w decls total written pending) :
    ∃ written' pending', Models w.flush decls total written' pending' ∧ ∀ i, pending' i = [] := by
  obtain ⟨written', pending', h', hall, -⟩ := h.flushStreams (List.range w.streams.length)
    (fun i hi => by rw [← h.count]; exact List.mem_range.mp hi)
  refine ⟨written', pending', h', fun i => ?_⟩
  by_cases hi : i < w.streams.length
  · exact hall i (List.mem_range.mpr hi)
  · exact h'.beyond i (by rw [← h.count]; omega)

/-- **A run of calls** appends to the totals what it appends to the streams. -/
theorem Models.run (cs : List WriterCall) {w : ColumnLogWriter} {decls : List StreamDecl}
    {total : Nat → List Record} {written : List Batch} {pending : Nat → List Record}
    (h : Models w decls total written pending) (hp : Along Promised cs w)
    (hc : Along Counted cs w) : ∃ written' pending',
      Models (ColumnLogWriter.run cs w) (decls ++ WriterCall.declared cs)
        (fun i => total i ++ WriterCall.appended i cs) written' pending' := by
  induction cs generalizing w decls total written pending with
  | nil =>
      refine ⟨written, pending, ?_⟩
      simp only [WriterCall.declared, WriterCall.appended, List.append_nil]
      exact h
  | cons c cs ih =>
      obtain ⟨hp, hps⟩ := hp
      obtain ⟨hc, hcs⟩ := hc
      cases c with
      | addStream d =>
          obtain ⟨written', pending', h'⟩ := ih (h.addStream hp hc) hps hcs
          rw [List.append_assoc] at h'
          exact ⟨written', pending', h'⟩
      | append stream rec =>
          obtain ⟨written', pending', h'⟩ := ih (h.append hp hc) hps hcs
          refine ⟨written', pending', ?_⟩
          have htotal : (fun i => Function.update total stream (total stream ++ [rec]) i
              ++ WriterCall.appended i cs)
              = fun i => total i ++ WriterCall.appended i (.append stream rec :: cs) := by
            funext i
            rw [WriterCall.appended]
            by_cases hi : stream = i
            · subst hi
              rw [Function.update_self, if_pos rfl, List.append_assoc]
              rfl
            · rw [Function.update_of_ne (Ne.symm hi), if_neg hi]
          rw [← htotal]
          exact h'
      | flush =>
          obtain ⟨written1, pending1, h1, -⟩ := h.flush
          exact ih h1 hps hcs

end ColumnLogWriter

/-! ## The file is read back -/

open ColumnLogWriter

/-- A reader of the closed log finds the streams that were added, in order, and its reads of each
stream deliver the records that were appended to it. -/
def RoundTrips (cs : List WriterCall) : Prop :=
  let r := ColumnLogReader.create (create.run cs).close.file
  r.error = "" ∧ r.streams = (WriterCall.declared cs).map StreamDecl.toMeta
    ∧ ∀ i d, (WriterCall.declared cs)[i]? = some d →
      r.readStream d.type i r.data
        = { ok := true, error := "", delivered := WriterCall.appended i cs }

/-- A batch's group belongs to a well-formed log. -/
theorem Batch.group_fits {decls : List StreamDecl} {b : Batch} {d : StreamDecl}
    (hd : decls[b.stream]? = some d) (hlt : b.recs.length < 2 ^ 32)
    (htyped : ∀ rec ∈ b.recs, rec.HasType d.type.fields) :
    (b.group (schemaOf decls b.stream)).Fits decls := by
  rw [schemaOf_eq hd]
  exact ⟨hlt, d, hd, Batch.payload_length htyped⟩

/-- What a batch's group has for stream `i` is the batch, if it is of that stream. -/
theorem Batch.group_recordsFor {decls : List StreamDecl} {b : Batch} {d e : StreamDecl} {i : Nat}
    (hd : decls[b.stream]? = some d) (htyped : ∀ rec ∈ b.recs, rec.HasType d.type.fields)
    (he : decls[i]? = some e) :
    (b.group (schemaOf decls b.stream)).recordsFor e.type.fields i
      = if b.stream = i then b.recs else [] := by
  unfold Group.recordsFor
  by_cases hi : b.stream = i
  · have hed : e = d := by
      rw [hi, he] at hd
      exact Option.some.inj hd
    refine (if_pos hi).trans (Eq.trans ?_ (if_pos hi).symm)
    rw [schemaOf_eq hd, hed]
    exact Batch.group_records htyped
  · exact (if_neg hi).trans (if_neg hi).symm

/-- **The round trip.** As long as no stream buffers `2 ^ 32` rows and there are fewer streams than
that, a closed log is read back as it was written, whatever the appends and flushes. -/
theorem log_round_trip (cs : List WriterCall) (hp : Along Promised cs create)
    (hc : Along Counted cs create) : RoundTrips cs := by
  obtain ⟨written0, pending0, hrun⟩ := models_create.run cs hp hc
  obtain ⟨written, pending, h, hempty⟩ := hrun.flush
  rw [List.nil_append] at h
  have htotal : ∀ i, recordsOf written i = WriterCall.appended i cs := by
    intro i
    have := h.total i
    rw [hempty i, List.append_nil, List.nil_append] at this
    exact this
  have hfile : (create.run cs).close.file = headerBytes (WriterCall.declared cs)
      ++ written.flatMap fun b => (b.group (schemaOf (WriterCall.declared cs) b.stream)).bytes :=
    h.file
  unfold RoundTrips
  rw [hfile, create_header h.count_lt]
  refine ⟨rfl, rfl, fun i d hd => ?_⟩
  generalize hgs : written.map (fun b => b.group (schemaOf (WriterCall.declared cs) b.stream)) = gs
  have hbytes : (written.flatMap fun b =>
      (b.group (schemaOf (WriterCall.declared cs) b.stream)).bytes)
      = gs.flatMap Group.bytes ++ [] := by
    rw [← hgs, List.flatMap_map, List.append_nil]
  have hfits : ∀ g ∈ gs, g.Fits (WriterCall.declared cs) := by
    intro g hg
    rw [← hgs] at hg
    obtain ⟨b, hb, rfl⟩ := List.mem_map.mp hg
    obtain ⟨e, he, hlt, htyped⟩ := h.batches b hb
    exact Batch.group_fits he hlt htyped
  have hrecords : gs.flatMap (Group.recordsFor d.type.fields i) = WriterCall.appended i cs := by
    rw [← htotal i, ← hgs, List.flatMap_map]
    refine List.flatMap_congr fun b hb => ?_
    obtain ⟨e, he, -, htyped⟩ := h.batches b hb
    exact Batch.group_recordsFor he htyped hd
  rw [hbytes]
  show (readerOf _ _).readStream d.type i _ = _
  have hmatch : (readerOf (WriterCall.declared cs) (gs.flatMap Group.bytes ++ [])).schemaMatches
      d.type i := by
    unfold ColumnLogReader.schemaMatches
    rw [readerOf_schema hd]
  obtain ⟨left, -, hloop⟩ := readLoop_groups h.count_lt hd hfits (gs.flatMap Group.bytes ++ []) []
    (Nat.le_refl _)
  unfold ColumnLogReader.readStream
  rw [if_pos hmatch, hloop, readLoop_nil, hrecords]
  unfold ReadResult.after
  dsimp only
  rw [List.append_nil (WriterCall.appended i cs)]
  rfl

/-- Records of one byte. -/
def sampleType : Reflected where
  fields := [{ name := [118], type := .u8 }]
  names_le := by decide
  known := by decide
  count_lt := by decide

def sampleStream : StreamDecl := { name := [97], type := sampleType, name_le := by decide }

def sampleRecord : Record := [{ type := .u8, bits := 5, fits := by decide }]

/-- Records of a count and a signed number, on a stream of their own. -/
def wideStream : StreamDecl where
  name := [98, 99]
  type := {
    fields := [{ name := [110], type := .u32 }, { name := [112], type := .i64 }]
    names_le := by decide
    known := by decide
    count_lt := by decide }
  name_le := by decide

def wideRecord (n : UInt32) (p : UInt64) : Record :=
  [{ type := .u32, bits := n.toNat, fits := n.toNat_lt },
    { type := .i64, bits := p.toNat, fits := p.toNat_lt }]

/-- Rows of two streams in turn, over two flushes and the closing one. -/
def sampleCalls : List WriterCall :=
  [.addStream sampleStream, .addStream wideStream, .append 1 (wideRecord 7 (-5)), .flush,
    .append 0 sampleRecord, .append 1 (wideRecord 8 10), .append 0 sampleRecord, .flush,
    .append 1 (wideRecord 4294967295 (-1))]

theorem log_round_trip_sample : RoundTrips sampleCalls := by
  refine log_round_trip sampleCalls ?_ ?_
  · exact ⟨rfl, rfl, ⟨_, rfl, rfl⟩, trivial, ⟨_, rfl, rfl⟩, ⟨_, rfl, rfl⟩, ⟨_, rfl, rfl⟩, trivial,
      ⟨_, rfl, rfl⟩, trivial⟩
  · have hrow : ∀ {w : ColumnLogWriter} {i : Nat} {st : LogStream} {rec : Record},
        w.streams[i]? = some st → st.rows + 1 < 2 ^ 32 → Counted w (.append i rec) :=
      fun hst hlt st' hst' => Option.some.inj (hst.symm.trans hst') ▸ hlt
    exact ⟨show 0 + 1 < 2 ^ 32 by decide, show 1 + 1 < 2 ^ 32 by decide,
      hrow rfl (show 0 + 1 < 2 ^ 32 by decide), trivial, hrow rfl (show 0 + 1 < 2 ^ 32 by decide),
      hrow rfl (show 0 + 1 < 2 ^ 32 by decide), hrow rfl (show 1 + 1 < 2 ^ 32 by decide), trivial,
      hrow rfl (show 0 + 1 < 2 ^ 32 by decide), trivial⟩

/-! ## Beyond the counts -/

/-- Any number of records appended to the one stream of a writer. -/
theorem appends_run (n : Nat) {w : ColumnLogWriter} {st : LogStream} (hw : w.streams = [st])
    (htype : sampleRecord.HasType st.specs) (hrows : st.rows < 2 ^ 32) :
    Along Promised (List.replicate n (.append 0 sampleRecord)) w
      ∧ (run (List.replicate n (.append 0 sampleRecord)) w).file = w.file
      ∧ ∃ st', (run (List.replicate n (.append 0 sampleRecord)) w).streams = [st']
        ∧ st'.rows = (st.rows + n) % 2 ^ 32 := by
  induction n generalizing w st with
  | zero => exact ⟨trivial, rfl, st, hw, (Nat.mod_eq_of_lt hrows).symm⟩
  | succ n ih =>
      have hnext : (w.append 0 sampleRecord).streams = [{ st with
          colPending := putCells st.colPending sampleRecord
          rows := (st.rows + 1) % 2 ^ 32 }] := by
        show w.streams.modify 0 _ = _
        rw [hw]
        rfl
      obtain ⟨hp, hfile, st', hst', hrows'⟩ := ih hnext htype (Nat.mod_lt _ (by decide))
      refine ⟨⟨⟨st, by rw [hw]; rfl, htype⟩, hp⟩, hfile, st', hst', ?_⟩
      rw [hrows']
      show ((st.rows + 1) % 2 ^ 32 + n) % 2 ^ 32 = _
      omega

theorem appended_appends (n : Nat) :
    WriterCall.appended 0 (List.replicate n (.append 0 sampleRecord))
      = List.replicate n sampleRecord := by
  induction n with
  | zero => rfl
  | succ n ih => exact congrArg (sampleRecord :: ·) ih

/-- A flush writes nothing where no stream counts a row. -/
theorem flush_idle {w : ColumnLogWriter} (h : ∀ st ∈ w.streams, st.rows = 0) : w.flush = w := by
  have hstream : ∀ i, w.flushStream i = w := by
    intro i
    unfold flushStream
    cases hst : w.streams[i]? with
    | none => rfl
    | some st => exact if_pos (h st (List.mem_of_getElem? hst))
  unfold ColumnLogWriter.flush
  induction List.range w.streams.length with
  | nil => rfl
  | cons i l ih =>
      rw [List.foldl_cons, hstream]
      exact ih

/-- Where the rows of a stream come round to zero, none of them is written. -/
theorem rows_lost {n : Nat} (hn : n % 2 ^ 32 = 0) (hpos : 0 < n) :
    Along Promised (.addStream sampleStream :: List.replicate n (.append 0 sampleRecord)) create
      ∧ ¬ RoundTrips (.addStream sampleStream
        :: List.replicate n (.append 0 sampleRecord)) := by
  obtain ⟨hp, hfile, st', hst', hrows⟩ := appends_run n
    (w := create.addStream sampleStream.name sampleStream.type) rfl rfl (by decide)
  refine ⟨⟨rfl, hp⟩, fun h => ?_⟩
  have hzero : st'.rows = 0 := by
    rw [hrows]
    show (0 + n) % 2 ^ 32 = 0
    rw [Nat.zero_add, hn]
  have hclosed : (create.run (.addStream sampleStream
      :: List.replicate n (.append 0 sampleRecord))).close.file = headerBytes [sampleStream] := by
    show (ColumnLogWriter.flush _).file = _
    rw [flush_idle]
    · exact hfile
    · intro st hst
      have hst : st ∈ (run (List.replicate n (.append 0 sampleRecord))
        (create.addStream sampleStream.name sampleStream.type)).streams := hst
      rw [hst'] at hst
      rw [List.mem_singleton.mp hst]
      exact hzero
  have hread := h.2.2 0 sampleStream rfl
  rw [hclosed] at hread
  have hdelivered := congrArg ReadResult.delivered hread
  have hnone : (((ColumnLogReader.create (headerBytes [sampleStream])).readStream sampleStream.type 0
      (ColumnLogReader.create (headerBytes [sampleStream])).data)).delivered = [] := by
    decide +kernel
  rw [hnone] at hdelivered
  have hlen := congrArg List.length hdelivered
  have happ : WriterCall.appended 0 (.addStream sampleStream
      :: List.replicate n (.append 0 sampleRecord)) = List.replicate n sampleRecord :=
    appended_appends n
  rw [happ, List.length_replicate] at hlen
  exact absurd hlen (by rw [List.length_nil]; omega)

/-- Any number of streams added before a row is written. -/
theorem addStreams_run (n : Nat) {w : ColumnLogWriter} {decls : List StreamDecl}
    (hfile : w.file = headerBytes decls) (hcount : w.streams.length = decls.length)
    (hsealed : w.sealed = false) (hrows : ∀ st ∈ w.streams, st.rows = 0) :
    Along Promised (List.replicate n (.addStream sampleStream)) w
      ∧ (run (List.replicate n (.addStream sampleStream)) w).file
        = headerBytes (decls ++ List.replicate n sampleStream)
      ∧ ∀ st ∈ (run (List.replicate n (.addStream sampleStream)) w).streams, st.rows = 0 := by
  induction n generalizing w decls with
  | zero =>
      refine ⟨trivial, ?_, hrows⟩
      show w.file = headerBytes (decls ++ [])
      rw [List.append_nil]
      exact hfile
  | succ n ih =>
      obtain ⟨hf, hs, hz⟩ := addStream_eq (d := sampleStream) hfile hcount
      have hcount' : (w.addStream sampleStream.name sampleStream.type).streams.length
          = (decls ++ [sampleStream]).length := by
        rw [hs, List.length_append, List.length_append, hcount]
        rfl
      have hrows' : ∀ st ∈ (w.addStream sampleStream.name sampleStream.type).streams,
          st.rows = 0 := by
        intro st hst
        rw [hs] at hst
        rcases List.mem_append.mp hst with hst | hst
        · exact hrows st hst
        · rw [List.mem_singleton.mp hst]
      obtain ⟨hp, hfile', hidle⟩ := ih hf hcount' (hz.trans hsealed) hrows'
      rw [List.append_assoc] at hfile'
      exact ⟨⟨hsealed, hp⟩, hfile', hidle⟩

/-- Where the number of streams comes round to zero, the reader finds none. -/
theorem streams_lost {n : Nat} (hn : n % 2 ^ 32 = 0) (hpos : 0 < n) :
    Along Promised (List.replicate n (.addStream sampleStream)) create
      ∧ ¬ RoundTrips (List.replicate n (.addStream sampleStream)) := by
  obtain ⟨hp, hfile, hidle⟩ := @addStreams_run n create [] rfl rfl rfl
    (fun st hst => absurd hst List.not_mem_nil)
  refine ⟨hp, fun h => ?_⟩
  have hclosed : (create.run (List.replicate n (.addStream sampleStream))).close.file
      = headerBytes (List.replicate n sampleStream) ++ [] := by
    show (ColumnLogWriter.flush _).file = _
    rw [flush_idle hidle, List.append_nil]
    exact hfile
  have hstreams := h.2.1
  rw [hclosed, create_wrapped (by rw [List.length_replicate]; exact hn)] at hstreams
  have hlen := congrArg List.length hstreams
  have hdeclared : ∀ m, (WriterCall.declared (List.replicate m (.addStream sampleStream))).length
      = m := by
    intro m
    induction m with
    | zero => rfl
    | succ m ih => exact congrArg (· + 1) ih
  rw [List.length_map, hdeclared] at hlen
  exact absurd hlen (by show ¬ (0 = n); omega)

/-- **Two logs that are not read back**: of `2 ^ 32` rows that one stream buffers for one flush,
and of `2 ^ 32` streams. -/
theorem counts_wrap :
    (∃ cs, Along Promised cs create ∧ ¬ RoundTrips cs ∧ (WriterCall.declared cs).length = 1)
      ∧ ∃ cs, Along Promised cs create ∧ ¬ RoundTrips cs ∧ ∀ i, WriterCall.appended i cs = [] := by
  -- The count stays a variable, so that nothing counts up to it.
  obtain ⟨n, hwrap, hpos⟩ : ∃ n, n % 2 ^ 32 = 0 ∧ 0 < n :=
    ⟨2 ^ 32, Nat.mod_self _, Nat.pow_pos Nat.two_pos⟩
  have hrows := rows_lost hwrap hpos
  have hstreams := streams_lost hwrap hpos
  refine ⟨⟨_, hrows.1, hrows.2, ?_⟩, ⟨_, hstreams.1, hstreams.2, ?_⟩⟩
  · have hdeclared : ∀ m, WriterCall.declared (List.replicate m (.append 0 sampleRecord)) = [] := by
      intro m
      induction m with
      | zero => rfl
      | succ m ih => exact ih
    exact congrArg (List.length ∘ List.cons sampleStream) (hdeclared _)
  · intro i
    have happended : ∀ m, WriterCall.appended i (List.replicate m (.addStream sampleStream)) = [] := by
      intro m
      induction m with
      | zero => rfl
      | succ m ih => exact ih
    exact happended _

end Mog
