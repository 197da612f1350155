import Mog.Log.RoundTrip

/-!
# Truncated logs

What the two readers make of a log that breaks off inside a row group. `moglog.py` reads
every byte and raises. The reader of the source asks for the eight bytes of a group header
and takes fewer for the end of the file, and it passes over another stream's payload by
seeking, which the end of the file does not stop.
-/

namespace Mog

/-! ## `moglog.py` on whole and on broken groups -/

namespace Moglog

theorem readValues_ok (w n : Nat) {rest : List UInt8} (h : w * n ≤ rest.length) :
    ∃ vals, readValues w n rest = .ok (vals, rest.drop (w * n)) := by
  induction n generalizing rest with
  | zero => exact ⟨[], rfl⟩
  | succ n ih =>
      rw [Nat.mul_succ] at h
      obtain ⟨vals, hvals⟩ := @ih (rest.drop w) (by rw [List.length_drop]; omega)
      refine ⟨loadLe (rest.take w) :: vals, ?_⟩
      rw [readValues, readExact, if_neg (by omega)]
      show (readValues w n (rest.drop w)).bind _ = _
      rw [hvals, Nat.mul_succ, Nat.add_comm, ← List.drop_drop]
      rfl

theorem readValues_short {w n : Nat} {rest : List UInt8} (h : rest.length < w * n) :
    readValues w n rest = .error "truncated file" := by
  induction n generalizing rest with
  | zero => exact absurd h (by simp)
  | succ n ih =>
      rw [readValues, readExact]
      by_cases hw : rest.length < w
      · rw [if_pos hw]
        rfl
      · rw [if_neg hw]
        rw [Nat.mul_succ] at h
        show (readValues w n (rest.drop w)).bind _ = _
        rw [ih (by rw [List.length_drop]; omega)]
        rfl

theorem payloadSize_cons (f : FieldSpec) (fs : List FieldSpec) (rows : Nat) :
    payloadSize (f :: fs) rows = f.type.width * rows + payloadSize fs rows := by
  unfold payloadSize
  rw [List.map_cons, List.sum_cons]

variable {rows : Nat} {fs : List FieldSpec}

theorem readColumns_ok (hk : ∀ f ∈ fs, 0 < f.type.width) {rest : List UInt8}
    (h : payloadSize fs rows ≤ rest.length) :
    ∃ cols, readColumns rows fs rest = .ok (cols, rest.drop (payloadSize fs rows)) := by
  induction fs generalizing rest with
  | nil => exact ⟨[], rfl⟩
  | cons f fs ih =>
      have hw := hk f List.mem_cons_self
      rw [payloadSize_cons] at h
      obtain ⟨vals, hvals⟩ := @readValues_ok f.type.width rows rest (by omega)
      obtain ⟨cols, hcols⟩ := @ih (fun g hg => hk g (List.mem_cons_of_mem _ hg))
        (rest.drop (f.type.width * rows)) (by rw [List.length_drop]; omega)
      refine ⟨(f.name, vals) :: cols, ?_⟩
      rw [readColumns, if_neg (Nat.pos_iff_ne_zero.mp hw), payloadSize_cons, ← List.drop_drop]
      show (readValues f.type.width rows rest).bind _ = _
      rw [hvals]
      show (readColumns rows fs (rest.drop (f.type.width * rows))).bind _ = _
      rw [hcols]
      rfl

theorem readColumns_short (hk : ∀ f ∈ fs, 0 < f.type.width) {rest : List UInt8}
    (h : rest.length < payloadSize fs rows) :
    readColumns rows fs rest = .error "truncated file" := by
  induction fs generalizing rest with
  | nil => exact absurd h (Nat.not_lt_zero _)
  | cons f fs ih =>
      have hw := hk f List.mem_cons_self
      rw [payloadSize_cons] at h
      rw [readColumns, if_neg (Nat.pos_iff_ne_zero.mp hw)]
      show (readValues f.type.width rows rest).bind _ = _
      by_cases hcol : rest.length < f.type.width * rows
      · rw [readValues_short hcol]
        rfl
      · obtain ⟨vals, hvals⟩ := @readValues_ok f.type.width rows rest
          (by omega)
        rw [hvals]
        show (readColumns rows fs (rest.drop (f.type.width * rows))).bind _ = _
        rw [ih (fun g hg => hk g (List.mem_cons_of_mem _ hg)) (by rw [List.length_drop]; omega)]
        rfl

/-- `iter_groups` raises on what is left of a file. -/
def Raises (streams : List StreamMeta) (rest : List UInt8) : Prop :=
  (iterGroups streams rest.length rest).2 ≠ none

end Moglog

/-- A group cut in its payload. -/
theorem Group.take_bytes (g : Group) {m : Nat} (hm : 8 ≤ m) :
    g.bytes.take m = storeLe 4 g.stream ++ storeLe 4 g.rows ++ g.payload.take (m - 8) := by
  have h8 : (storeLe 4 g.stream ++ storeLe 4 g.rows).length = 8 := by
    rw [List.length_append, storeLe_length, storeLe_length]
  unfold Group.bytes
  rw [List.take_append, List.take_of_length_le (by omega), h8]

section

variable {decls : List StreamDecl} (hcount : decls.length < 2 ^ 32)

include hcount

/-- `moglog.py` passes a whole group. -/
theorem iterGroups_group {g : Group} (hg : g.Fits decls) (rest : List UInt8) (fuel : Nat) :
    (Moglog.iterGroups (decls.map StreamDecl.toMeta) (fuel + 1) (g.bytes ++ rest)).2
      = (Moglog.iterGroups (decls.map StreamDecl.toMeta) fuel rest).2 := by
  obtain ⟨d, hd, hlen⟩ := hg.payload
  have hmeta : (decls.map StreamDecl.toMeta)[g.stream]? = some d.toMeta := by
    rw [List.getElem?_map, hd]
    rfl
  have hbytes : g.bytes ++ rest
      = storeLe 4 g.stream ++ storeLe 4 g.rows ++ (g.payload ++ rest) := List.append_assoc _ _ _
  obtain ⟨hsi, hrows, hdrop⟩ :=
    Group.words (Group.stream_lt hcount hg) hg.rows_lt (g.payload ++ rest)
  have hlong : 8 ≤ (g.bytes ++ rest).length := by
    rw [List.length_append, g.bytes_length]
    omega
  obtain ⟨cols, hcols⟩ := @Moglog.readColumns_ok g.rows _ d.type.known
    (g.payload ++ rest) (by rw [List.length_append]; omega)
  rw [Moglog.iterGroups, if_neg (by omega), if_neg (by omega), hbytes]
  dsimp only
  rw [hsi, hrows, hdrop, hmeta]
  dsimp only [StreamDecl.toMeta]
  rw [hcols, ← hlen, List.drop_left]

theorem iterGroups_groups {gs : List Group} (hgs : ∀ g ∈ gs, g.Fits decls) (rest : List UInt8)
    {fuel : Nat} (hf : (gs.flatMap Group.bytes ++ rest).length ≤ fuel) :
    ∃ left, rest.length ≤ left
      ∧ (Moglog.iterGroups (decls.map StreamDecl.toMeta) fuel (gs.flatMap Group.bytes ++ rest)).2
        = (Moglog.iterGroups (decls.map StreamDecl.toMeta) left rest).2 := by
  induction gs generalizing fuel with
  | nil => exact ⟨fuel, hf, rfl⟩
  | cons g gs ih =>
      rw [List.flatMap_cons, List.append_assoc] at hf ⊢
      have hlen := g.bytes_length
      rw [List.length_append] at hf
      cases fuel with
      | zero => omega
      | succ fuel =>
          obtain ⟨left, hleft, hrest⟩ := @ih (fun x hx => hgs x (List.mem_cons_of_mem _ hx))
            fuel (by omega)
          refine ⟨left, hleft, ?_⟩
          rw [iterGroups_group hcount (hgs g List.mem_cons_self), hrest]

/-! ## The broken group -/

/-- `moglog.py` raises on a group that breaks off. -/
theorem iterGroups_broken {g : Group} (hg : g.Fits decls) {m : Nat} (h0 : 0 < m)
    (hm : m < g.bytes.length) {fuel : Nat} (hf : m ≤ fuel) :
    (Moglog.iterGroups (decls.map StreamDecl.toMeta) fuel (g.bytes.take m)).2 ≠ none := by
  obtain ⟨d, hd, hlen⟩ := hg.payload
  have hmeta : (decls.map StreamDecl.toMeta)[g.stream]? = some d.toMeta := by
    rw [List.getElem?_map, hd]
    rfl
  have htake : (g.bytes.take m).length = m := by
    rw [List.length_take]
    omega
  cases fuel with
  | zero => omega
  | succ fuel =>
      rw [Moglog.iterGroups, if_neg (by omega)]
      by_cases hhead : m < 8
      · rw [if_pos (by omega)]
        exact Option.some_ne_none _
      · obtain ⟨hsi, hrows, hdrop⟩ :=
          Group.words (Group.stream_lt hcount hg) hg.rows_lt (g.payload.take (m - 8))
        rw [if_neg (by omega), g.take_bytes (by omega)]
        dsimp only
        rw [hsi, hrows, hdrop, hmeta]
        dsimp only [StreamDecl.toMeta]
        rw [Moglog.readColumns_short d.type.known]
        · exact Option.some_ne_none _
        · rw [List.length_take, ← hlen]
          have := g.bytes_length
          omega

/-- **The reader notices a broken group** only in the payload of a group of its own stream. -/
theorem readLoop_broken {d : StreamDecl} {i : Nat} (hd : decls[i]? = some d) {g : Group}
    (hg : g.Fits decls) {m : Nat} (hm : m < g.bytes.length) (data : List UInt8) {fuel : Nat}
    (hf : m ≤ fuel) :
    (readerOf decls data).readLoop d.type i fuel (g.bytes.take m)
      = if 8 ≤ m ∧ g.stream = i then
          { ok := false, error := "truncated group", delivered := [] }
        else { ok := true, error := "", delivered := [] } := by
  obtain ⟨e, he, hlen⟩ := hg.payload
  have hsize := g.bytes_length
  have htake : (g.bytes.take m).length = m := by
    rw [List.length_take]
    omega
  by_cases hhead : m < 8
  · rw [if_neg (show ¬ (8 ≤ m ∧ g.stream = i) from fun h => by omega)]
    cases fuel with
    | zero => rfl
    | succ fuel => exact if_pos (by omega)
  have h8 : 8 ≤ m := by omega
  cases fuel with
  | zero => omega
  | succ fuel =>
      obtain ⟨hsi, hrows, hdrop⟩ :=
        Group.words (Group.stream_lt hcount hg) hg.rows_lt (g.payload.take (m - 8))
      have hcut : (g.payload.take (m - 8)).length = m - 8 := by
        rw [List.length_take]
        omega
      have hsome : g.rows ≠ 0 := by
        intro hzero
        have hempty : payloadSize e.type.fields 0 = 0 :=
          List.sum_eq_zero fun x hx => by
            obtain ⟨f, -, rfl⟩ := List.mem_map.mp hx
            exact Nat.mul_zero _
        rw [hzero, hempty] at hlen
        omega
      rw [ColumnLogReader.readLoop, if_neg (by omega), g.take_bytes h8]
      dsimp only
      rw [hsi, hrows, hdrop]
      by_cases hmine : g.stream = i
      · have hed : e = d := by
          rw [hmine, hd] at he
          exact (Option.some.inj he).symm
        rw [hed] at hlen
        rw [if_neg (not_or.mpr ⟨not_not.mpr hmine, hsome⟩), readerOf_payload hd,
          if_pos (show (g.payload.take (m - 8)).length < payloadSize d.type.fields g.rows by omega),
          if_pos ⟨h8, hmine⟩]
      · -- The seek ends past the end of the file, where the next header reads as the end.
        rw [if_pos (Or.inl hmine), readerOf_payload he, List.drop_eq_nil_of_le (by omega),
          readLoop_nil, if_neg (fun h => hmine h.2)]
        rfl

end

/-! ## Cuts of a log -/

/-- The log cut `m` bytes into the group that follows `gs`. -/
def LogFile.cut (log : LogFile) (gs : List Group) (m : Nat) : List UInt8 :=
  log.bytes.take ((headerBytes log.decls).length + (gs.flatMap Group.bytes).length + m)

/-- A reader of stream `i`, reading records of type `S`, reports the truncation of `file` after
at most the rows of the complete groups `gs`, and so does `moglog.py`. -/
structure Detected (S : Reflected) (i : Nat) (gs : List Group) (file : List UInt8) : Prop where
  failed : ((ColumnLogReader.create file).readStream S i (ColumnLogReader.create file).data).ok
    = false
  error : ((ColumnLogReader.create file).readStream S i (ColumnLogReader.create file).data).error
    ≠ ""
  delivered : ((ColumnLogReader.create file).readStream S i
    (ColumnLogReader.create file).data).delivered <+: gs.flatMap (Group.recordsFor S.fields i)
  moglog : Moglog.Raises (ColumnLogReader.create file).streams (ColumnLogReader.create file).data

variable {log : LogFile} {gs gs' : List Group} {g : Group} {m : Nat}

/-- A cut inside a group leaves the header, the groups before and the beginning of the group. -/
theorem LogFile.cut_eq (hgroups : log.groups = gs ++ g :: gs') (hm : m < g.bytes.length) :
    log.cut gs m = headerBytes log.decls ++ (gs.flatMap Group.bytes ++ g.bytes.take m) := by
  have hbytes : log.bytes
      = (headerBytes log.decls ++ gs.flatMap Group.bytes) ++ (g.bytes ++ gs'.flatMap Group.bytes) := by
    unfold LogFile.bytes
    rw [hgroups, List.flatMap_append, List.flatMap_cons, List.append_assoc]
  unfold LogFile.cut
  rw [hbytes, ← List.length_append, List.take_length_add_append,
    List.take_append_of_le_length (Nat.le_of_lt hm), List.append_assoc]

/-- What a reader of stream `i` makes of a cut log. -/
theorem readStream_cut (hgroups : log.groups = gs ++ g :: gs') (hm : m < g.bytes.length) {i : Nat}
    {d : StreamDecl} (hd : log.decls[i]? = some d) :
    (ColumnLogReader.create (log.cut gs m)).readStream d.type i
        (ColumnLogReader.create (log.cut gs m)).data
      = { ok := ! decide (8 ≤ m ∧ g.stream = i)
          error := if 8 ≤ m ∧ g.stream = i then "truncated group" else ""
          delivered := gs.flatMap (Group.recordsFor d.type.fields i) } := by
  have hfits : ∀ x ∈ gs, x.Fits log.decls := fun x hx =>
    log.fits x (by rw [hgroups]; exact List.mem_append_left _ hx)
  have hg : g.Fits log.decls :=
    log.fits g (by rw [hgroups]; exact List.mem_append_right _ List.mem_cons_self)
  rw [LogFile.cut_eq hgroups hm, create_header log.count_lt]
  show (readerOf log.decls (gs.flatMap Group.bytes ++ g.bytes.take m)).readStream d.type i
    (gs.flatMap Group.bytes ++ g.bytes.take m) = _
  have hmatch : (readerOf log.decls (gs.flatMap Group.bytes ++ g.bytes.take m)).schemaMatches
      d.type i := by
    unfold ColumnLogReader.schemaMatches
    rw [readerOf_schema hd]
  obtain ⟨left, hleft, hrun⟩ := readLoop_groups log.count_lt hd hfits
    (gs.flatMap Group.bytes ++ g.bytes.take m) (g.bytes.take m) (Nat.le_refl _)
  rw [List.length_take] at hleft
  unfold ColumnLogReader.readStream
  rw [if_pos hmatch, hrun, readLoop_broken log.count_lt hd hg hm _ (by omega)]
  by_cases hseen : 8 ≤ m ∧ g.stream = i
  · rw [if_pos hseen, if_pos hseen, decide_eq_true hseen]
    unfold ReadResult.after
    rw [List.append_nil]
    rfl
  · rw [if_neg hseen, if_neg hseen, decide_eq_false hseen]
    unfold ReadResult.after
    rw [List.append_nil]
    rfl

/-- `moglog.py` raises on every cut inside a group. -/
theorem moglog_raises (hgroups : log.groups = gs ++ g :: gs') (h0 : 0 < m)
    (hm : m < g.bytes.length) :
    Moglog.Raises (ColumnLogReader.create (log.cut gs m)).streams
      (ColumnLogReader.create (log.cut gs m)).data := by
  have hfits : ∀ x ∈ gs, x.Fits log.decls := fun x hx =>
    log.fits x (by rw [hgroups]; exact List.mem_append_left _ hx)
  have hg : g.Fits log.decls :=
    log.fits g (by rw [hgroups]; exact List.mem_append_right _ List.mem_cons_self)
  rw [LogFile.cut_eq hgroups hm, create_header log.count_lt]
  obtain ⟨left, hleft, hrun⟩ :=
    iterGroups_groups log.count_lt hfits (g.bytes.take m) (Nat.le_refl _)
  rw [List.length_take] at hleft
  unfold Moglog.Raises
  dsimp only
  rw [hrun]
  exact iterGroups_broken log.count_lt hg h0 hm (by omega)

theorem detected_iff (hgroups : log.groups = gs ++ g :: gs') (h0 : 0 < m)
    (hm : m < g.bytes.length) {i : Nat} {d : StreamDecl} (hd : log.decls[i]? = some d) :
    Detected d.type i gs (log.cut gs m) ↔ 8 ≤ m ∧ g.stream = i := by
  have hread := readStream_cut hgroups hm hd
  constructor
  · intro h
    by_contra hnot
    have hfailed := h.failed
    rw [hread, decide_eq_false hnot] at hfailed
    exact Bool.noConfusion hfailed
  · intro hseen
    refine ⟨?_, ?_, ?_, moglog_raises hgroups h0 hm⟩
    · rw [hread, decide_eq_true hseen]
      rfl
    · rw [hread, if_pos hseen]
      show ("truncated group" : String) ≠ ""
      decide
    · rw [hread]

/-- **Which truncations are detected.** A cut inside a row group is reported by the reader of a
stream exactly where it falls into the payload of one of that stream's groups; by the readers of
all streams, exactly where it falls into a payload and the log has no other stream. -/
theorem truncation_detected_iff (log : LogFile) (gs gs' : List Group) (g : Group)
    (hgroups : log.groups = gs ++ g :: gs') (m : Nat) (h0 : 0 < m) (hm : m < g.bytes.length) :
    (∀ i d, log.decls[i]? = some d →
        (Detected d.type i gs (log.cut gs m) ↔ 8 ≤ m ∧ g.stream = i))
      ∧ ((∀ i d, log.decls[i]? = some d → Detected d.type i gs (log.cut gs m)) ↔
        8 ≤ m ∧ log.decls.length = 1) := by
  have hg : g.Fits log.decls :=
    log.fits g (by rw [hgroups]; exact List.mem_append_right _ List.mem_cons_self)
  obtain ⟨e, he, -⟩ := hg.payload
  have hlt := (List.getElem?_eq_some_iff.mp he).1
  refine ⟨fun i d hd => detected_iff hgroups h0 hm hd, ?_⟩
  constructor
  · intro hall
    have hmine := (detected_iff hgroups h0 hm he).mp (hall _ e he)
    refine ⟨hmine.1, ?_⟩
    -- Were there another stream, its reader would have to report the cut too.
    have honly : ∀ i, i < log.decls.length → g.stream = i := fun i hi =>
      ((detected_iff hgroups h0 hm (List.getElem?_eq_getElem hi)).mp
        (hall i _ (List.getElem?_eq_getElem hi))).2
    by_contra hmore
    have h0 := honly 0 (by omega)
    have h1 := honly 1 (by omega)
    omega
  · rintro ⟨h8, hone⟩ i d hd
    have hi := (List.getElem?_eq_some_iff.mp hd).1
    exact (detected_iff hgroups h0 hm hd).mpr ⟨h8, by omega⟩

/-- Two streams of bytes and one group, of the second. -/
def twoStreams : LogFile where
  decls := [sampleStream, { name := [98], type := sampleType, name_le := by decide }]
  groups := [{ stream := 1, rows := 2, payload := [5, 6] }]
  count_lt := by decide
  fits := by
    intro g hg
    rw [List.mem_singleton.mp hg]
    exact ⟨by decide, _, rfl, rfl⟩

/-- A cut after one of the two rows, read by the stream's own reader. -/
theorem truncation_detected_iff_payload : Detected sampleType 1 [] (twoStreams.cut [] 9) :=
  ((truncation_detected_iff twoStreams [] [] { stream := 1, rows := 2, payload := [5, 6] } rfl 9
    (by decide) (by decide)).1 1 _ rfl).mpr ⟨by decide, rfl⟩

/-- **Two truncations that go unnoticed**: of the group's header, by the reader of its stream, and
of its payload, by the reader of the other stream. -/
theorem truncation_unnoticed :
    ¬ Detected sampleType 1 [] (twoStreams.cut [] 3)
      ∧ ¬ Detected sampleType 0 [] (twoStreams.cut [] 9) := by
  constructor
  · intro h
    have hfailed := h.failed
    revert hfailed
    decide +kernel
  · intro h
    have hfailed := h.failed
    revert hfailed
    decide +kernel

end Mog
