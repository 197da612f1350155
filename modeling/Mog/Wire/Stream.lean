import Mog.Lib.Framing
import Mog.Wire.Parser

/-!
# Parsing a stream

A stream is a run of messages, one after the other with nothing between them. The strict
parser takes messages of the decoded subset only; the session parser also frames the other
standard types and hands them to a listener, or drops them. Each loop is a scan of one frame
relation, so that each succeeds exactly on the streams its relation divides completely, and
each delivers the longest framed beginning of any other stream.
-/

namespace Mog

structure ParseError where
  code : DecodeError
  offset : Nat
deriving DecidableEq, Repr

/-- Per-run accounting of the session parser. -/
structure SessionStats where
  decoded : Nat
  skipped : Nat
  skippedByType : UInt8 → Nat

namespace SessionStats

/-- The statistics at the start of a run. -/
def zero : SessionStats := { decoded := 0, skipped := 0, skippedByType := fun _ => 0 }

/-- One more frame of a type is skipped. -/
def skip (st : SessionStats) (type : UInt8) : SessionStats :=
  { st with
      skipped := st.skipped + 1
      skippedByType := fun t => if t = type then st.skippedByType t + 1 else st.skippedByType t }

/-- One more message is decoded. -/
def decode (st : SessionStats) : SessionStats := { st with decoded := st.decoded + 1 }

end SessionStats

/-- The kernels of one instruction set. -/
structure KernelTable where
  thunk : Isa

namespace Wire

def kernelsFor (isa : Isa) : KernelTable := { thunk := isa }

/-- The call through the table's function pointer. -/
def callParseOne (kernels : KernelTable) : List UInt8 → Option Message := parseOne kernels.thunk

/-! ## The strict loops -/

section

variable {σ : Type}

/-- The loop of the strict parsers, from position `off` on. -/
def itchLoop (parse : List UInt8 → Option Message) (onMessage : σ → Message → σ)
    (buf : List UInt8) (off : Nat) (sink : σ) : Except ParseError Nat × σ :=
  if off < buf.length then
    match parse (buf.drop off) with
    | none => (.error { code := classifyStreamError (buf.drop off), offset := off }, sink)
    | some msg =>
        if frameLength (typeByte msg) = 0 then
          (.error { code := .unknownType, offset := off }, onMessage sink msg)
        else itchLoop parse onMessage buf (off + frameLength (typeByte msg)) (onMessage sink msg)
  else (.ok off, sink)
termination_by buf.length - off

def parseItchIsa (isa : Isa) (buf : List UInt8) (onMessage : σ → Message → σ) (sink : σ) :
    Except ParseError Nat × σ :=
  itchLoop (parseOne isa) onMessage buf 0 sink

def parseItchAs (buf : List UInt8) (onMessage : σ → Message → σ) (sink : σ)
    (kernels : KernelTable) : Except ParseError Nat × σ :=
  itchLoop (callParseOne kernels) onMessage buf 0 sink

/-! ## The session loops -/

/-- The loop of the session parsers. The listener gets the type, the position and the bytes of
a frame that is skipped. -/
def sessionLoop (parse : List UInt8 → Option Message) (onMessage : σ → Message → σ)
    (listen : σ → UInt8 → Nat → List UInt8 → σ) (buf : List UInt8) (off : Nat)
    (stats : SessionStats) (s : σ) : Except ParseError SessionStats × σ :=
  if off < buf.length then
    if sessionFrameLength (charAt buf off) = 0 then
      (.error { code := .unknownType, offset := off }, s)
    else if buf.length - off < sessionFrameLength (charAt buf off) then
      (.error { code := .truncated, offset := off }, s)
    else if frameLength (charAt buf off) = 0 then
      sessionLoop parse onMessage listen buf (off + sessionFrameLength (charAt buf off))
        (stats.skip (charAt buf off))
        (listen s (charAt buf off) off (bytesAt buf off (sessionFrameLength (charAt buf off))))
    else
      match parse (buf.drop off) with
      | none => (.error { code := classifyStreamError (buf.drop off), offset := off }, s)
      | some msg =>
          sessionLoop parse onMessage listen buf (off + sessionFrameLength (charAt buf off))
            stats.decode (onMessage s msg)
  else (.ok stats, s)
termination_by buf.length - off

/-- The listener of the forms that have none. -/
def noListener (s : σ) (_ : UInt8) (_ : Nat) (_ : List UInt8) : σ := s

def parseItchSessionIsa (isa : Isa) (buf : List UInt8) (onMessage : σ → Message → σ) (sink : σ) :
    Except ParseError SessionStats × σ :=
  sessionLoop (parseOne isa) onMessage noListener buf 0 .zero sink

def parseItchSessionAs (buf : List UInt8) (onMessage : σ → Message → σ) (sink : σ)
    (kernels : KernelTable) : Except ParseError SessionStats × σ :=
  sessionLoop (callParseOne kernels) onMessage noListener buf 0 .zero sink

def parseItchSessionListenIsa (isa : Isa) (buf : List UInt8) (onMessage : σ → Message → σ)
    (listen : σ → UInt8 → Nat → List UInt8 → σ) (s : σ) : Except ParseError SessionStats × σ :=
  sessionLoop (parseOne isa) onMessage listen buf 0 .zero s

/-- The listen form runs the instruction set that the caller's table holds. -/
def parseItchSessionListenAs (buf : List UInt8) (onMessage : σ → Message → σ)
    (kernels : KernelTable) (listen : σ → UInt8 → Nat → List UInt8 → σ) (s : σ) :
    Except ParseError SessionStats × σ :=
  if kernels.thunk = .avx512 then parseItchSessionListenIsa .avx512 buf onMessage listen s
  else if kernels.thunk = .avx2 then parseItchSessionListenIsa .avx2 buf onMessage listen s
  else parseItchSessionListenIsa .sse4Baseline buf onMessage listen s

end

/-! ## What a frame is -/

/-- A frame of the decoded subset: the decoder accepts it and it is no longer than its type. -/
def ItchFrame (m : Message) (f : List UInt8) : Prop :=
  decodeMessage f = .ok m ∧ f.length = frameSize m

/-- What a frame of a session stream carries. -/
inductive SessionItem where
  | message (m : Message)
  | skip (type : UInt8)
deriving DecidableEq, Repr

/-- A frame of a session stream: of the decoded subset, or a standard type at its length. -/
def SessionFrame : SessionItem → List UInt8 → Prop
  | .message m, f => ItchFrame m f
  | .skip type, f => charAt f 0 = type ∧ frameLength type = 0 ∧ 0 < sessionFrameLength type ∧
      f.length = sessionFrameLength type

/-! ## Frames divide a stream in one way -/

theorem frameLength_typeByte (m : Message) : frameLength (typeByte m) = frameSize m := by
  cases m <;> rfl

theorem sessionFrameLength_typeByte (m : Message) :
    sessionFrameLength (typeByte m) = frameSize m := by
  cases m <;> rfl

theorem frameSize_pos (m : Message) : 0 < frameSize m := by
  cases m <;> exact Nat.le_of_ble_eq_true rfl

/-- A codec reads nothing beyond its frame. -/
theorem reads_append {f c : List UInt8} {m : Message} (h : frameSize m ≤ f.length) :
    Reads (f ++ c) m ↔ Reads f m := by
  have hb : ∀ off n, off + n ≤ frameSize m → bytesAt (f ++ c) off n = bytesAt f off n :=
    fun off n hn => bytesAt_append_left (by omega)
  have hch : ∀ off, off < frameSize m → charAt (f ++ c) off = charAt f off :=
    fun off hn => charAt_append_left (by omega)
  have hlen : ¬ f.length < frameSize m := by omega
  have hlen' : ¬ f.length + c.length < frameSize m := by omega
  cases m <;> simp only [frameSize] at hb hch hlen hlen' <;>
    simp (disch := decide) only [Reads, decodeAddOrder, decodeAddOrderAttribution,
      decodeOrderExecuted, decodeOrderExecutedWithPrice, decodeOrderCancel, decodeOrderDelete,
      decodeOrderReplace, decodeHeader, be16, be32, be48, be64, List.length_append, hlen, hlen',
      hb, hch]

theorem decodeMessage_append {f : List UInt8} {m : Message} (h : decodeMessage f = .ok m)
    (c : List UInt8) : decodeMessage (f ++ c) = .ok m := by
  rcases decodeMessage_eq_ok.mp h with ⟨ht, hr⟩
  have hpos := frameSize_pos m
  have hlen := hr.size_le
  exact decodeMessage_eq_ok.mpr
    ⟨by rw [charAt_append_left (by omega), ht], (reads_append hlen).mpr hr⟩

/-- What the decoder accepts starts with a frame. -/
theorem decodeMessage_take {b : List UInt8} {m : Message} (h : decodeMessage b = .ok m) :
    ItchFrame m (b.take (frameSize m)) := by
  rcases decodeMessage_eq_ok.mp h with ⟨ht, hr⟩
  have hpos := frameSize_pos m
  have hlen := hr.size_le
  have htake : (b.take (frameSize m)).length = frameSize m := List.length_take_of_le hlen
  have hb : b.take (frameSize m) ++ b.drop (frameSize m) = b := List.take_append_drop _ _
  rw [← hb, charAt_append_left (by omega)] at ht
  rw [← hb, reads_append (by omega)] at hr
  exact ⟨decodeMessage_eq_ok.mpr ⟨ht, hr⟩, htake⟩

theorem itchFrame_decode {m : Message} {f : List UInt8} (h : ItchFrame m f) (c : List UInt8) :
    decodeMessage (f ++ c) = .ok m :=
  decodeMessage_append h.1 c

theorem ItchFrame.charAt_zero {m : Message} {f : List UInt8} (h : ItchFrame m f) :
    charAt f 0 = typeByte m :=
  (decodeMessage_eq_ok.mp h.1).1

theorem itchCode : Framing.Code ItchFrame :=
  { nonempty := by
      intro m f h hf
      have hpos := frameSize_pos m
      rw [← h.2, hf] at hpos
      exact absurd hpos (by simp)
    unique := by
      intro m n f g hf hg hp
      rcases hp with ⟨c, rfl⟩
      have hm := itchFrame_decode hf c
      rw [hg.1] at hm
      cases hm
      have hlen := hg.2
      rw [List.length_append, hf.2] at hlen
      have hc : c = [] := List.eq_nil_of_length_eq_zero (by omega)
      exact ⟨rfl, by rw [hc, List.append_nil]⟩ }

/-- The type byte of a session item. -/
def SessionItem.typeByte : SessionItem → UInt8
  | .message m => Wire.typeByte m
  | .skip type => type

theorem SessionFrame.charAt_zero {x : SessionItem} {f : List UInt8} (h : SessionFrame x f) :
    charAt f 0 = x.typeByte := by
  cases x with
  | message m => exact ItchFrame.charAt_zero h
  | skip type => exact h.1

/-- The session table holds the length of every session frame. -/
theorem SessionFrame.length_eq {x : SessionItem} {f : List UInt8} (h : SessionFrame x f) :
    f.length = sessionFrameLength x.typeByte := by
  cases x with
  | message m => exact h.2.trans (sessionFrameLength_typeByte m).symm
  | skip type => exact h.2.2.2

theorem SessionFrame.length_pos {x : SessionItem} {f : List UInt8} (h : SessionFrame x f) :
    0 < f.length := by
  cases x with
  | message m =>
      rw [h.2]
      exact frameSize_pos m
  | skip type =>
      rw [h.2.2.2]
      exact h.2.2.1

theorem sessionCode : Framing.Code SessionFrame :=
  { nonempty := by
      intro x f h hf
      have hpos := h.length_pos
      rw [hf] at hpos
      exact absurd hpos (by simp)
    unique := by
      intro x y f g hf hg hp
      -- the type byte at the front settles the length, and with it what follows
      rcases hp with ⟨c, rfl⟩
      have ht : x.typeByte = y.typeByte := by
        rw [← hf.charAt_zero, ← hg.charAt_zero, charAt_append_left hf.length_pos]
      have hlen := hg.length_eq
      rw [← ht, ← hf.length_eq, List.length_append] at hlen
      have hc : c = [] := List.eq_nil_of_length_eq_zero (by omega)
      subst hc
      rw [List.append_nil] at hg ⊢
      refine ⟨?_, rfl⟩
      cases x with
      | message m =>
          cases y with
          | message n => rw [(itchCode.unique hf hg (List.prefix_refl f)).1]
          | skip type =>
              have hz : frameLength (Wire.typeByte m) = 0 := by
                have ht' : Wire.typeByte m = type := ht
                rw [ht']
                exact hg.2.1
              have hpos := frameSize_pos m
              rw [frameLength_typeByte] at hz
              omega
      | skip type =>
          cases y with
          | message n =>
              have hz : frameLength (Wire.typeByte n) = 0 := by
                have ht' : type = Wire.typeByte n := ht
                rw [← ht']
                exact hf.2.1
              have hpos := frameSize_pos n
              rw [frameLength_typeByte] at hz
              omega
          | skip type' =>
              have ht' : type = type' := ht
              rw [ht'] }

/-! ## A strict run -/

/-- No frame stands where the decoder refuses, and only there. -/
theorem stuck_iff {rest : List UInt8} :
    (∀ m f, ItchFrame m f → ¬ f <+: rest) ↔
      decodeMessage rest = .error (classifyStreamError rest) := by
  rw [← parseOne_eq_none .sse4Baseline, Option.eq_none_iff_forall_ne_some]
  constructor
  · intro h m hm
    exact h m _ (decodeMessage_take ((parseOne_eq_some _).mp hm)) (List.take_prefix _ _)
  · rintro h m f hf ⟨c, rfl⟩
    exact h m ((parseOne_eq_some _).mpr (itchFrame_decode hf c))

section

variable {σ : Type}

/-- A strict loop takes a frame where one stands. -/
theorem itchLoop_frame {isa : Isa} {onMessage : σ → Message → σ} {buf : List UInt8} (off : Nat)
    (s : σ) (m : Message) (f : List UInt8) (hf : ItchFrame m f) (hp : f <+: buf.drop off) :
    itchLoop (parseOne isa) onMessage buf off s
      = itchLoop (parseOne isa) onMessage buf (off + f.length) (onMessage s m) := by
  rcases hp with ⟨c, hc⟩
  have hpos := frameSize_pos m
  have hlen := congrArg List.length hc
  rw [List.length_append, List.length_drop, hf.2] at hlen
  have hm : parseOne isa (buf.drop off) = some m := by
    rw [← hc]
    exact (parseOne_eq_some isa).mpr (itchFrame_decode hf c)
  rw [itchLoop, if_pos (by omega), hm]
  dsimp only
  rw [frameLength_typeByte, if_neg (by omega), hf.2]

/-- How a strict run ends at `off` with `rest` left. -/
def itchEnd (off : Nat) (rest : List UInt8) : Except ParseError Nat :=
  if rest = [] then .ok off else .error { code := classifyStreamError rest, offset := off }

theorem itchLoop_stuck {isa : Isa} {onMessage : σ → Message → σ} {buf rest : List UInt8} {off : Nat}
    (hoff : off ≤ buf.length) (hr : buf.drop off = rest)
    (hst : ∀ m f, ItchFrame m f → ¬ f <+: rest) (s : σ) :
    itchLoop (parseOne isa) onMessage buf off s = (itchEnd off rest, s) := by
  have hlen := congrArg List.length hr
  rw [List.length_drop] at hlen
  rw [itchLoop, itchEnd]
  by_cases hnil : rest = []
  · subst hnil
    rw [List.length_nil] at hlen
    rw [if_neg (by omega), if_pos rfl]
  · have hpos := List.length_pos_of_ne_nil hnil
    rw [if_pos (by omega), if_neg hnil, hr, (parseOne_eq_none isa).mpr (stuck_iff.mp hst)]

/-- **A strict run**: the messages of the longest framed beginning, in order, and then the end of
the stream or the first frame that is no frame. -/
theorem itchLoop_run {isa : Isa} {onMessage : σ → Message → σ} {buf rest : List UInt8}
    {fs : List (Message × List UInt8)} (h : Framing.Longest ItchFrame buf fs rest) (s : σ) :
    itchLoop (parseOne isa) onMessage buf 0 s
      = (itchEnd (Framing.bytes fs).length rest, (fs.map Prod.fst).foldl onMessage s) := by
  have hscan := Framing.scan (itchLoop (parseOne isa) onMessage buf)
    (fun s _ m _ => onMessage s m) (fun off s m f => itchLoop_frame off s m f) h.valid 0 s
    ⟨rest, h.eq.symm⟩
  have hdrop : buf.drop (Framing.bytes fs).length = rest := by
    rw [h.eq, List.drop_left]
  have hle : (Framing.bytes fs).length ≤ buf.length := by
    rw [h.eq, List.length_append]
    omega
  rw [hscan, Nat.zero_add, itchLoop_stuck hle hdrop h.stuck,
    Framing.foldAt_eq_foldl (fun s m _ => onMessage s m), List.foldl_map]

/-! ## A session run -/

/-- What a session frame adds to the statistics. -/
def tally (st : SessionStats) : SessionItem → SessionStats
  | .message _ => st.decode
  | .skip type => st.skip type

/-- The callback that a session frame at position `off` causes. -/
def deliver (onMessage : σ → Message → σ) (listen : σ → UInt8 → Nat → List UInt8 → σ) (s : σ)
    (off : Nat) : SessionItem → List UInt8 → σ
  | .message m, _ => onMessage s m
  | .skip type, f => listen s type off f

/-- What is wrong with a frame that a session loop refuses. -/
def sessionFault (rest : List UInt8) : DecodeError :=
  if sessionFrameLength (charAt rest 0) = 0 then .unknownType
  else if rest.length < sessionFrameLength (charAt rest 0) then .truncated
  else classifyStreamError rest

/-- How a session run ends at `off` with `rest` left. -/
def sessionEnd (off : Nat) (rest : List UInt8) (st : SessionStats) :
    Except ParseError SessionStats :=
  if rest = [] then .ok st else .error { code := sessionFault rest, offset := off }

/-- The front of what is left, seen in the buffer. -/
theorem charAt_drop (buf : List UInt8) (off : Nat) : charAt (buf.drop off) 0 = charAt buf off := by
  unfold charAt
  rw [List.getD_eq_getElem?_getD, List.getD_eq_getElem?_getD, List.getElem?_drop, Nat.add_zero]

theorem bytesAt_drop (buf : List UInt8) (off n : Nat) :
    bytesAt buf off n = (buf.drop off).take n := rfl

/-- A session loop takes a frame where one stands. -/
theorem sessionLoop_frame {isa : Isa} {onMessage : σ → Message → σ}
    {listen : σ → UInt8 → Nat → List UInt8 → σ} {buf : List UInt8} (off : Nat) (st : SessionStats)
    (s : σ) (x : SessionItem) (f : List UInt8) (hf : SessionFrame x f) (hp : f <+: buf.drop off) :
    sessionLoop (parseOne isa) onMessage listen buf off st s
      = sessionLoop (parseOne isa) onMessage listen buf (off + f.length) (tally st x)
          (deliver onMessage listen s off x f) := by
  rcases hp with ⟨c, hc⟩
  have hpos := hf.length_pos
  have hlen := congrArg List.length hc
  rw [List.length_append, List.length_drop] at hlen
  have htype : charAt buf off = x.typeByte := by
    rw [← charAt_drop, ← hc, charAt_append_left hpos, hf.charAt_zero]
  have hneed := hf.length_eq
  rw [sessionLoop, if_pos (by omega), htype, ← hneed, if_neg (by omega), if_neg (by omega)]
  cases x with
  | message m =>
      have hm : parseOne isa (buf.drop off) = some m := by
        rw [← hc]
        exact (parseOne_eq_some isa).mpr (itchFrame_decode hf c)
      have hsize := frameSize_pos m
      rw [if_neg (by rw [SessionItem.typeByte, frameLength_typeByte]; omega), hm]
      rfl
  | skip type =>
      have hbytes : bytesAt buf off f.length = f := by
        rw [bytesAt_drop, ← hc, List.take_left]
      rw [SessionItem.typeByte, if_pos hf.2.1, hbytes]
      rfl

theorem sessionLoop_stuck {isa : Isa} {onMessage : σ → Message → σ}
    {listen : σ → UInt8 → Nat → List UInt8 → σ} {buf rest : List UInt8} {off : Nat}
    (hoff : off ≤ buf.length) (hr : buf.drop off = rest)
    (hst : ∀ x f, SessionFrame x f → ¬ f <+: rest) (st : SessionStats) (s : σ) :
    sessionLoop (parseOne isa) onMessage listen buf off st s = (sessionEnd off rest st, s) := by
  have hlen := congrArg List.length hr
  rw [List.length_drop] at hlen
  have htype : charAt buf off = charAt rest 0 := by rw [← charAt_drop, hr]
  rw [sessionLoop, sessionEnd, sessionFault]
  by_cases hnil : rest = []
  · subst hnil
    rw [List.length_nil] at hlen
    rw [if_neg (by omega), if_pos rfl]
  have hpos := List.length_pos_of_ne_nil hnil
  rw [if_pos (by omega), if_neg hnil, htype, hlen]
  by_cases hunknown : sessionFrameLength (charAt rest 0) = 0
  · rw [if_pos hunknown, if_pos hunknown]
  rw [if_neg hunknown, if_neg hunknown]
  by_cases hshort : rest.length < sessionFrameLength (charAt rest 0)
  · rw [if_pos hshort, if_pos hshort]
  rw [if_neg hshort, if_neg hshort]
  by_cases hskip : frameLength (charAt rest 0) = 0
  · -- a whole frame of a standard type would not be stuck
    refine absurd (List.take_prefix (sessionFrameLength (charAt rest 0)) rest)
      (hst (.skip (charAt rest 0)) _ ⟨?_, hskip, by omega, List.length_take_of_le (by omega)⟩)
    have hsplit : rest.take (sessionFrameLength (charAt rest 0))
        ++ rest.drop (sessionFrameLength (charAt rest 0)) = rest := List.take_append_drop _ _
    have hfront : 0 < (rest.take (sessionFrameLength (charAt rest 0))).length := by
      rw [List.length_take_of_le (by omega)]
      omega
    have hc := charAt_append_left (b := rest.drop (sessionFrameLength (charAt rest 0))) hfront
    rw [hsplit] at hc
    exact hc.symm
  · have hnone := (parseOne_eq_none isa).mpr
      (stuck_iff.mp fun m f hf => hst (.message m) f hf)
    rw [if_neg hskip, hr, hnone]

/-- The statistics of a division. -/
def statsOf (fs : List (SessionItem × List UInt8)) : SessionStats :=
  (fs.map Prod.fst).foldl tally .zero

/-- **A session run**: one callback for every frame of the longest framed beginning, in order and
each at its own position, and then the end of the stream or the first frame that is none. -/
theorem sessionLoop_run {isa : Isa} {onMessage : σ → Message → σ}
    {listen : σ → UInt8 → Nat → List UInt8 → σ} {buf rest : List UInt8}
    {fs : List (SessionItem × List UInt8)} (h : Framing.Longest SessionFrame buf fs rest) (s : σ) :
    sessionLoop (parseOne isa) onMessage listen buf 0 .zero s
      = (sessionEnd (Framing.bytes fs).length rest (statsOf fs),
          Framing.foldAt (deliver onMessage listen) s 0 fs) := by
  have hscan := Framing.scan
    (fun off (p : SessionStats × σ) =>
      sessionLoop (parseOne isa) onMessage listen buf off p.1 p.2)
    (fun p off x f => (tally p.1 x, deliver onMessage listen p.2 off x f))
    (fun off p x f => sessionLoop_frame off p.1 p.2 x f) h.valid 0 (.zero, s)
    ⟨rest, h.eq.symm⟩
  have hpair : ∀ (gs : List (SessionItem × List UInt8)) (off : Nat) (st : SessionStats) (s : σ),
      Framing.foldAt (fun (p : SessionStats × σ) off x f =>
        (tally p.1 x, deliver onMessage listen p.2 off x f)) (st, s) off gs
        = ((gs.map Prod.fst).foldl tally st,
            Framing.foldAt (deliver onMessage listen) s off gs) := by
    intro gs
    induction gs with
    | nil => intro off st s; rfl
    | cons p gs ih => intro off st s; exact ih _ _ _
  have hdrop : buf.drop (Framing.bytes fs).length = rest := by
    rw [h.eq, List.drop_left]
  have hle : (Framing.bytes fs).length ≤ buf.length := by
    rw [h.eq, List.length_append]
    omega
  dsimp only at hscan
  rw [hscan, hpair, Nat.zero_add, sessionLoop_stuck hle hdrop h.stuck]
  rfl

/-! ## The parsers against the grammar -/

/-- The frames of the decoded subset in a division of a session stream. -/
def subsetFrames (fs : List (SessionItem × List UInt8)) : List (Message × List UInt8) :=
  fs.filterMap fun p =>
    match p.1 with
    | .message m => some (m, p.2)
    | .skip _ => none

/-- How many frames of a type a division skips. -/
def skipsOf (fs : List (SessionItem × List UInt8)) (type : UInt8) : Nat :=
  (fs.filter fun p => p.1 = .skip type).length

/-- The messages of a division of a session stream. -/
def messagesOf (fs : List (SessionItem × List UInt8)) : List Message :=
  (subsetFrames fs).map Prod.fst

theorem subsetFrames_valid {fs : List (SessionItem × List UInt8)}
    (h : Framing.Valid SessionFrame fs) : Framing.Valid ItchFrame (subsetFrames fs) := by
  intro q hq
  rcases List.mem_filterMap.mp hq with ⟨p, hp, he⟩
  have hf := h p hp
  rcases p with ⟨x, f⟩
  cases x with
  | message m =>
      cases he
      exact hf
  | skip type => exact absurd he (by simp)

theorem foldl_tally (fs : List (SessionItem × List UInt8)) : ∀ st : SessionStats,
    (fs.map Prod.fst).foldl tally st
      = { decoded := st.decoded + (subsetFrames fs).length
          skipped := st.skipped + (fs.length - (subsetFrames fs).length)
          skippedByType := fun t => st.skippedByType t + skipsOf fs t } := by
  induction fs with
  | nil => intro st; rfl
  | cons p fs ih =>
      intro st
      have hle : (subsetFrames fs).length ≤ fs.length := List.length_filterMap_le _ _
      rcases p with ⟨x, f⟩
      rw [List.map_cons, List.foldl_cons, ih]
      cases x with
      | message m =>
          simp only [tally, SessionStats.decode, subsetFrames, skipsOf, List.filterMap_cons,
            List.length_cons, List.filter_cons] at hle ⊢
          congr 1
          · omega
          · omega
      | skip type =>
          simp only [tally, SessionStats.skip, subsetFrames, skipsOf, List.filterMap_cons,
            List.length_cons, List.filter_cons] at hle ⊢
          congr 1
          · omega
          · funext t
            by_cases ht : t = type
            · subst ht
              simp
              omega
            · have ht' : ¬ type = t := fun h => ht h.symm
              simp [ht, ht']

/-- **The counters are exact.** -/
theorem statsOf_eq (fs : List (SessionItem × List UInt8)) :
    statsOf fs = { decoded := (subsetFrames fs).length
                   skipped := fs.length - (subsetFrames fs).length
                   skippedByType := skipsOf fs } := by
  rw [statsOf, foldl_tally]
  simp [SessionStats.zero]

/-- Without a listener only the messages are delivered. -/
theorem foldAt_noListener (onMessage : σ → Message → σ) (fs : List (SessionItem × List UInt8)) :
    ∀ (s : σ) (off : Nat), Framing.foldAt (deliver onMessage noListener) s off fs
      = (messagesOf fs).foldl onMessage s := by
  induction fs with
  | nil => intro s off; rfl
  | cons p fs ih =>
      intro s off
      rcases p with ⟨x, f⟩
      cases x with
      | message m => exact ih _ _
      | skip type => exact ih _ _

theorem parseItchSessionListenAs_eq (buf : List UInt8) (onMessage : σ → Message → σ)
    (kernels : KernelTable) (listen : σ → UInt8 → Nat → List UInt8 → σ) (s : σ) :
    parseItchSessionListenAs buf onMessage kernels listen s
      = sessionLoop (callParseOne kernels) onMessage listen buf 0 .zero s := by
  unfold parseItchSessionListenAs parseItchSessionListenIsa callParseOne
  rcases kernels with ⟨isa⟩
  cases isa <;> rfl

/-- What the strict parsers do with a buffer: `fs` is its longest beginning of valid frames. -/
structure StrictRun (buf : List UInt8) (onMessage : σ → Message → σ) (s : σ)
    (run : Except ParseError Nat × σ) (fs : List (Message × List UInt8)) (rest : List UInt8) :
    Prop where
  frames : Framing.Valid ItchFrame fs
  consumed : buf = Framing.bytes fs ++ rest
  maximal : ∀ gs t, Framing.Valid ItchFrame gs → buf = Framing.bytes gs ++ t → gs <+: fs
  delivered : run.2 = (fs.map Prod.fst).foldl onMessage s
  accepted : rest = [] → run.1 = .ok buf.length
  refused : rest ≠ [] → ∃ e, decodeMessage rest = .error e ∧
    run.1 = .error { code := e, offset := (Framing.bytes fs).length }
  grammar : (∃ n, run.1 = .ok n) ↔ ∃ gs, Framing.Valid ItchFrame gs ∧ buf = Framing.bytes gs

/-- What the session parsers do with a buffer: `run` is a run without a listener and `heard`
one with a listener, which gets every skipped frame at its own position. -/
structure SessionRun (buf : List UInt8) (onMessage : σ → Message → σ)
    (listen : σ → UInt8 → Nat → List UInt8 → σ) (s : σ) (run heard : Except ParseError SessionStats × σ)
    (strict : List UInt8 → Except ParseError Nat × σ)
    (fs : List (SessionItem × List UInt8)) (rest : List UInt8) : Prop where
  frames : Framing.Valid SessionFrame fs
  consumed : buf = Framing.bytes fs ++ rest
  maximal : ∀ gs t, Framing.Valid SessionFrame gs → buf = Framing.bytes gs ++ t → gs <+: fs
  delivered : run.2 = (messagesOf fs).foldl onMessage s
  heardAll : heard.2 = Framing.foldAt (deliver onMessage listen) s 0 fs
  agree : heard.1 = run.1
  accepted : rest = [] → run.1 = .ok { decoded := (subsetFrames fs).length
                                       skipped := fs.length - (subsetFrames fs).length
                                       skippedByType := skipsOf fs }
  refused : rest ≠ [] →
    run.1 = .error { code := sessionFault rest, offset := (Framing.bytes fs).length }
  grammar : (∃ st, run.1 = .ok st) ↔ ∃ gs, Framing.Valid SessionFrame gs ∧ buf = Framing.bytes gs
  subset : strict (Framing.bytes (subsetFrames fs))
    = (.ok (Framing.bytes (subsetFrames fs)).length, run.2)

theorem strictRun (isa : Isa) (buf : List UInt8) (onMessage : σ → Message → σ) (s : σ) :
    ∃ fs rest, StrictRun buf onMessage s (itchLoop (parseOne isa) onMessage buf 0 s) fs rest := by
  rcases itchCode.exists_longest buf with ⟨fs, rest, h⟩
  have hrun : itchLoop (parseOne isa) onMessage buf 0 s = _ := itchLoop_run h s
  have hlen : rest = [] → (Framing.bytes fs).length = buf.length := by
    intro hr
    rw [h.eq, hr, List.append_nil]
  refine ⟨fs, rest, ?_⟩
  rw [hrun]
  exact
    { frames := h.valid
      consumed := h.eq
      maximal := fun gs t hg hb => itchCode.le_longest h hg hb
      delivered := rfl
      accepted := fun hr => by rw [itchEnd, if_pos hr, hlen hr]
      refused := fun hr => ⟨_, stuck_iff.mp h.stuck, by rw [itchEnd, if_neg hr]⟩
      grammar := by
        rw [← itchCode.rest_eq_nil_iff h, itchEnd]
        by_cases hr : rest = []
        · rw [if_pos hr]
          exact ⟨fun _ => hr, fun _ => ⟨_, rfl⟩⟩
        · rw [if_neg hr]
          exact ⟨fun hn => absurd hn (by simp), fun hn => absurd hn hr⟩ }

theorem sessionRun (isa : Isa) (buf : List UInt8) (onMessage : σ → Message → σ)
    (listen : σ → UInt8 → Nat → List UInt8 → σ) (s : σ) :
    ∃ fs rest, SessionRun buf onMessage listen s
      (sessionLoop (parseOne isa) onMessage noListener buf 0 .zero s)
      (sessionLoop (parseOne isa) onMessage listen buf 0 .zero s)
      (fun b => itchLoop (parseOne isa) onMessage b 0 s) fs rest := by
  rcases sessionCode.exists_longest buf with ⟨fs, rest, h⟩
  refine ⟨fs, rest, ?_⟩
  rw [sessionLoop_run h, sessionLoop_run h, foldAt_noListener]
  have hsubset : Framing.Longest ItchFrame (Framing.bytes (subsetFrames fs)) (subsetFrames fs) [] :=
    { valid := subsetFrames_valid h.valid
      eq := (List.append_nil _).symm
      stuck := fun m f hf hp => itchCode.nonempty hf (List.prefix_nil.mp hp) }
  exact
    { frames := h.valid
      consumed := h.eq
      maximal := fun gs t hg hb => sessionCode.le_longest h hg hb
      delivered := rfl
      heardAll := rfl
      agree := rfl
      accepted := fun hr => by rw [sessionEnd, if_pos hr, statsOf_eq]
      refused := fun hr => by rw [sessionEnd, if_neg hr]
      grammar := by
        rw [← sessionCode.rest_eq_nil_iff h, sessionEnd]
        by_cases hr : rest = []
        · rw [if_pos hr]
          exact ⟨fun _ => hr, fun _ => ⟨_, rfl⟩⟩
        · rw [if_neg hr]
          exact ⟨fun hn => absurd hn (by simp), fun hn => absurd hn hr⟩
      subset := by
        rw [itchLoop_run hsubset, itchEnd, if_pos rfl]
        rfl }

/-- **The parsers and the grammar of streams.** For every buffer, callback and kernel table, the
strict forms agree and make a strict run, and the session forms agree and make a session run. -/
theorem stream_grammar (isa : Isa) (kernels : KernelTable) (buf : List UInt8)
    (onMessage : σ → Message → σ) (listen : σ → UInt8 → Nat → List UInt8 → σ) (s : σ) :
    (parseItchIsa isa buf onMessage s = parseItchAs buf onMessage s kernels ∧
      parseItchSessionIsa isa buf onMessage s = parseItchSessionAs buf onMessage s kernels ∧
      parseItchSessionListenIsa isa buf onMessage listen s
        = parseItchSessionListenAs buf onMessage kernels listen s) ∧
    (∃ fs rest, StrictRun buf onMessage s (parseItchAs buf onMessage s kernels) fs rest) ∧
    ∃ fs rest, SessionRun buf onMessage listen s (parseItchSessionAs buf onMessage s kernels)
      (parseItchSessionListenAs buf onMessage kernels listen s)
      (fun b => parseItchAs b onMessage s kernels) fs rest := by
  have hisa : parseOne isa = parseOne kernels.thunk := rfl
  refine ⟨⟨?_, ?_, ?_⟩, ?_, ?_⟩
  · rw [parseItchIsa, hisa]
    rfl
  · rw [parseItchSessionIsa, hisa]
    rfl
  · rw [parseItchSessionListenAs_eq, parseItchSessionListenIsa, hisa]
    rfl
  · exact strictRun kernels.thunk buf onMessage s
  · rw [parseItchSessionListenAs_eq]
    exact sessionRun kernels.thunk buf onMessage listen s

end

end Wire

end Mog
