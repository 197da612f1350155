import Mog.Wire.Codec

/-!
# MoldUDP64 framing

A downstream packet is a header (session, sequence number, message count) and its message
blocks, each a length and that many bytes. The framer walks the packets of a buffer and
checks that the sequence numbers go on without a hole. Every read names its bounds: a read
past the end of the buffer is an outcome of its own, and no run has it.

A chain of packets is what a well-behaved sender produces: one session, sequence numbers that go
on, heartbeats and ends of session without messages. The framer takes a chain whole and calls
its sink once for each message, and any other buffer is described by the longest chain at its
front and by what stands behind it.
-/

namespace Mog

namespace Mold

open Wire

def kSessionSize : Nat := 10
def kPacketHeaderSize : Nat := kSessionSize + 8 + 2
def kHeartbeatCount : Nat := 0xFFFF
def kEndSessionCount : Nat := 0

inductive Error where
  | truncatedHeader
  | truncatedMessage
  | badMessageLength
  | sequenceGap
  | sequenceRegression
  | trailingBytes
deriving DecidableEq, Repr

structure GapInfo where
  expectedSeq : Nat
  gotSeq : Nat
  offset : Nat
  session : List UInt8
deriving DecidableEq, Repr

/-- No gap to speak of: what `GapInfo{}` holds. -/
def GapInfo.none : GapInfo :=
  { expectedSeq := 0, gotSeq := 0, offset := 0, session := List.replicate kSessionSize 0 }

structure ErrorInfo where
  code : Error
  offset : Nat
  gap : GapInfo
deriving DecidableEq, Repr

/-- A fault of the framing, without a gap. -/
def fault (code : Error) (offset : Nat) : ErrorInfo := { code, offset, gap := .none }

structure PacketView where
  session : List UInt8
  sequence : Nat
  count : Nat
deriving DecidableEq, Repr

/-- How a walk over a buffer ends. -/
inductive Outcome (α : Type) where
  | done (a : α)
  | fail (e : ErrorInfo)
  | outOfBounds
deriving DecidableEq, Repr

/-- A read of `n` bytes at `off`, with none past the end. -/
def readAt (buf : List UInt8) (off n : Nat) : Option (List UInt8) :=
  if off + n ≤ buf.length then some (bytesAt buf off n) else none

def loadPacketHeader (p : List UInt8) : PacketView :=
  { session := bytesAt p 0 kSessionSize, sequence := be64 p kSessionSize
    count := be16 p (kSessionSize + 8) }

/-- What the framer remembers of the packets before. -/
structure Continuity where
  expectedSeq : Nat
  established : Bool
  establishedSession : List UInt8
deriving DecidableEq, Repr

def Continuity.start : Continuity :=
  { expectedSeq := 0, established := false, establishedSession := List.replicate kSessionSize 0 }

/-- The error of a packet that does not go on where the last one stopped. -/
def discontinuity (expected : Nat) (hdr : PacketView) (pktOff : Nat) : ErrorInfo :=
  { code := if expected < hdr.sequence then .sequenceGap else .sequenceRegression
    offset := pktOff
    gap := { expectedSeq := expected, gotSeq := hdr.sequence, offset := pktOff
             session := hdr.session.take kSessionSize } }

/-- The check of a packet's header against the packets before it. -/
def checkContinuity (c : Continuity) (hdr : PacketView) (pktOff : Nat) :
    Except ErrorInfo Continuity :=
  if c.established = false then
    .ok { expectedSeq := hdr.sequence, established := true, establishedSession := hdr.session }
  else if hdr.count ≠ kEndSessionCount then
    if hdr.session ≠ c.establishedSession then
      .ok { c with expectedSeq := hdr.sequence, establishedSession := hdr.session }
    else if hdr.sequence ≠ c.expectedSeq ∧ hdr.count ≠ kHeartbeatCount then
      .error (discontinuity c.expectedSeq hdr pktOff)
    else .ok c
  else .ok c

section

variable {σ : Type}

/-- The message blocks of a packet. The sink gets the position and the bytes of a message and
its sequence number. -/
def messageLoop (sink : σ → Nat × List UInt8 × Nat → σ) (buf : List UInt8) :
    Nat → Nat → Nat → σ → Outcome (Nat × Nat) × σ
  | 0, off, expectedSeq, s => (.done (off, expectedSeq), s)
  | n + 1, off, expectedSeq, s =>
      if buf.length - off < 2 then (.fail (fault .truncatedMessage off), s)
      else
        match readAt buf off 2 with
        | none => (.outOfBounds, s)
        | some prefixBytes =>
            if loadBe prefixBytes = 0 then (.fail (fault .badMessageLength (off + 2)), s)
            else if buf.length - (off + 2) < loadBe prefixBytes then
              (.fail (fault .truncatedMessage (off + 2)), s)
            else
              match readAt buf (off + 2) (loadBe prefixBytes) with
              | none => (.outOfBounds, s)
              | some payload =>
                  messageLoop sink buf n (off + 2 + loadBe prefixBytes)
                    ((expectedSeq + 1) % 2 ^ 64) (sink s (off + 2, payload, expectedSeq))

theorem messageLoop_le {sink : σ → Nat × List UInt8 × Nat → σ} {buf : List UInt8} {n : Nat} :
    ∀ {off seq off' seq' : Nat} {s s' : σ},
      messageLoop sink buf n off seq s = (.done (off', seq'), s') → off ≤ off' := by
  induction n with
  | zero =>
      intro off seq off' seq' s s' h
      cases h
      exact Nat.le_refl _
  | succ n ih =>
      intro off seq off' seq' s s' h
      rw [messageLoop] at h
      split at h
      · cases h
      · split at h
        · cases h
        · split at h
          · cases h
          · split at h
            · cases h
            · split at h
              · cases h
              · have hle := ih h
                omega

/-- The packets of a buffer, from position `off` on. -/
def packetLoop (sink : σ → Nat × List UInt8 × Nat → σ) (buf : List UInt8) (off : Nat)
    (c : Continuity) (s : σ) : Outcome Nat × σ :=
  if off < buf.length then
    if buf.length - off < kPacketHeaderSize then (.fail (fault .truncatedHeader off), s)
    else
      match readAt buf off kPacketHeaderSize with
      | none => (.outOfBounds, s)
      | some p =>
          let hdr := loadPacketHeader p
          match checkContinuity c hdr off with
          | .error e => (.fail e, s)
          | .ok c' =>
              if hdr.count = kEndSessionCount then
                if off + kPacketHeaderSize ≠ buf.length then
                  (.fail (fault .trailingBytes (off + kPacketHeaderSize)), s)
                else (.done (off + kPacketHeaderSize), s)
              else if hdr.count = kHeartbeatCount then
                if hdr.sequence ≠ c'.expectedSeq then
                  (.fail (discontinuity c'.expectedSeq hdr off), s)
                else packetLoop sink buf (off + kPacketHeaderSize) c' s
              else
                match _hloop : messageLoop sink buf hdr.count (off + kPacketHeaderSize)
                    c'.expectedSeq s with
                | (.done (off', seq'), s') =>
                    packetLoop sink buf off' { c' with expectedSeq := seq' } s'
                | (.fail e, s') => (.fail e, s')
                | (.outOfBounds, s') => (.outOfBounds, s')
  else (.done off, s)
termination_by buf.length - off
decreasing_by
  · have hk : 0 < kPacketHeaderSize := by decide
    omega
  · have hk : 0 < kPacketHeaderSize := by decide
    have hle := messageLoop_le _hloop
    omega

def parseMoldudp64 (buf : List UInt8) (sink : σ → Nat × List UInt8 × Nat → σ) (s : σ) :
    Outcome Nat × σ :=
  packetLoop sink buf 0 .start s

end

/-! ## Packets -/

/-- What a packet carries. -/
inductive Body where
  | data (messages : List (List UInt8))
  | heartbeat
  | endSession
deriving DecidableEq, Repr

structure Packet where
  session : List UInt8
  sequence : Nat
  body : Body
deriving DecidableEq, Repr

def Body.count : Body → Nat
  | .data messages => messages.length
  | .heartbeat => kHeartbeatCount
  | .endSession => kEndSessionCount

def Body.messages : Body → List (List UInt8)
  | .data messages => messages
  | .heartbeat => []
  | .endSession => []

/-- A message that fits its length prefix, and is not empty. -/
def GoodMessage (m : List UInt8) : Prop := 0 < m.length ∧ m.length < 2 ^ 16

def Body.Good : Body → Prop
  | .data messages => 0 < messages.length ∧ messages.length < kHeartbeatCount ∧
      ∀ m ∈ messages, GoodMessage m
  | .heartbeat => True
  | .endSession => True

/-- A packet that fits its header. -/
structure Packet.Good (p : Packet) : Prop where
  session : p.session.length = kSessionSize
  sequence : p.sequence < 2 ^ 64
  body : p.body.Good

/-- A packet header on the wire. -/
def encodeHeader (session : List UInt8) (sequence count : Nat) : List UInt8 :=
  session ++ storeBe 8 sequence ++ storeBe 2 count

/-- One message block on the wire. -/
def encodeBlock (m : List UInt8) : List UInt8 := storeBe 2 m.length ++ m

def encodeBlocks (ms : List (List UInt8)) : List UInt8 := (ms.map encodeBlock).flatten

def Packet.encode (p : Packet) : List UInt8 :=
  encodeHeader p.session p.sequence p.body.count ++ encodeBlocks p.body.messages

def encodePackets (ps : List Packet) : List UInt8 := (ps.map Packet.encode).flatten

@[simp] theorem encodePackets_nil : encodePackets [] = [] := rfl

@[simp] theorem encodePackets_cons (p : Packet) (ps : List Packet) :
    encodePackets (p :: ps) = p.encode ++ encodePackets ps := rfl

theorem encodePackets_append (ps qs : List Packet) :
    encodePackets (ps ++ qs) = encodePackets ps ++ encodePackets qs := by
  rw [encodePackets, List.map_append, List.flatten_append]
  rfl

@[simp] theorem encodeBlocks_nil : encodeBlocks [] = [] := rfl

@[simp] theorem encodeBlocks_cons (m : List UInt8) (ms : List (List UInt8)) :
    encodeBlocks (m :: ms) = encodeBlock m ++ encodeBlocks ms := rfl

theorem encodeBlock_length (m : List UInt8) : (encodeBlock m).length = 2 + m.length := by
  rw [encodeBlock, List.length_append, storeBe_length]

theorem encodeHeader_length {session : List UInt8} (sequence count : Nat)
    (h : session.length = kSessionSize) :
    (encodeHeader session sequence count).length = kPacketHeaderSize := by
  rw [encodeHeader, List.length_append, List.length_append, storeBe_length, storeBe_length, h]
  rfl

/-- A header is read back from the front of a packet. -/
theorem loadPacketHeader_encode {session : List UInt8} {sequence count : Nat}
    (hs : session.length = kSessionSize) (hq : sequence < 2 ^ 64) (hn : count < 2 ^ 16) :
    loadPacketHeader (encodeHeader session sequence count)
      = { session, sequence, count } := by
  have h10 : session.length = 10 := hs
  have e1 : loadBe (storeBe 8 sequence) = sequence := loadBe_storeBe_of_lt hq
  have e2 : loadBe (storeBe 2 count) = count := loadBe_storeBe_of_lt hn
  simp [loadPacketHeader, encodeHeader, kSessionSize, be64, be16, h10, bytesAt_front,
    bytesAt_append_right, bytesAt_zero, e1, e2]

/-- Every twenty bytes are a header. -/
theorem encodeHeader_loadPacketHeader {p : List UInt8} (h : p.length = kPacketHeaderSize) :
    encodeHeader (loadPacketHeader p).session (loadPacketHeader p).sequence
      (loadPacketHeader p).count = p := by
  have h20 : p.length = 20 := h
  have e1 : storeBe 8 (be64 p 10) = bytesAt p 10 8 := storeBe_bytesAt (by omega)
  have e2 : storeBe 2 (be16 p 18) = bytesAt p 18 2 := storeBe_bytesAt (by omega)
  simp only [loadPacketHeader, encodeHeader, kSessionSize]
  rw [e1, e2, bytesAt_join p 0 10 8, bytesAt_join p 0 18 2, bytesAt_zero h20]

theorem loadPacketHeader_good {p : List UInt8} (h : p.length = kPacketHeaderSize) :
    (loadPacketHeader p).session.length = kSessionSize ∧ (loadPacketHeader p).sequence < 2 ^ 64 ∧
      (loadPacketHeader p).count < 2 ^ 16 := by
  have h20 : p.length = 20 := h
  refine ⟨bytesAt_length (by rw [kSessionSize]; omega), be64_lt _ _, ?_⟩
  exact loadBe_lt (w := 2) (List.length_take_le _ _)

theorem Packet.encode_length {p : Packet} (h : p.Good) :
    p.encode.length = kPacketHeaderSize + (encodeBlocks p.body.messages).length := by
  rw [Packet.encode, List.length_append, encodeHeader_length _ _ h.session]

/-! ## The calls of a packet list -/

/-- The calls for the message blocks at `off`, numbered from `seq` on. -/
def blockCalls : Nat → Nat → List (List UInt8) → List (Nat × List UInt8 × Nat)
  | _, _, [] => []
  | off, seq, m :: ms =>
      (off + 2, m, seq) :: blockCalls (off + 2 + m.length) ((seq + 1) % 2 ^ 64) ms

/-- The calls for the packets at `off`: every data packet's messages, numbered from its own
sequence number on. -/
def packetCalls : Nat → List Packet → List (Nat × List UInt8 × Nat)
  | _, [] => []
  | off, p :: ps =>
      blockCalls (off + kPacketHeaderSize) p.sequence p.body.messages
        ++ packetCalls (off + p.encode.length) ps

theorem packetCalls_append (ps qs : List Packet) : ∀ off : Nat,
    packetCalls off (ps ++ qs)
      = packetCalls off ps ++ packetCalls (off + (encodePackets ps).length) qs := by
  induction ps with
  | nil => intro off; rfl
  | cons p ps ih =>
      intro off
      rw [List.cons_append, packetCalls, packetCalls, ih, List.append_assoc, encodePackets_cons,
        List.length_append, Nat.add_assoc]

section

variable {σ : Type} {sink : σ → Nat × List UInt8 × Nat → σ} {buf : List UInt8}

/-! ## The message blocks -/

theorem readAt_of_le {off n : Nat} (h : off + n ≤ buf.length) :
    readAt buf off n = some (bytesAt buf off n) := by
  rw [readAt, if_pos h]

/-- The loop takes a block where one stands. -/
theorem messageLoop_block {off n seq : Nat} {s : σ} {m rest : List UInt8} (hm : GoodMessage m)
    (hb : buf.drop off = encodeBlock m ++ rest) :
    messageLoop sink buf (n + 1) off seq s
      = messageLoop sink buf n (off + (encodeBlock m).length) ((seq + 1) % 2 ^ 64)
          (sink s (off + 2, m, seq)) := by
  rcases hm with ⟨hpos, hlt⟩
  have hlen := congrArg List.length hb
  rw [List.length_append, List.length_drop, encodeBlock_length] at hlen
  have hsize : bytesAt buf off 2 = storeBe 2 m.length := by
    rw [bytesAt, hb, encodeBlock, List.append_assoc, List.take_left' (storeBe_length 2 _)]
  have hload : loadBe (bytesAt buf off 2) = m.length := by
    rw [hsize]
    exact loadBe_storeBe_of_lt hlt
  have hpayload : bytesAt buf (off + 2) m.length = m := by
    rw [bytesAt, ← List.drop_drop, hb, encodeBlock, List.append_assoc,
      List.drop_left' (storeBe_length 2 _), List.take_left]
  rw [messageLoop, if_neg (by omega), readAt_of_le (by omega)]
  dsimp only
  rw [hload, if_neg (by omega), if_neg (by omega), readAt_of_le (by omega), hpayload,
    encodeBlock_length, ← Nat.add_assoc]

/-- The loop fails where no block stands, without another call. -/
theorem messageLoop_stuck {off n seq : Nat} {s : σ}
    (hb : ¬ ∃ m rest, GoodMessage m ∧ buf.drop off = encodeBlock m ++ rest) :
    ∃ e, messageLoop sink buf (n + 1) off seq s = (.fail e, s) := by
  rw [messageLoop]
  by_cases h2 : buf.length - off < 2
  · exact ⟨_, by rw [if_pos h2]⟩
  rw [if_neg h2, readAt_of_le (by omega)]
  dsimp only
  by_cases hz : loadBe (bytesAt buf off 2) = 0
  · exact ⟨_, by rw [if_pos hz]⟩
  rw [if_neg hz]
  by_cases hshort : buf.length - (off + 2) < loadBe (bytesAt buf off 2)
  · exact ⟨_, by rw [if_pos hshort]⟩
  -- a whole block stands here
  have hlt : loadBe (bytesAt buf off 2) < 2 ^ 16 := loadBe_lt (w := 2) (List.length_take_le _ _)
  have hlen : (bytesAt buf (off + 2) (loadBe (bytesAt buf off 2))).length
      = loadBe (bytesAt buf off 2) := bytesAt_length (by omega)
  refine absurd ⟨bytesAt buf (off + 2) (loadBe (bytesAt buf off 2)),
    buf.drop (off + 2 + loadBe (bytesAt buf off 2)), ⟨by omega, by omega⟩, ?_⟩ hb
  rw [encodeBlock, hlen, storeBe_bytesAt (by omega), bytesAt, bytesAt, List.append_assoc,
    ← List.drop_drop (i := loadBe _), List.take_append_drop, ← List.drop_drop (i := 2),
    List.take_append_drop]

/-- Every block of a packet is taken. -/
theorem messageLoop_blocks {ms : List (List UInt8)} (hms : ∀ m ∈ ms, GoodMessage m) :
    ∀ {off n seq : Nat} {s : σ} {rest : List UInt8}, seq < 2 ^ 64 →
      buf.drop off = encodeBlocks ms ++ rest →
      messageLoop sink buf (ms.length + n) off seq s
        = messageLoop sink buf n (off + (encodeBlocks ms).length) ((seq + ms.length) % 2 ^ 64)
            ((blockCalls off seq ms).foldl sink s) := by
  induction ms with
  | nil =>
      intro off n seq s rest hseq _
      rw [List.length_nil, Nat.zero_add, encodeBlocks_nil, List.length_nil, Nat.add_zero,
        Nat.add_zero, Nat.mod_eq_of_lt hseq]
      rfl
  | cons m ms ih =>
      intro off n seq s rest hseq hb
      rcases List.forall_mem_cons.mp hms with ⟨hm, hms⟩
      rw [encodeBlocks_cons, List.append_assoc] at hb
      have hdrop : buf.drop (off + (encodeBlock m).length) = encodeBlocks ms ++ rest := by
        rw [← List.drop_drop, hb, List.drop_left]
      have hsize : (m :: ms).length + n = ms.length + n + 1 := by
        rw [List.length_cons]
        omega
      have hnext : ((seq + 1) % 2 ^ 64 + ms.length) % 2 ^ 64 = (seq + (ms.length + 1)) % 2 ^ 64 := by
        omega
      rw [hsize, messageLoop_block hm hb, ih hms (Nat.mod_lt _ (by decide)) hdrop,
        encodeBlocks_cons, List.length_append, List.length_cons, ← Nat.add_assoc off, hnext,
        blockCalls, List.foldl_cons, encodeBlock_length, ← Nat.add_assoc off]

/-- **The blocks of any buffer**: the loop takes as many whole blocks as the packet announces, or
fails behind the last one. -/
theorem messageLoop_run {n : Nat} : ∀ {off seq : Nat} {s : σ}, seq < 2 ^ 64 →
    ∃ ms rest, (∀ m ∈ ms, GoodMessage m) ∧ buf.drop off = encodeBlocks ms ++ rest ∧
      ((ms.length = n ∧ messageLoop sink buf n off seq s
          = (.done (off + (encodeBlocks ms).length, (seq + ms.length) % 2 ^ 64),
              (blockCalls off seq ms).foldl sink s)) ∨
        (ms.length < n ∧ ∃ e, messageLoop sink buf n off seq s
          = (.fail e, (blockCalls off seq ms).foldl sink s))) := by
  induction n with
  | zero =>
      intro off seq s hseq
      refine ⟨[], buf.drop off, fun m hm => absurd hm (by simp), rfl, .inl ⟨rfl, ?_⟩⟩
      rw [List.length_nil, Nat.add_zero, Nat.mod_eq_of_lt hseq]
      rfl
  | succ n ih =>
      intro off seq s hseq
      by_cases hb : ∃ m rest, GoodMessage m ∧ buf.drop off = encodeBlock m ++ rest
      · rcases hb with ⟨m, rest, hm, hb⟩
        rcases @ih (off + (encodeBlock m).length) ((seq + 1) % 2 ^ 64)
          (sink s (off + 2, m, seq)) (Nat.mod_lt _ (by decide)) with ⟨ms, rest', hms, hd, hrun⟩
        have hrest : rest = encodeBlocks ms ++ rest' := by
          rw [← hd, ← List.drop_drop, hb, List.drop_left]
        have hoff : off + 2 + m.length = off + (encodeBlock m).length := by
          rw [encodeBlock_length, Nat.add_assoc]
        have hnext : ((seq + 1) % 2 ^ 64 + ms.length) % 2 ^ 64
            = (seq + (ms.length + 1)) % 2 ^ 64 := by
          omega
        refine ⟨m :: ms, rest', List.forall_mem_cons.mpr ⟨hm, hms⟩, ?_, ?_⟩
        · rw [hb, hrest, encodeBlocks_cons, List.append_assoc]
        · rw [messageLoop_block hm hb, List.length_cons, encodeBlocks_cons, List.length_append,
            ← Nat.add_assoc off, blockCalls, List.foldl_cons, hoff, ← hnext]
          rcases hrun with ⟨hn, hr⟩ | ⟨hn, e, hr⟩
          · exact .inl ⟨by omega, hr⟩
          · exact .inr ⟨by omega, e, hr⟩
      · refine ⟨[], buf.drop off, fun m hm => absurd hm (by simp), rfl, .inr ⟨by simp, ?_⟩⟩
        exact messageLoop_stuck hb

/-! ## One packet -/

variable {off : Nat} {c c' : Continuity} {s s' : σ} {hdr : PacketView}

theorem packetLoop_refused {e : ErrorInfo} (hlen : off + kPacketHeaderSize ≤ buf.length)
    (hh : loadPacketHeader (bytesAt buf off kPacketHeaderSize) = hdr)
    (hc : checkContinuity c hdr off = .error e) :
    packetLoop sink buf off c s = (.fail e, s) := by
  have hpos : 0 < kPacketHeaderSize := by decide
  rw [packetLoop, if_pos (by omega), if_neg (by omega), readAt_of_le hlen]
  dsimp only
  rw [hh, hc]

theorem packetLoop_end (hlen : off + kPacketHeaderSize ≤ buf.length)
    (hh : loadPacketHeader (bytesAt buf off kPacketHeaderSize) = hdr)
    (hc : checkContinuity c hdr off = .ok c') (hn : hdr.count = kEndSessionCount) :
    packetLoop sink buf off c s
      = (if off + kPacketHeaderSize ≠ buf.length then
          .fail (fault .trailingBytes (off + kPacketHeaderSize))
        else .done (off + kPacketHeaderSize), s) := by
  have hpos : 0 < kPacketHeaderSize := by decide
  rw [packetLoop, if_pos (by omega), if_neg (by omega), readAt_of_le hlen]
  dsimp only
  rw [hh, hc]
  dsimp only
  rw [if_pos hn]
  split <;> rfl

theorem packetLoop_heartbeat (hlen : off + kPacketHeaderSize ≤ buf.length)
    (hh : loadPacketHeader (bytesAt buf off kPacketHeaderSize) = hdr)
    (hc : checkContinuity c hdr off = .ok c') (hn : hdr.count = kHeartbeatCount) :
    packetLoop sink buf off c s
      = if hdr.sequence ≠ c'.expectedSeq then (.fail (discontinuity c'.expectedSeq hdr off), s)
        else packetLoop sink buf (off + kPacketHeaderSize) c' s := by
  have hpos : 0 < kPacketHeaderSize := by decide
  have hne : hdr.count ≠ kEndSessionCount := by
    rw [hn]
    decide
  rw [packetLoop, if_pos (by omega), if_neg (by omega), readAt_of_le hlen]
  dsimp only
  rw [hh, hc]
  dsimp only
  rw [if_neg hne, if_pos hn]

theorem packetLoop_data {off' seq' : Nat} (hlen : off + kPacketHeaderSize ≤ buf.length)
    (hh : loadPacketHeader (bytesAt buf off kPacketHeaderSize) = hdr)
    (hc : checkContinuity c hdr off = .ok c') (he : hdr.count ≠ kEndSessionCount)
    (hb : hdr.count ≠ kHeartbeatCount)
    (hloop : messageLoop sink buf hdr.count (off + kPacketHeaderSize) c'.expectedSeq s
      = (.done (off', seq'), s')) :
    packetLoop sink buf off c s
      = packetLoop sink buf off' { c' with expectedSeq := seq' } s' := by
  have hpos : 0 < kPacketHeaderSize := by decide
  rw [packetLoop, if_pos (by omega), if_neg (by omega), readAt_of_le hlen]
  dsimp only
  rw [hh, hc]
  dsimp only
  rw [if_neg he, if_neg hb]
  split
  · next h => rw [hloop] at h; cases h; rfl
  · next h => rw [hloop] at h; cases h
  · next h => rw [hloop] at h; cases h

theorem packetLoop_cut {e : ErrorInfo} (hlen : off + kPacketHeaderSize ≤ buf.length)
    (hh : loadPacketHeader (bytesAt buf off kPacketHeaderSize) = hdr)
    (hc : checkContinuity c hdr off = .ok c') (he : hdr.count ≠ kEndSessionCount)
    (hb : hdr.count ≠ kHeartbeatCount)
    (hloop : messageLoop sink buf hdr.count (off + kPacketHeaderSize) c'.expectedSeq s
      = (.fail e, s')) :
    packetLoop sink buf off c s = (.fail e, s') := by
  have hpos : 0 < kPacketHeaderSize := by decide
  rw [packetLoop, if_pos (by omega), if_neg (by omega), readAt_of_le hlen]
  dsimp only
  rw [hh, hc]
  dsimp only
  rw [if_neg he, if_neg hb]
  split
  · next h => rw [hloop] at h; cases h
  · next h => rw [hloop] at h; cases h; rfl
  · next h => rw [hloop] at h; cases h

end

/-! ## Chains of packets -/

/-- The session and the sequence number that the packets before announce, if there are any. -/
def Continuity.next (c : Continuity) : Option (List UInt8 × Nat) :=
  if c.established then some (c.establishedSession, c.expectedSeq) else none

/-- A sequence number that goes on where the packets before stopped. Another session starts
afresh. -/
def Continues : Option (List UInt8 × Nat) → List UInt8 → Nat → Prop
  | none, _, _ => True
  | some (established, expected), session, sequence =>
      session = established → sequence = expected

/-- A packet goes on where the packets before it stopped; an end of session is not asked. -/
def Follows (e : Option (List UInt8 × Nat)) (p : Packet) : Prop :=
  p.body = .endSession ∨ Continues e p.session p.sequence

/-- What is expected after a packet. -/
def Packet.after (p : Packet) : Continuity :=
  { expectedSeq := (p.sequence + p.body.messages.length) % 2 ^ 64
    established := true
    establishedSession := p.session }

/-- Packets that go on from one another, with an end of session only at the end. -/
def Chained : Option (List UInt8 × Nat) → List Packet → Prop
  | _, [] => True
  | e, p :: ps => Follows e p ∧ (p.body = .endSession → ps = []) ∧ Chained p.after.next ps

/-- The header of a packet, as the framer sees it. -/
def Packet.view (p : Packet) : PacketView :=
  { session := p.session, sequence := p.sequence, count := p.body.count }

section

variable {c : Continuity} {hdr : PacketView} {off : Nat}

/-- A header in the running session with another sequence number is the one that does not
continue. -/
theorem continues_iff :
    Continues c.next hdr.session hdr.sequence ↔
      (c.established = true → hdr.session = c.establishedSession →
        hdr.sequence = c.expectedSeq) := by
  unfold Continuity.next
  by_cases he : c.established = true
  · rw [if_pos he]
    exact ⟨fun h _ => h, fun h => h he⟩
  · rw [if_neg he]
    exact ⟨fun _ h => absurd h he, fun _ => trivial⟩

/-- The state after a header that continues. -/
def PacketView.continued (hdr : PacketView) : Continuity :=
  { expectedSeq := hdr.sequence, established := true, establishedSession := hdr.session }

/-- A header that continues passes the check, and the expectation is its own number. -/
theorem checkContinuity_continues (hne : hdr.count ≠ kEndSessionCount)
    (h : Continues c.next hdr.session hdr.sequence) :
    checkContinuity c hdr off = .ok hdr.continued := by
  rw [continues_iff] at h
  unfold checkContinuity
  by_cases he : c.established = false
  · rw [if_pos he]
    rfl
  rw [Bool.not_eq_false] at he
  rw [if_neg (by rw [he]; decide), if_pos hne]
  by_cases hs : hdr.session = c.establishedSession
  · have hseq := h he hs
    rw [if_neg (not_not.mpr hs), if_neg (fun hh => hh.1 hseq)]
    unfold PacketView.continued
    rw [hseq, hs, ← he]
  · rw [if_pos hs]
    rcases c with ⟨_, established, _⟩
    dsimp only at he
    rw [he]
    rfl

/-- A header that does not continue is in the running session. -/
theorem not_continues (h : ¬ Continues c.next hdr.session hdr.sequence) :
    c.established = true ∧ hdr.session = c.establishedSession ∧ hdr.sequence ≠ c.expectedSeq := by
  rw [continues_iff] at h
  push Not at h
  exact h

/-- A data header that does not continue fails the check. -/
theorem checkContinuity_data (he : hdr.count ≠ kEndSessionCount) (hb : hdr.count ≠ kHeartbeatCount)
    (h : ¬ Continues c.next hdr.session hdr.sequence) :
    checkContinuity c hdr off = .error (discontinuity c.expectedSeq hdr off) := by
  rcases not_continues h with ⟨hest, hs, hseq⟩
  rw [checkContinuity, if_neg (by rw [hest]; decide), if_pos he, if_neg (not_not.mpr hs),
    if_pos ⟨hseq, hb⟩]

/-- A heartbeat that does not continue passes the check, and fails behind it. -/
theorem checkContinuity_heartbeat (hb : hdr.count = kHeartbeatCount)
    (h : ¬ Continues c.next hdr.session hdr.sequence) : checkContinuity c hdr off = .ok c := by
  rcases not_continues h with ⟨hest, hs, -⟩
  rw [checkContinuity, if_neg (by rw [hest]; decide), if_pos (by rw [hb]; decide),
    if_neg (not_not.mpr hs), if_neg (fun hh => hh.2 hb)]

/-- An end of session passes the check. -/
theorem checkContinuity_end (he : hdr.count = kEndSessionCount) :
    ∃ c', checkContinuity c hdr off = .ok c' := by
  unfold checkContinuity
  by_cases hest : c.established = false
  · exact ⟨_, by rw [if_pos hest]⟩
  · exact ⟨_, by rw [if_neg hest, if_neg (not_not.mpr he)]⟩

end

theorem Packet.Good.count_lt {p : Packet} (h : p.Good) : p.body.count < 2 ^ 16 := by
  have hb := h.body
  rcases p with ⟨session, sequence, body⟩
  cases body with
  | data ms => exact Nat.lt_trans hb.2.1 (by decide)
  | heartbeat => exact (by decide : kHeartbeatCount < 2 ^ 16)
  | endSession => exact (by decide : kEndSessionCount < 2 ^ 16)

section

variable {σ : Type} {sink : σ → Nat × List UInt8 × Nat → σ} {buf rest : List UInt8} {off : Nat}
  {c : Continuity} {s : σ} {p : Packet}

/-- The header of a packet that stands at `off`. -/
theorem header_at (h : p.Good) (hb : buf.drop off = p.encode ++ rest) :
    off + kPacketHeaderSize ≤ buf.length ∧
      loadPacketHeader (bytesAt buf off kPacketHeaderSize) = p.view := by
  have hhead := encodeHeader_length p.sequence p.body.count h.session
  have hlen := congrArg List.length hb
  rw [List.length_append, List.length_drop, Packet.encode_length h] at hlen
  have hpos : 0 < kPacketHeaderSize := by decide
  refine ⟨by omega, ?_⟩
  rw [bytesAt, hb, Packet.encode, List.append_assoc, List.take_left' hhead]
  exact loadPacketHeader_encode h.session h.sequence h.count_lt

/-- What stands behind the header of a packet. -/
theorem body_at (h : p.Good) (hb : buf.drop off = p.encode ++ rest) :
    buf.drop (off + kPacketHeaderSize) = encodeBlocks p.body.messages ++ rest := by
  have hhead := encodeHeader_length p.sequence p.body.count h.session
  rw [← List.drop_drop, hb, Packet.encode, List.append_assoc, List.drop_left' hhead]

/-- **A packet that follows is taken whole**, with a call for each of its messages. -/
theorem packetLoop_follows (h : p.Good) (hb : buf.drop off = p.encode ++ rest)
    (hne : p.body ≠ .endSession) (hf : Follows c.next p) :
    packetLoop sink buf off c s
      = packetLoop sink buf (off + p.encode.length) p.after ((packetCalls off [p]).foldl sink s) := by
  rcases header_at h hb with ⟨hlen, hh⟩
  have hbody := body_at h hb
  have hcont : Continues c.next p.session p.sequence := by
    rcases hf with he | hcont
    · exact absurd he hne
    · exact hcont
  have hc : p.view.count ≠ kEndSessionCount →
      checkContinuity c p.view off = .ok p.view.continued :=
    fun he => checkContinuity_continues he hcont
  have hgood := h.body
  have hsize := Packet.encode_length h
  have hseq := h.sequence
  rcases p with ⟨session, sequence, body⟩
  cases body with
  | data ms =>
      rcases hgood with ⟨hpos, hlt, hms⟩
      have he : ms.length ≠ kEndSessionCount := Nat.pos_iff_ne_zero.mp hpos
      have hk : ms.length ≠ kHeartbeatCount := Nat.ne_of_lt hlt
      have hrun : messageLoop sink buf (ms.length + 0) (off + kPacketHeaderSize) sequence s = _ :=
        messageLoop_blocks hms hseq hbody
      rw [packetLoop_data hlen hh (hc he) he hk hrun, hsize, packetCalls, packetCalls, List.append_nil,
        ← Nat.add_assoc]
      rfl
  | heartbeat =>
      have hafter : Packet.after { session, sequence, body := .heartbeat }
          = PacketView.continued { session, sequence, count := kHeartbeatCount } := by
        unfold Packet.after PacketView.continued
        rw [Body.messages, List.length_nil, Nat.add_zero, Nat.mod_eq_of_lt hseq]
      have hne' : kHeartbeatCount ≠ kEndSessionCount := by decide
      rw [packetLoop_heartbeat hlen hh (hc hne') rfl, hsize, hafter]
      exact if_neg (not_not.mpr rfl)
  | endSession => exact absurd rfl hne

/-- **A packet that does not follow is refused**, without a call. -/
theorem packetLoop_gap (h : p.Good) (hb : buf.drop off = p.encode ++ rest)
    (hf : ¬ Follows c.next p) :
    packetLoop sink buf off c s = (.fail (discontinuity c.expectedSeq p.view off), s) := by
  rcases header_at h hb with ⟨hlen, hh⟩
  have hne : p.body ≠ .endSession := fun he => hf (.inl he)
  have hcont : ¬ Continues c.next p.view.session p.view.sequence := fun hc => hf (.inr hc)
  have hgood := h.body
  rcases p with ⟨session, sequence, body⟩
  cases body with
  | data ms =>
      rcases hgood with ⟨hpos, hlt, -⟩
      exact packetLoop_refused hlen hh
        (checkContinuity_data (Nat.pos_iff_ne_zero.mp hpos) (Nat.ne_of_lt hlt) hcont)
  | heartbeat =>
      rw [packetLoop_heartbeat hlen hh (checkContinuity_heartbeat rfl hcont) rfl]
      exact if_pos (not_continues hcont).2.2
  | endSession => exact absurd rfl hne

/-- An end of session ends the run, and must end the buffer. -/
theorem packetLoop_endSession (h : p.Good) (hb : buf.drop off = p.encode ++ rest)
    (he : p.body = .endSession) :
    packetLoop sink buf off c s
      = (if rest ≠ [] then .fail (fault .trailingBytes (off + kPacketHeaderSize))
        else .done (off + p.encode.length), s) := by
  rcases header_at h hb with ⟨hlen, hh⟩
  have hcount : p.view.count = kEndSessionCount := by
    rw [Packet.view, he]
    rfl
  have hok : ∃ c', checkContinuity c p.view off = .ok c' := checkContinuity_end hcount
  rcases hok with ⟨c', hc⟩
  have hsize := Packet.encode_length h
  rw [he] at hsize
  have hblen := congrArg List.length hb
  rw [List.length_append, List.length_drop, hsize] at hblen
  have hmsgs : (encodeBlocks Body.endSession.messages).length = 0 := rfl
  rw [packetLoop_end hlen hh hc hcount, hsize, hmsgs, Nat.add_zero]
  by_cases hr : rest = []
  · rw [hr, List.length_nil] at hblen
    rw [if_neg (by omega), if_neg (not_not.mpr hr)]
  · have hpos := List.length_pos_of_ne_nil hr
    rw [if_pos (by omega), if_pos hr]

end

/-! ## Runs -/

/-- What is expected after a list of packets. -/
def afterPackets (c : Continuity) : List Packet → Continuity
  | [] => c
  | p :: ps => afterPackets p.after ps

theorem Packet.after_next (p : Packet) :
    p.after.next = some (p.session, (p.sequence + p.body.messages.length) % 2 ^ 64) := rfl

section

variable {σ : Type} {sink : σ → Nat × List UInt8 × Nat → σ} {buf : List UInt8}

theorem packetCalls_cons (off : Nat) (p : Packet) (ps : List Packet) :
    packetCalls off (p :: ps) = packetCalls off [p] ++ packetCalls (off + p.encode.length) ps :=
  (packetCalls_append [p] ps off).trans (by rw [encodePackets_cons, encodePackets_nil,
    List.append_nil])

/-- **The packets of a chain are taken one after the other.** -/
theorem packetLoop_packets {ps : List Packet} (hgood : ∀ p ∈ ps, p.Good)
    (hopen : ∀ p ∈ ps, p.body ≠ .endSession) :
    ∀ {off : Nat} {c : Continuity} {s : σ} {rest : List UInt8}, Chained c.next ps →
      buf.drop off = encodePackets ps ++ rest →
      packetLoop sink buf off c s
        = packetLoop sink buf (off + (encodePackets ps).length) (afterPackets c ps)
            ((packetCalls off ps).foldl sink s) := by
  induction ps with
  | nil => intro off c s rest _ _; rfl
  | cons p ps ih =>
      intro off c s rest hc hb
      rcases List.forall_mem_cons.mp hgood with ⟨hp, hps⟩
      rcases List.forall_mem_cons.mp hopen with ⟨hpo, hpso⟩
      rcases hc with ⟨hf, -, hc⟩
      rw [encodePackets_cons, List.append_assoc] at hb
      have hdrop : buf.drop (off + p.encode.length) = encodePackets ps ++ rest := by
        rw [← List.drop_drop, hb, List.drop_left]
      rw [packetLoop_follows hp hb hpo hf, ih hps hpso hc hdrop, packetCalls_cons off p ps,
        List.foldl_append, encodePackets_cons, List.length_append, ← Nat.add_assoc]
      rfl

/-- A chain is open up to its end, where an end of session may stand. -/
theorem Chained.split {ps : List Packet} : ∀ {e : Option (List UInt8 × Nat)}, Chained e ps →
    (∀ p ∈ ps, p.body ≠ .endSession) ∨
      ∃ qs q, ps = qs ++ [q] ∧ q.body = .endSession ∧ Chained e qs ∧
        ∀ p ∈ qs, p.body ≠ .endSession := by
  induction ps with
  | nil => intro e _; exact .inl fun p hp => absurd hp (by simp)
  | cons p ps ih =>
      intro e hc
      rcases hc with ⟨hf, hlast, hc⟩
      by_cases he : p.body = .endSession
      · refine .inr ⟨[], p, ?_, he, trivial, fun q hq => absurd hq (by simp)⟩
        rw [hlast he, List.nil_append]
      · rcases ih hc with hopen | ⟨qs, q, rfl, hq, hqs, hopen⟩
        · exact .inl (List.forall_mem_cons.mpr ⟨he, hopen⟩)
        · exact .inr ⟨p :: qs, q, rfl, hq, ⟨hf, fun hp => absurd hp he, hqs⟩,
            List.forall_mem_cons.mpr ⟨he, hopen⟩⟩

/-- **A chain of packets is accepted**, with one call for each message. -/
theorem parse_chained {ps : List Packet} (hgood : ∀ p ∈ ps, p.Good) (hc : Chained none ps)
    (s : σ) :
    parseMoldudp64 (encodePackets ps) sink s
      = (.done (encodePackets ps).length, (packetCalls 0 ps).foldl sink s) := by
  unfold parseMoldudp64
  rcases hc.split with hopen | ⟨qs, q, rfl, hq, hqs, hopen⟩
  · rw [packetLoop_packets (c := .start) hgood hopen hc (List.append_nil _).symm, Nat.zero_add,
      packetLoop, if_neg (Nat.lt_irrefl _)]
  · have hqg : q.Good := hgood q (List.mem_append_right _ (List.mem_singleton.mpr rfl))
    have hqsg : ∀ p ∈ qs, p.Good := fun p hp => hgood p (List.mem_append_left _ hp)
    have hbytes : (encodePackets (qs ++ [q])).drop 0 = encodePackets qs ++ (q.encode ++ []) := by
      rw [List.drop_zero, encodePackets_append, encodePackets_cons, encodePackets_nil]
    have hdrop : (encodePackets (qs ++ [q])).drop (encodePackets qs).length = q.encode ++ [] := by
      rw [← List.drop_zero (l := encodePackets (qs ++ [q])), hbytes, List.drop_left]
    have hno : packetCalls (encodePackets qs).length [q] = [] := by
      rw [packetCalls, hq]
      rfl
    rw [packetLoop_packets (c := .start) hqsg hopen hqs hbytes, Nat.zero_add,
      packetLoop_endSession hqg hdrop hq, if_neg (not_not.mpr rfl), packetCalls_append,
      Nat.zero_add, hno, List.append_nil, encodePackets_append, encodePackets_cons,
      encodePackets_nil, List.append_nil, List.length_append]

/-- A packet cut short: its header and fewer whole blocks than it announces. -/
def CutShort (tail : List UInt8) (cut : List Packet) : Prop :=
  cut = [] ∨ ∃ session sequence ms count rest,
    cut = [{ session, sequence, body := .data ms }] ∧ session.length = kSessionSize ∧
    sequence < 2 ^ 64 ∧ (∀ m ∈ ms, GoodMessage m) ∧ ms.length < count ∧ count < kHeartbeatCount ∧
    tail = encodeHeader session sequence count ++ encodeBlocks ms ++ rest

/-- What a run over `b` from position `off` on did: it took the packets `ps` and then the blocks
of `cut`. -/
structure Framed (sink : σ → Nat × List UInt8 × Nat → σ) (off : Nat)
    (e : Option (List UInt8 × Nat)) (b : List UInt8) (s : σ) (run : Outcome Nat × σ)
    (ps cut : List Packet) (tail : List UInt8) : Prop where
  good : ∀ p ∈ ps, p.Good
  bytes : b = encodePackets ps ++ tail
  cutShort : CutShort tail cut
  chained : Chained e (ps ++ cut)
  calls : run.2 = (packetCalls off (ps ++ cut)).foldl sink s
  outcome : (run.1 = .done (off + b.length) ∧ tail = [] ∧ cut = []) ∨
    (tail ≠ [] ∧ ∃ err, run.1 = .fail err)

/-- A run that fails at once. -/
theorem Framed.refused {off : Nat} {e : Option (List UInt8 × Nat)} {b : List UInt8} {s : σ}
    {err : ErrorInfo} (hb : b ≠ []) :
    Framed sink off e b s (.fail err, s) [] [] b :=
  { good := fun p hp => absurd hp (by simp)
    bytes := rfl
    cutShort := .inl rfl
    chained := trivial
    calls := rfl
    outcome := .inr ⟨hb, err, rfl⟩ }

/-- Where no whole packet stands, a run ends. -/
theorem packetLoop_stuck {off : Nat} {c : Continuity} {s : σ} (hoff : off ≤ buf.length)
    (hno : ∀ (p : Packet) (rest : List UInt8), p.Good → buf.drop off ≠ p.encode ++ rest) :
    ∃ cut tail, Framed sink off c.next (buf.drop off) s (packetLoop sink buf off c s) [] cut
      tail := by
  have hblen : (buf.drop off).length = buf.length - off := List.length_drop
  by_cases hend : off < buf.length
  · have hne : buf.drop off ≠ [] := by
      intro h
      rw [h, List.length_nil] at hblen
      omega
    by_cases hshort : buf.length - off < kPacketHeaderSize
    · refine ⟨[], buf.drop off, ?_⟩
      rw [packetLoop, if_pos hend, if_pos hshort]
      exact Framed.refused hne
    have hlen : off + kPacketHeaderSize ≤ buf.length := by omega
    have hhead : (bytesAt buf off kPacketHeaderSize).length = kPacketHeaderSize :=
      bytesAt_length hlen
    obtain ⟨hdr, hh⟩ : ∃ hdr, loadPacketHeader (bytesAt buf off kPacketHeaderSize) = hdr := ⟨_, rfl⟩
    have hwire := encodeHeader_loadPacketHeader hhead
    rcases loadPacketHeader_good hhead with ⟨hsg, hqg, hng⟩
    rw [hh] at hwire hsg hqg hng
    have hsplit : buf.drop off
        = encodeHeader hdr.session hdr.sequence hdr.count ++ buf.drop (off + kPacketHeaderSize) := by
      rw [hwire, bytesAt, ← List.drop_drop, List.take_append_drop]
    -- a heartbeat and an end of session are whole packets
    have hnotend : hdr.count ≠ kEndSessionCount := by
      intro hn
      refine hno { session := hdr.session, sequence := hdr.sequence, body := .endSession }
        (buf.drop (off + kPacketHeaderSize)) ⟨hsg, hqg, trivial⟩ ?_
      rw [hsplit, Packet.encode, hn]
      exact congrArg (· ++ _) (List.append_nil _).symm
    have hnotbeat : hdr.count ≠ kHeartbeatCount := by
      intro hn
      refine hno { session := hdr.session, sequence := hdr.sequence, body := .heartbeat }
        (buf.drop (off + kPacketHeaderSize)) ⟨hsg, hqg, trivial⟩ ?_
      rw [hsplit, Packet.encode, hn]
      exact congrArg (· ++ _) (List.append_nil _).symm
    have hpos : 0 < hdr.count := Nat.pos_of_ne_zero hnotend
    have hbeat : hdr.count < kHeartbeatCount := by
      have hk : kHeartbeatCount = 65535 := rfl
      omega
    by_cases hcont : Continues c.next hdr.session hdr.sequence
    · have hc : checkContinuity c hdr off = .ok hdr.continued :=
        checkContinuity_continues hnotend hcont
      rcases @messageLoop_run σ sink buf hdr.count (off + kPacketHeaderSize) hdr.sequence s hqg with
        ⟨ms, rest, hms, hblocks, ⟨hn, -⟩ | ⟨hn, e, hloop⟩⟩
      · -- every block is there, so that a whole packet stands here
        refine absurd ?_ (hno { session := hdr.session, sequence := hdr.sequence, body := .data ms }
          rest ⟨hsg, hqg, by omega, by omega, hms⟩)
        rw [hsplit, hblocks, Packet.encode, ← List.append_assoc, ← hn]
        rfl
      · refine ⟨[{ session := hdr.session, sequence := hdr.sequence, body := .data ms }],
          buf.drop off, ?_⟩
        rw [packetLoop_cut hlen hh hc hnotend hnotbeat hloop]
        exact
          { good := fun p hp => absurd hp (by simp)
            bytes := rfl
            cutShort := .inr ⟨_, _, _, hdr.count, rest, rfl, hsg, hqg, hms, hn, by omega,
              by rw [hsplit, hblocks, List.append_assoc]⟩
            chained := ⟨.inr hcont, fun h => absurd h (by simp), trivial⟩
            calls := by
              rw [List.nil_append, packetCalls, packetCalls, List.append_nil]
              rfl
            outcome := .inr ⟨hne, e, rfl⟩ }
    · refine ⟨[], buf.drop off, ?_⟩
      rw [packetLoop_refused hlen hh (checkContinuity_data hnotend hnotbeat hcont)]
      exact Framed.refused hne
  · refine ⟨[], [], ?_⟩
    have hnil : buf.drop off = [] := List.drop_of_length_le (by omega)
    rw [packetLoop, if_neg hend, hnil]
    exact
      { good := fun p hp => absurd hp (by simp)
        bytes := rfl
        cutShort := .inl rfl
        chained := trivial
        calls := rfl
        outcome := .inl ⟨rfl, rfl, rfl⟩ }

/-- A run behind a packet that follows. -/
theorem Framed.cons {off : Nat} {e : Option (List UInt8 × Nat)} {p : Packet} {rest : List UInt8}
    {s : σ} {run : Outcome Nat × σ} {ps cut : List Packet} {tail : List UInt8} (hp : p.Good)
    (hne : p.body ≠ .endSession) (hf : Follows e p)
    (h : Framed sink (off + p.encode.length) p.after.next rest ((packetCalls off [p]).foldl sink s)
      run ps cut tail) :
    Framed sink off e (p.encode ++ rest) s run (p :: ps) cut tail :=
  { good := List.forall_mem_cons.mpr ⟨hp, h.good⟩
    bytes := by rw [h.bytes, encodePackets_cons, List.append_assoc]
    cutShort := h.cutShort
    chained := ⟨hf, fun he => absurd he hne, h.chained⟩
    calls := by rw [h.calls, List.cons_append, packetCalls_cons off p (ps ++ cut), List.foldl_append]
    outcome := by
      rcases h.outcome with ⟨hr, ht, hcut⟩ | hfail
      · exact .inl ⟨by rw [hr, List.length_append, Nat.add_assoc], ht, hcut⟩
      · exact .inr hfail }

/-- **Every run is framed**: by induction on what is left of the buffer. -/
theorem packetLoop_run {off : Nat} {c : Continuity} {s : σ} (hoff : off ≤ buf.length) :
    ∃ ps cut tail, Framed sink off c.next (buf.drop off) s (packetLoop sink buf off c s) ps cut
      tail := by
  induction hn : buf.length - off using Nat.strongRecOn generalizing off c s with
  | ind n ih =>
      by_cases hpkt : ∃ (p : Packet) (rest : List UInt8), p.Good ∧ buf.drop off = p.encode ++ rest
      · rcases hpkt with ⟨p, rest, hp, hb⟩
        have hsize := Packet.encode_length hp
        have hpos : 0 < kPacketHeaderSize := by decide
        have hlen := congrArg List.length hb
        rw [List.length_append, List.length_drop] at hlen
        by_cases he : p.body = .endSession
        · refine ⟨[p], [], rest, ?_⟩
          have hno : packetCalls off [p] = [] := by
            rw [packetCalls, he]
            rfl
          rw [packetLoop_endSession hp hb he, hb]
          exact
            { good := List.forall_mem_singleton.mpr hp
              bytes := by rw [encodePackets_cons, encodePackets_nil, List.append_nil]
              cutShort := .inl rfl
              chained := ⟨.inl he, fun _ => rfl, trivial⟩
              calls := by rw [List.append_nil, hno]; rfl
              outcome := by
                by_cases hr : rest = []
                · rw [if_neg (not_not.mpr hr), hr, List.append_nil]
                  exact .inl ⟨rfl, rfl, rfl⟩
                · rw [if_pos hr]
                  exact .inr ⟨hr, _, rfl⟩ }
        by_cases hf : Follows c.next p
        · have hrest : buf.drop (off + p.encode.length) = rest := by
            rw [← List.drop_drop, hb, List.drop_left]
          rcases @ih (buf.length - (off + p.encode.length)) (by omega) (off + p.encode.length) p.after
            ((packetCalls off [p]).foldl sink s) (by omega) rfl with ⟨ps, cut, tail, h⟩
          rw [hrest] at h
          refine ⟨p :: ps, cut, tail, ?_⟩
          rw [packetLoop_follows hp hb he hf, hb]
          exact h.cons hp he hf
        · refine ⟨[], [], buf.drop off, ?_⟩
          rw [packetLoop_gap hp hb hf]
          refine Framed.refused ?_
          intro hnil
          rw [hnil] at hb
          have hz := congrArg List.length hb
          rw [List.length_nil, List.length_append] at hz
          omega
      · have hno : ∀ (p : Packet) (rest : List UInt8), p.Good → buf.drop off ≠ p.encode ++ rest :=
          fun p rest hp hb => hpkt ⟨p, rest, hp, hb⟩
        rcases @packetLoop_stuck σ sink buf off c s hoff hno with ⟨cut, tail, h⟩
        exact ⟨[], cut, tail, h⟩

end

/-! ## One session -/

/-- The packets of one session from the sequence number `next` on: data packets numbered one
after the other below overflow, heartbeats with the next number, and at most an end of session at
the end. -/
def SingleSession (session : List UInt8) : Nat → List Packet → Prop
  | _, [] => True
  | next, p :: ps => p.Good ∧ p.session = session ∧ (p.body = .endSession → ps = []) ∧
      (p.body ≠ .endSession → p.sequence = next) ∧ next + p.body.messages.length ≤ 2 ^ 64 ∧
      SingleSession session (next + p.body.messages.length) ps

/-- The messages of a packet list. -/
def messagesOf (ps : List Packet) : List (List UInt8) := ps.flatMap fun p => p.body.messages

theorem SingleSession.good {session : List UInt8} {ps : List Packet} :
    ∀ {next : Nat}, SingleSession session next ps → ∀ p ∈ ps, p.Good := by
  induction ps with
  | nil => intro next _ p hp; exact absurd hp (by simp)
  | cons p ps ih =>
      intro next h
      rcases h with ⟨hp, -, -, -, -, h⟩
      exact List.forall_mem_cons.mpr ⟨hp, ih h⟩

/-- The packets of one session are a chain. -/
theorem SingleSession.chained {session : List UInt8} {ps : List Packet} :
    ∀ {next : Nat} {e : Option (List UInt8 × Nat)}, SingleSession session next ps →
      (e = none ∨ e = some (session, next % 2 ^ 64)) → Chained e ps := by
  induction ps with
  | nil => intro next e _ _; trivial
  | cons p ps ih =>
      intro next e h he
      rcases h with ⟨hp, hs, hlast, hseq, hle, h⟩
      have hfollows : Follows e p := by
        by_cases hend : p.body = .endSession
        · exact .inl hend
        · have hlt := hp.sequence
          rcases he with rfl | rfl
          · exact .inr trivial
          · refine .inr fun _ => ?_
            rw [← hseq hend, Nat.mod_eq_of_lt hlt]
      refine ⟨hfollows, hlast, ?_⟩
      by_cases hend : p.body = .endSession
      · rw [hlast hend]
        trivial
      · exact ih h (.inr (by rw [Packet.after_next, hs, hseq hend]))

/-- The calls for the blocks of one packet are numbered one after the other. -/
theorem blockCalls_numbered {ms : List (List UInt8)} : ∀ {off seq : Nat},
    seq + ms.length ≤ 2 ^ 64 →
    (blockCalls off seq ms).map Prod.snd = ms.zip (List.range' seq ms.length) := by
  induction ms with
  | nil => intro off seq _; rfl
  | cons m ms ih =>
      intro off seq hle
      rw [List.length_cons] at hle
      rw [blockCalls, List.map_cons, List.length_cons, List.range'_succ, List.zip_cons_cons]
      cases ms with
      | nil => rfl
      | cons m' ms' =>
          rw [List.length_cons] at hle
          rw [Nat.mod_eq_of_lt (by omega), ih (by rw [List.length_cons]; omega)]

/-- **The calls of a session are its messages, numbered one after the other.** -/
theorem packetCalls_numbered {session : List UInt8} {ps : List Packet} :
    ∀ {off next : Nat}, SingleSession session next ps →
      (packetCalls off ps).map Prod.snd
        = (messagesOf ps).zip (List.range' next (messagesOf ps).length) := by
  induction ps with
  | nil => intro off next _; rfl
  | cons p ps ih =>
      intro off next h
      rcases h with ⟨-, -, -, hseq, hle, h⟩
      have hmsgs : messagesOf (p :: ps) = p.body.messages ++ messagesOf ps := rfl
      have hblock : (blockCalls (off + kPacketHeaderSize) p.sequence p.body.messages).map Prod.snd
          = p.body.messages.zip (List.range' next p.body.messages.length) := by
        by_cases hend : p.body = .endSession
        · rw [hend]
          rfl
        · rw [hseq hend, blockCalls_numbered hle]
      have hrange : List.range' next (messagesOf (p :: ps)).length
          = List.range' next p.body.messages.length
            ++ List.range' (next + p.body.messages.length) (messagesOf ps).length := by
        rw [hmsgs, List.length_append, List.range'_append_1]
      rw [packetCalls, List.map_append, hblock, ih h, hrange, hmsgs, List.zip_append]
      rw [List.length_range']

/-- The payloads of the calls are the messages. -/
theorem blockCalls_payloads {ms : List (List UInt8)} : ∀ {off seq : Nat},
    (blockCalls off seq ms).map (fun q => q.2.1) = ms := by
  induction ms with
  | nil => intro off seq; rfl
  | cons m ms ih => intro off seq; rw [blockCalls, List.map_cons, ih]

theorem packetCalls_payloads {ps : List Packet} : ∀ {off : Nat},
    (packetCalls off ps).map (fun q => q.2.1) = messagesOf ps := by
  induction ps with
  | nil => intro off; rfl
  | cons p ps ih =>
      intro off
      rw [packetCalls, List.map_append, blockCalls_payloads, ih]
      rfl

/-- A call names the place its message was read from. -/
theorem blockCalls_bytes {buf : List UInt8} {ms : List (List UInt8)} :
    ∀ {off seq : Nat} {rest : List UInt8}, buf.drop off = encodeBlocks ms ++ rest →
      ∀ q ∈ blockCalls off seq ms, bytesAt buf q.1 q.2.1.length = q.2.1 := by
  induction ms with
  | nil => intro off seq rest _ q hq; exact absurd hq (by simp [blockCalls])
  | cons m ms ih =>
      intro off seq rest hb q hq
      rw [encodeBlocks_cons, List.append_assoc] at hb
      rcases List.mem_cons.mp hq with rfl | hq
      · dsimp only
        rw [bytesAt, ← List.drop_drop, hb, encodeBlock, List.append_assoc,
          List.drop_left' (storeBe_length 2 _), List.take_left]
      · refine @ih _ _ rest ?_ q hq
        rw [Nat.add_assoc, ← encodeBlock_length, ← List.drop_drop, hb, List.drop_left]

theorem packetCalls_bytes {buf : List UInt8} {ps : List Packet} (hgood : ∀ p ∈ ps, p.Good) :
    ∀ {off : Nat} {rest : List UInt8}, buf.drop off = encodePackets ps ++ rest →
      ∀ q ∈ packetCalls off ps, bytesAt buf q.1 q.2.1.length = q.2.1 := by
  induction ps with
  | nil => intro off rest _ q hq; exact absurd hq (by simp [packetCalls])
  | cons p ps ih =>
      intro off rest hb q hq
      rcases List.forall_mem_cons.mp hgood with ⟨hp, hps⟩
      rw [encodePackets_cons, List.append_assoc] at hb
      rcases List.mem_append.mp hq with hq | hq
      · exact blockCalls_bytes (body_at hp hb) q hq
      · refine @ih hps _ rest ?_ q hq
        rw [← List.drop_drop, hb, List.drop_left]

/-- **The framing is exact.** The packets of one session are accepted whole, with a call for each
message in order, at its place and with its number; and whatever the bytes are, a run stays in
the buffer, its calls are those of a chain of packets at the front, the last maybe cut short, and
it succeeds only when the whole buffer is such a chain. -/
theorem moldudp64_framing {σ : Type} (sink : σ → Nat × List UInt8 × Nat → σ) (s : σ) :
    (∀ (session : List UInt8) (start : Nat) (ps : List Packet), ps ≠ [] →
      SingleSession session start ps →
      ∃ calls : List (Nat × List UInt8 × Nat),
        parseMoldudp64 (encodePackets ps) sink s
          = (.done (encodePackets ps).length, calls.foldl sink s) ∧
        calls.map Prod.snd = (messagesOf ps).zip (List.range' start (messagesOf ps).length) ∧
        ∀ q ∈ calls, bytesAt (encodePackets ps) q.1 q.2.1.length = q.2.1) ∧
    (∀ buf : List UInt8, ∃ ps cut tail,
      Framed sink 0 none buf s (parseMoldudp64 buf sink s) ps cut tail) := by
  constructor
  · intro session start ps _ h
    have hgood := h.good
    exact ⟨packetCalls 0 ps, parse_chained hgood (h.chained (.inl rfl)) s, packetCalls_numbered h,
      packetCalls_bytes hgood (List.append_nil _).symm⟩
  · intro buf
    exact @packetLoop_run σ sink buf 0 .start s (Nat.zero_le _)

/-- A session that starts with a heartbeat, and two messages in one packet. -/
theorem moldudp64_framing_two :
    let session : List UInt8 := [77, 79, 71, 48, 48, 48, 48, 48, 48, 49]
    let ps : List Packet :=
      [{ session, sequence := 7, body := .heartbeat },
       { session, sequence := 7, body := .data [[83, 1], [69]] },
       { session, sequence := 9, body := .endSession }]
    ∃ calls : List (Nat × List UInt8 × Nat),
      parseMoldudp64 (encodePackets ps) (fun l q => l ++ [q]) []
        = (.done (encodePackets ps).length, calls.foldl (fun l q => l ++ [q]) []) ∧
      calls.map Prod.snd = (messagesOf ps).zip (List.range' 7 (messagesOf ps).length) ∧
      ∀ q ∈ calls, bytesAt (encodePackets ps) q.1 q.2.1.length = q.2.1 := by
  intro session ps
  refine (moldudp64_framing (fun (l : List (Nat × List UInt8 × Nat)) q => l ++ [q]) []).1 session 7 ps
    (by simp [ps]) ?_
  have hsession : session.length = kSessionSize := rfl
  have hmsgs : ∀ m ∈ [[83, 1], [69]], GoodMessage m := by
    unfold GoodMessage
    decide
  exact ⟨⟨hsession, by decide, trivial⟩, rfl, fun h => absurd h (by decide), fun _ => rfl,
    by decide, ⟨hsession, by decide, by decide, by decide, hmsgs⟩, rfl,
    fun h => absurd h (by decide), fun _ => rfl, by decide, ⟨hsession, by decide, trivial⟩, rfl,
    fun _ => rfl, fun h => absurd rfl h, by decide, trivial⟩

end Mold

end Mog
