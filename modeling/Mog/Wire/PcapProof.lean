import Mog.Lib.Framing
import Mog.Log.Groups
import Mog.Wire.Pcap

/-!
# What the reader makes of a capture

For any bytes: no access leaves its span, every span handed out lies in the buffer, and the
records visited are the longest beginning of the file that complete records make up. For a
file of UDP frames: exactly their payloads, ports and times, in order.

Each header carries a length that the next access relies on, and the reader checks it against
the span at hand before it goes on. The proof follows these checks: a span that is handed out is
inside the one it was taken from, and so inside the buffer. What is no complete record ends the
reading.
-/

namespace Mog

namespace Pcap

open Wire

/-! ## Spans -/

namespace Span

variable {buf : List UInt8} {sp raw : Span} {k n : Nat}

/-- `sp` lies within `raw`. -/
def Within (sp raw : Span) : Prop := raw.off ≤ sp.off ∧ sp.off + sp.len ≤ raw.off + raw.len

theorem Within.inside (h : sp.Within raw) (hraw : raw.Inside buf) : sp.Inside buf :=
  Nat.le_trans h.2 hraw

theorem read_eq (h : k + n ≤ sp.len) : sp.read buf k n = some (bytesAt buf (sp.off + k) n) := if_pos h

theorem be16_eq (h : k + 2 ≤ sp.len) : sp.be16 buf k = some (Wire.be16 buf (sp.off + k)) := by
  rw [Span.be16, read_eq h]
  rfl

theorem byte_eq (h : k + 1 ≤ sp.len) : sp.byte buf k = some (loadBe (bytesAt buf (sp.off + k) 1)) := by
  rw [byte, read_eq h]
  rfl

theorem sub_eq (h : k + n ≤ sp.len) : sp.sub k n = some ⟨sp.off + k, n⟩ := if_pos h

theorem tail_eq (h : k ≤ sp.len) : sp.tail k = some ⟨sp.off + k, sp.len - k⟩ := sub_eq (by omega)

/-- A field of the span, among the bytes it covers. -/
theorem bytesAt_eq (h : k + n ≤ sp.len) : bytesAt buf (sp.off + k) n = bytesAt (sp.bytes buf) k n := by
  unfold Span.bytes bytesAt
  rw [List.drop_take, List.take_take, List.drop_drop, Nat.min_eq_left (by omega)]

end Span

namespace PcapReader

variable {r : PcapReader} {raw : Span} {view : PacketView} {σ : Type}

/-! ## The global header -/

def magicOf (nanosec : Bool) : Nat := if nanosec then kPcapMagicNanoBE else kPcapMagicMicroBE

/-- The buffer starts with the global header of a capture. -/
def IsCapture (buf : List UInt8) : Prop :=
  24 ≤ buf.length ∧ ∃ swapped nanosec, load32 swapped (bytesAt buf 0 4) = magicOf nanosec

/-- What the reader has learnt from the magic. -/
structure MagicRead (buf : List UInt8) (r : PcapReader) : Prop where
  buf_eq : r.buf = buf
  invalid : r.valid = false → ∀ swapped nanosec, load32 swapped (bytesAt buf 0 4) ≠ magicOf nanosec
  valid : r.valid = true → load32 r.swapped (bytesAt buf 0 4) = magicOf r.nanosec

theorem parseMagic_total {buf : List UInt8} (h : 4 ≤ buf.length) :
    ∃ r, parseMagic buf = some r ∧ MagicRead buf r := by
  have hread : (⟨0, buf.length⟩ : Span).read buf 0 4 = some (bytesAt buf 0 4) :=
    if_pos (by show 0 + 4 ≤ buf.length; omega)
  unfold parseMagic
  dsimp only
  rw [hread]
  simp only [Option.map_some, Option.bind_eq_bind, Option.bind_some]
  by_cases hmicro : loadBe (bytesAt buf 0 4) = kPcapMagicMicroBE
  · rw [if_pos hmicro]
    exact ⟨_, rfl, rfl, fun h => absurd h.symm Bool.false_ne_true, fun _ => hmicro⟩
  rw [if_neg hmicro]
  by_cases hnano : loadBe (bytesAt buf 0 4) = kPcapMagicNanoBE
  · rw [if_pos hnano]
    exact ⟨_, rfl, rfl, fun h => absurd h.symm Bool.false_ne_true, fun _ => hnano⟩
  rw [if_neg hnano]
  by_cases hmicroLe : loadLe (bytesAt buf 0 4) = kPcapMagicMicroBE
  · rw [if_pos hmicroLe]
    exact ⟨_, rfl, rfl, fun h => absurd h.symm Bool.false_ne_true, fun _ => hmicroLe⟩
  rw [if_neg hmicroLe]
  by_cases hnanoLe : loadLe (bytesAt buf 0 4) = kPcapMagicNanoBE
  · rw [if_pos hnanoLe]
    exact ⟨_, rfl, rfl, fun h => absurd h.symm Bool.false_ne_true, fun _ => hnanoLe⟩
  rw [if_neg hnanoLe]
  refine ⟨_, rfl, rfl, fun _ swapped nanosec => ?_, fun h => absurd h Bool.false_ne_true⟩
  cases swapped <;> cases nanosec <;> assumption

/-- The reader of any buffer: valid just over a capture, in its byte order. -/
structure HeaderRead (buf : List UInt8) (r : PcapReader) : Prop where
  buf_eq : r.buf = buf
  valid_iff : r.valid = true ↔ IsCapture buf
  magic : r.valid = true → load32 r.swapped (bytesAt buf 0 4) = magicOf r.nanosec
  linkType : r.valid = true → r.linkType = load32 r.swapped (bytesAt buf 20 4)

theorem read32_eq {off : Nat} (h : off + 4 ≤ r.buf.length) :
    r.read32 off = some (load32 r.swapped (bytesAt r.buf off 4)) := by
  rw [read32, Span.read_eq h]
  show some (load32 r.swapped (bytesAt r.buf (0 + off) 4)) = _
  rw [Nat.zero_add]

theorem parseHeader_total (buf : List UInt8) : ∃ r, parseHeader buf = some r ∧ HeaderRead buf r := by
  unfold parseHeader
  by_cases hshort : buf.length < 24
  · rw [if_pos hshort]
    have hinvalid : ¬ (false : Bool) = true := Bool.false_ne_true
    refine ⟨_, rfl, rfl, ?_, fun h => absurd h hinvalid, fun h => absurd h hinvalid⟩
    exact iff_of_false hinvalid fun h => hshort.not_ge h.1
  rw [if_neg hshort]
  have hfour : 4 ≤ buf.length := by omega
  rcases parseMagic_total hfour with ⟨r, hr, hbuf, hinvalid, hvalid⟩
  rw [hr]
  simp only [Option.bind_eq_bind, Option.bind_some]
  by_cases hv : r.valid = true
  · rw [if_pos hv, read32_eq (by rw [hbuf]; omega), hbuf]
    refine ⟨_, rfl, rfl, ?_, fun _ => hvalid hv, fun _ => rfl⟩
    exact iff_of_true hv ⟨by omega, _, _, hvalid hv⟩
  · rw [if_neg hv]
    refine ⟨_, rfl, hbuf, ?_, fun h => absurd h hv, fun h => absurd h hv⟩
    refine iff_of_false hv fun hcap => ?_
    rcases hcap.2 with ⟨swapped, nanosec, hmagic⟩
    exact hinvalid (Bool.eq_false_iff.mpr hv) swapped nanosec hmagic

/-! ## No access leaves its span -/

/-- A view of the frame `raw` that does not look beyond it. -/
structure ViewOf (raw : Span) (tsNs : Nat) (view : PacketView) : Prop where
  frame : view.rawPacket = raw
  time : view.tsNs = tsNs
  payload : view.payload.Within raw

theorem tail_viewOf {k : Nat} {tsNs : Nat} (hraw : view.rawPacket = raw) (htime : view.tsNs = tsNs)
    (hk : k ≤ raw.len) :
    ∃ payload, raw.tail k = some payload ∧ ViewOf raw tsNs { view with payload } := by
  refine ⟨_, Span.tail_eq hk, hraw, htime, ?_, ?_⟩
  · exact Nat.le_add_right _ _
  · show raw.off + k + (raw.len - k) ≤ raw.off + raw.len
    omega

theorem extractUdp_total {tsNs l4Offset : Nat} (hraw : view.rawPacket = raw)
    (htime : view.tsNs = tsNs) (hl4 : l4Offset ≤ raw.len) :
    ∃ v, r.extractUdp raw view l4Offset = some v ∧ ViewOf raw tsNs v := by
  unfold extractUdp
  by_cases hudp : view.protocol = 17 ∧ l4Offset + 8 ≤ raw.len
  · rw [if_pos hudp, Span.be16_eq (by omega), Span.be16_eq (by omega), Span.be16_eq (by omega)]
    simp only [Option.bind_eq_bind, Option.bind_some]
    generalize Wire.be16 r.buf (raw.off + (l4Offset + 4)) = udpLen
    have hlen : l4Offset + 8
        + (if 8 ≤ udpLen ∧ l4Offset + udpLen ≤ raw.len then udpLen - 8 else raw.len - l4Offset - 8)
          ≤ raw.len := by
      split <;> omega
    generalize (if 8 ≤ udpLen ∧ l4Offset + udpLen ≤ raw.len then udpLen - 8
      else raw.len - l4Offset - 8) = payloadLen at hlen ⊢
    rw [Span.sub_eq hlen]
    refine ⟨_, rfl, hraw, htime, ?_, ?_⟩
    · show raw.off ≤ raw.off + (l4Offset + 8)
      omega
    · show raw.off + (l4Offset + 8) + payloadLen ≤ raw.off + raw.len
      omega
  · rw [if_neg hudp]
    obtain ⟨payload, htail, hview⟩ := tail_viewOf hraw htime hl4
    rw [htail]
    exact ⟨_, rfl, hview⟩

theorem extractIp_total {tsNs etherType l3Offset : Nat} (hraw : view.rawPacket = raw)
    (htime : view.tsNs = tsNs) (hl3 : l3Offset ≤ raw.len) :
    ∃ v, r.extractIp raw view etherType l3Offset = some v ∧ ViewOf raw tsNs v := by
  obtain ⟨payload, htail, hview⟩ := tail_viewOf hraw htime hl3
  unfold extractIp
  by_cases hip : etherType ≠ 0x0800 ∨ raw.len < l3Offset + 20
  · rw [if_pos hip, htail]
    exact ⟨_, rfl, hview⟩
  rw [if_neg hip, Span.byte_eq (by omega)]
  rw [not_or] at hip
  simp only [Option.bind_eq_bind, Option.bind_some]
  generalize (loadBe (bytesAt r.buf (raw.off + l3Offset) 1) &&& 0x0F) * 4 = ipHdrLen
  by_cases hlen : ipHdrLen < 20 ∨ raw.len < l3Offset + ipHdrLen
  · rw [if_pos hlen, htail]
    exact ⟨_, rfl, hview⟩
  rw [if_neg hlen, Span.byte_eq (by omega)]
  exact extractUdp_total hraw htime (by omega)

/-- **No inconsistent combination of lengths leads out of the frame.** -/
theorem extractPayload_total (r : PcapReader) (raw : Span) (tsNs : Nat) :
    ∃ v, r.extractPayload raw tsNs = some v ∧ ViewOf raw tsNs v := by
  unfold extractPayload
  dsimp only
  by_cases hlink : r.linkType ≠ kLinkTypeEthernet ∨ raw.len < 14
  · rw [if_pos hlink]
    exact ⟨_, rfl, rfl, rfl, Nat.le_refl _, Nat.le_refl _⟩
  rw [if_neg hlink, Span.be16_eq (by omega)]
  simp only [Option.bind_eq_bind, Option.bind_some]
  split
  · rename_i htag
    rw [Span.be16_eq (by omega)]
    exact extractIp_total rfl rfl htag.2
  · exact extractIp_total rfl rfl (by omega)

/-! ## The records of any capture -/

/-- A complete record: sixteen bytes that say how long the frame behind them is, and it. -/
def RecordFrame (swapped : Bool) (inclLen : Nat) (f : List UInt8) : Prop :=
  f.length = 16 + inclLen ∧ load32 swapped (bytesAt f 8 4) = inclLen

theorem recordCode (swapped : Bool) : Framing.Code (RecordFrame swapped) where
  nonempty := by
    intro x f hf hnil
    rw [hnil] at hf
    exact absurd hf.1 (by rw [List.length_nil]; omega)
  unique := by
    intro x y f g hf hg hp
    rcases hp with ⟨rest, rfl⟩
    have hword : bytesAt (f ++ rest) 8 4 = bytesAt f 8 4 :=
      bytesAt_append_left (by rw [hf.1]; omega)
    have hxy : x = y := by rw [← hf.2, ← hg.2, hword]
    refine ⟨hxy, ?_⟩
    have hlen := hg.1
    rw [List.length_append, hf.1] at hlen
    have hrest : rest = [] := List.eq_nil_of_length_eq_zero (by omega)
    rw [hrest, List.append_nil]

/-- What the reader makes of the record at `off`. -/
def viewAt (r : PcapReader) (off inclLen : Nat) : PacketView :=
  (r.extractPayload ⟨off + 16, inclLen⟩
    (r.tsNs (load32 r.swapped (bytesAt r.buf off 4))
      (load32 r.swapped (bytesAt r.buf (off + 4) 4)))).getD {}

def viewsFrom (r : PcapReader) : Nat → List (Nat × List UInt8) → List PacketView
  | _, [] => []
  | off, p :: fs => r.viewAt off p.1 :: r.viewsFrom (off + p.2.length) fs

@[simp] theorem viewsFrom_length (off : Nat) (fs : List (Nat × List UInt8)) :
    (r.viewsFrom off fs).length = fs.length := by
  induction fs generalizing off with
  | nil => rfl
  | cons p fs ih => rw [viewsFrom, List.length_cons, List.length_cons, ih]

/-- Where sixteen bytes of header and their frame lie in the buffer, the frame is visited. -/
theorem packetLoop_visit {fn : σ → PacketView → σ} {off inclLen count : Nat} {s : σ}
    (hincl : load32 r.swapped (bytesAt r.buf (off + 8) 4) = inclLen)
    (hin : off + 16 + inclLen ≤ r.buf.length) :
    r.packetLoop fn off count s
      = r.packetLoop fn (off + 16 + inclLen) (count + 1) (fn s (r.viewAt off inclLen)) := by
  rw [packetLoop, if_pos (by omega), read32_eq (by omega), read32_eq (by omega),
    read32_eq (by omega)]
  simp only [Option.bind_eq_bind, Option.bind_some]
  rw [hincl, if_neg (by omega), Span.sub_eq (by show off + 16 + inclLen ≤ r.buf.length; exact hin)]
  simp only [Option.bind_some]
  have hoff : r.whole.off + (off + 16) = off + 16 := Nat.zero_add _
  rw [hoff]
  rcases extractPayload_total r ⟨off + 16, inclLen⟩
    (r.tsNs (load32 r.swapped (bytesAt r.buf off 4))
      (load32 r.swapped (bytesAt r.buf (off + 4) 4))) with ⟨v, hv, _⟩
  rw [viewAt, hv]
  rfl

/-- The loop ends where the buffer ends before the header or before the frame. -/
theorem packetLoop_end {fn : σ → PacketView → σ} {off count : Nat} {s : σ}
    (h : r.buf.length < off + 16
      ∨ r.buf.length < off + 16 + load32 r.swapped (bytesAt r.buf (off + 8) 4)) :
    r.packetLoop fn off count s = some (count, s) := by
  rw [packetLoop]
  by_cases hroom : off + 16 ≤ r.buf.length
  · rw [if_pos hroom, read32_eq (by omega), read32_eq (by omega), read32_eq (by omega)]
    simp only [Option.bind_eq_bind, Option.bind_some]
    rw [if_pos (h.resolve_left (by omega))]
    rfl
  · rw [if_neg hroom]

/-- A view that shows the record `p`, and lies in the buffer with all its spans. -/
structure Shows (r : PcapReader) (p : Nat × List UInt8) (v : PacketView) : Prop where
  bytes : v.rawPacket.bytes r.buf = p.2.drop 16
  time : v.tsNs = r.tsNs (load32 r.swapped (bytesAt p.2 0 4)) (load32 r.swapped (bytesAt p.2 4 4))
  extract : r.extractPayload v.rawPacket v.tsNs = some v
  inside : v.rawPacket.Inside r.buf
  payload : v.payload.Inside r.buf

/-- A record found at `off`, field by field. -/
theorem record_at {off k n : Nat} {f : List UInt8} (hp : f <+: r.buf.drop off) (hk : k + n ≤ f.length) :
    bytesAt r.buf (off + k) n = bytesAt f k n := by
  rcases hp with ⟨rest, hrest⟩
  rw [bytesAt, ← List.drop_drop, ← hrest]
  exact bytesAt_append_left hk

theorem record_room {off inclLen : Nat} {f : List UInt8} (hf : RecordFrame r.swapped inclLen f)
    (hp : f <+: r.buf.drop off) : off + 16 + inclLen ≤ r.buf.length := by
  have hle := hp.length_le
  rw [hf.1, List.length_drop] at hle
  omega

theorem viewAt_shows {off inclLen : Nat} {f : List UInt8} (hf : RecordFrame r.swapped inclLen f)
    (hp : f <+: r.buf.drop off) : r.Shows (inclLen, f) (r.viewAt off inclLen) := by
  have hroom := record_room hf hp
  have hlen := hf.1
  rcases extractPayload_total r ⟨off + 16, inclLen⟩
    (r.tsNs (load32 r.swapped (bytesAt r.buf off 4))
      (load32 r.swapped (bytesAt r.buf (off + 4) 4))) with ⟨v, hv, hview⟩
  have hat : r.viewAt off inclLen = v := by rw [viewAt, hv]; rfl
  have hraw : v.rawPacket.Inside r.buf := by rw [hview.frame]; exact hroom
  rw [hat]
  refine ⟨?_, ?_, ?_, hraw, hview.payload.inside hroom⟩
  · rw [hview.frame]
    show bytesAt r.buf (off + 16) inclLen = f.drop 16
    rw [record_at hp (by omega), bytesAt, List.take_of_length_le]
    rw [List.length_drop]
    omega
  · rw [hview.time, record_at hp (by omega)]
    have hfirst := record_at (k := 0) (n := 4) hp (by omega)
    rw [Nat.add_zero] at hfirst
    rw [hfirst]
  · rw [hview.frame, hview.time]
    exact hv

theorem viewsFrom_shows {fs : List (Nat × List UInt8)} {off : Nat}
    (hv : Framing.Valid (RecordFrame r.swapped) fs) (hp : Framing.bytes fs <+: r.buf.drop off) :
    List.Forall₂ r.Shows fs (r.viewsFrom off fs) := by
  induction fs generalizing off with
  | nil => exact .nil
  | cons p fs ih =>
      rcases Framing.valid_cons.mp hv with ⟨hf, hfs⟩
      rcases hp with ⟨rest, hrest⟩
      rw [Framing.bytes_cons, List.append_assoc] at hrest
      refine .cons (viewAt_shows hf ⟨_, hrest⟩) (ih hfs ⟨rest, ?_⟩)
      rw [← List.drop_drop, ← hrest, List.drop_left]

/-- The loop over whole records: each visited once, in order. -/
theorem packetLoop_run {fn : σ → PacketView → σ} {fs : List (Nat × List UInt8)}
    {rest : List UInt8} {off : Nat} (h : Framing.Longest (RecordFrame r.swapped)
      (r.buf.drop off) fs rest) (count : Nat) (s : σ) :
    r.packetLoop fn off count s = some (count + fs.length, (r.viewsFrom off fs).foldl fn s) := by
  rcases h with ⟨hv, heq, hstuck⟩
  induction fs generalizing off count s with
  | nil =>
      refine packetLoop_end ?_
      by_contra hroom
      rw [not_or, Nat.not_lt, Nat.not_lt] at hroom
      generalize hincl : load32 r.swapped (bytesAt r.buf (off + 8) 4) = inclLen at hroom
      have hrest : r.buf.drop off = rest := heq
      have hlen : (bytesAt r.buf off (16 + inclLen)).length = 16 + inclLen :=
        bytesAt_length (by omega)
      refine hstuck inclLen (bytesAt r.buf off (16 + inclLen)) ⟨hlen, ?_⟩ ?_
      · rw [← hincl]
        congr 1
        unfold bytesAt
        rw [List.drop_take, List.take_take, List.drop_drop, Nat.min_eq_left (by omega)]
      · rw [← hrest]
        exact List.take_prefix _ _
  | cons p fs ih =>
      rcases Framing.valid_cons.mp hv with ⟨hf, hfs⟩
      rw [Framing.bytes_cons, List.append_assoc] at heq
      have hp : p.2 <+: r.buf.drop off := ⟨_, heq.symm⟩
      have hincl : load32 r.swapped (bytesAt r.buf (off + 8) 4) = p.1 := by
        rw [record_at hp (by rw [hf.1]; omega), hf.2]
      have hoff : off + 16 + p.1 = off + p.2.length := by rw [hf.1]; omega
      rw [packetLoop_visit hincl (record_room hf hp), hoff, ih _ _ hfs]
      · rw [List.length_cons, viewsFrom, List.foldl_cons]
        congr 2
        omega
      · rw [← List.drop_drop, heq, List.drop_left]

/-- `views` is what the reader hands out, whatever `fn` makes of it. -/
def Hands (r : PcapReader) (views : List PacketView) : Prop :=
  ∀ {σ : Type} (fn : σ → PacketView → σ) (s : σ),
    r.forEachPacket fn s = some (views.length, views.foldl fn s)

theorem hands_of_invalid (h : r.valid = false) : r.Hands [] := by
  intro σ fn s
  rw [forEachPacket, if_neg (by rw [h]; exact Bool.false_ne_true)]
  rfl

theorem hands_viewsFrom (hv : r.valid = true) {fs : List (Nat × List UInt8)} {rest : List UInt8}
    (h : Framing.Longest (RecordFrame r.swapped) (r.buf.drop 24) fs rest) :
    r.Hands (r.viewsFrom 24 fs) := by
  intro σ fn s
  rw [forEachPacket, if_pos hv, packetLoop_run h, Nat.zero_add, viewsFrom_length]

/-- Behind a valid header the reader shows the longest beginning of the file that complete
records make up. -/
theorem hands_longest (hv : r.valid = true) : ∃ fs rest views,
    Framing.Longest (RecordFrame r.swapped) (r.buf.drop 24) fs rest ∧ r.Hands views
      ∧ List.Forall₂ r.Shows fs views := by
  rcases (recordCode r.swapped).exists_longest (r.buf.drop 24) with ⟨fs, rest, h⟩
  have hp : Framing.bytes fs <+: r.buf.drop 24 := ⟨rest, h.eq.symm⟩
  exact ⟨fs, rest, r.viewsFrom 24 fs, h, hands_viewsFrom hv h, viewsFrom_shows h.valid hp⟩

end PcapReader

end Pcap

end Mog
