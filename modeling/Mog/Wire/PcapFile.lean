import Mog.Wire.PcapProof

/-!
# Captures of UDP frames

Well-formed frames as the wire carries them: an Ethernet header with at most one tag, an IPv4
header of any length, a UDP header with its length field and the padding of a short frame.
A file of them, in either byte order and at either resolution, is read back packet by packet.

The frames built here are those a capture of a multicast feed has, with every length field
consistent and the padding that a short frame gets. Reading one back is the composition of the
three headers, each read where the one before it ends. A file is then its records one after the
other, with the byte order that its magic announces.
-/

namespace Mog

namespace Pcap

open Wire

/-! ## Frames -/

/-- An Ethernet frame that carries a UDP datagram over IPv4. -/
structure UdpFrame where
  addresses : List UInt8
  /-- The control bytes of an 802.1Q tag. -/
  tag : Option (List UInt8)
  ihl : Nat
  ipHeader : List UInt8
  srcPort : Nat
  dstPort : Nat
  checksum : List UInt8
  payload : List UInt8
  padding : List UInt8
  addresses_length : addresses.length = 12
  tag_length : ∀ t ∈ tag, t.length = 2
  ihl_range : 5 ≤ ihl ∧ ihl ≤ 15
  ipHeader_length : ipHeader.length = 4 * ihl
  version : charAt ipHeader 0 = UInt8.ofNat (0x40 + ihl)
  protocol : charAt ipHeader 9 = 17
  srcPort_lt : srcPort < 2 ^ 16
  dstPort_lt : dstPort < 2 ^ 16
  checksum_length : checksum.length = 2
  payload_lt : 8 + payload.length < 2 ^ 16

namespace UdpFrame

variable (fr : UdpFrame)

/-- The link header: the addresses, the tag and the type. -/
def linkBytes : List UInt8 :=
  fr.addresses ++ fr.tag.elim [] (fun t => storeBe 2 0x8100 ++ t) ++ storeBe 2 0x0800

def udpBytes : List UInt8 :=
  storeBe 2 fr.srcPort ++ storeBe 2 fr.dstPort ++ storeBe 2 (8 + fr.payload.length) ++ fr.checksum

def bytes : List UInt8 :=
  fr.linkBytes ++ fr.ipHeader ++ fr.udpBytes ++ fr.payload ++ fr.padding

@[simp] theorem udpBytes_length : fr.udpBytes.length = 8 := by
  simp only [udpBytes, List.length_append, storeBe_length, fr.checksum_length]

theorem linkBytes_length : fr.linkBytes.length = if fr.tag.isSome then 18 else 14 := by
  have htag := fr.tag_length
  rw [linkBytes, List.length_append, List.length_append, storeBe_length, fr.addresses_length]
  cases ht : fr.tag with
  | none => rfl
  | some t =>
      rw [ht] at htag
      show 12 + (storeBe 2 0x8100 ++ t).length + 2 = 18
      rw [List.length_append, storeBe_length, htag t rfl]

theorem bytes_length : fr.bytes.length
    = fr.linkBytes.length + fr.ipHeader.length + 8 + fr.payload.length + fr.padding.length := by
  simp only [bytes, List.length_append, udpBytes_length]

/-- A field of the link header. -/
theorem bytesAt_link {k n : Nat} (h : k + n ≤ fr.linkBytes.length) :
    bytesAt fr.bytes k n = bytesAt fr.linkBytes k n := by
  rw [bytes, List.append_assoc, List.append_assoc, List.append_assoc, bytesAt_append_left h]

/-- A byte of the IPv4 header. -/
theorem ip_byte {k : Nat} (h : k < fr.ipHeader.length) :
    bytesAt fr.bytes (fr.linkBytes.length + k) 1 = [charAt fr.ipHeader k] := by
  rw [bytes, List.append_assoc, List.append_assoc, List.append_assoc,
    bytesAt_append_right (by omega), Nat.add_sub_cancel_left, bytesAt_append_left h, bytesAt_one h]

/-- What lies behind the IPv4 header. -/
theorem bytesAt_udp (k n : Nat) :
    bytesAt fr.bytes (fr.linkBytes.length + fr.ipHeader.length + k) n
      = bytesAt (fr.udpBytes ++ (fr.payload ++ fr.padding)) k n := by
  rw [bytes, List.append_assoc, List.append_assoc, List.append_assoc, Nat.add_assoc,
    bytesAt_append_right (by omega), Nat.add_sub_cancel_left, bytesAt_append_right (by omega),
    Nat.add_sub_cancel_left]

/-- The fields of the UDP header. -/
theorem ports_at :
    be16 fr.bytes (fr.linkBytes.length + fr.ipHeader.length) = fr.srcPort
      ∧ be16 fr.bytes (fr.linkBytes.length + fr.ipHeader.length + 2) = fr.dstPort
      ∧ be16 fr.bytes (fr.linkBytes.length + fr.ipHeader.length + 4) = 8 + fr.payload.length := by
  have hfront := fr.bytesAt_udp 0 2
  rw [Nat.add_zero] at hfront
  refine ⟨?_, ?_, ?_⟩
  · rw [be16, hfront, udpBytes, List.append_assoc, List.append_assoc, List.append_assoc,
      bytesAt_front (storeBe_length _ _), loadBe_storeBe_of_lt fr.srcPort_lt]
  · rw [be16, bytesAt_udp, udpBytes, List.append_assoc, List.append_assoc, List.append_assoc,
      bytesAt_append_right (by rw [storeBe_length]), storeBe_length,
      bytesAt_front (storeBe_length _ _), loadBe_storeBe_of_lt fr.dstPort_lt]
  · rw [be16, bytesAt_udp, udpBytes, List.append_assoc, List.append_assoc, List.append_assoc,
      bytesAt_append_right (by rw [storeBe_length]; omega), storeBe_length,
      bytesAt_append_right (by rw [storeBe_length]), storeBe_length,
      bytesAt_front (storeBe_length _ _), loadBe_storeBe_of_lt fr.payload_lt]

/-- The datagram, without the padding. -/
theorem payload_at : bytesAt fr.bytes (fr.linkBytes.length + fr.ipHeader.length + 8)
    fr.payload.length = fr.payload := by
  rw [bytesAt_udp, bytesAt_append_right (by rw [udpBytes_length]), udpBytes_length,
    bytesAt_front rfl]

/-- The type the link header ends in; a tag stands two bytes before. -/
theorem etherType_at : be16 fr.bytes (fr.linkBytes.length - 2) = 0x0800 := by
  have hlen := fr.linkBytes_length
  have hfront : (fr.addresses ++ fr.tag.elim [] (fun t => storeBe 2 0x8100 ++ t)).length
      = fr.linkBytes.length - (storeBe 2 0x0800).length :=
    Nat.eq_sub_of_add_eq List.length_append.symm
  rw [storeBe_length] at hfront
  have hroom : 2 ≤ fr.linkBytes.length := by
    rw [hlen]
    split <;> omega
  rw [be16, bytesAt_link _ (by omega), linkBytes, bytesAt_append_right (by rw [← linkBytes, hfront]),
    ← linkBytes, hfront, Nat.sub_self, bytesAt_zero (storeBe_length _ _)]
  rfl

theorem tag_at (h : fr.tag.isSome) : be16 fr.bytes 12 = 0x8100 := by
  have hlen := fr.linkBytes_length
  rw [if_pos h] at hlen
  rcases Option.isSome_iff_exists.mp h with ⟨t, ht⟩
  rw [be16, bytesAt_link _ (by omega), linkBytes, ht, List.append_assoc,
    bytesAt_append_right (by rw [fr.addresses_length]), fr.addresses_length]
  show loadBe (bytesAt ((storeBe 2 0x8100 ++ t) ++ storeBe 2 0x0800) 0 2) = 0x8100
  rw [List.append_assoc, bytesAt_front (storeBe_length _ _)]
  rfl

end UdpFrame

namespace PcapReader

variable {r : PcapReader} {raw : Span}

theorem be16_raw {k : Nat} (h : k + 2 ≤ raw.len) :
    raw.be16 r.buf k = some (Wire.be16 (raw.bytes r.buf) k) := by
  rw [Span.be16_eq h, Wire.be16, Span.bytesAt_eq h, Wire.be16]

/-- What the reader makes of a frame. -/
def udpView (raw : Span) (tsNs : Nat) (fr : UdpFrame) : PacketView where
  tsNs := tsNs
  rawPacket := raw
  payload := ⟨raw.off + (fr.linkBytes.length + fr.ipHeader.length + 8), fr.payload.length⟩
  srcPort := fr.srcPort
  dstPort := fr.dstPort
  protocol := 17

theorem extractUdp_frame {fr : UdpFrame} (h : raw.bytes r.buf = fr.bytes)
    (hlen : raw.len = fr.bytes.length) (tsNs : Nat) :
    r.extractUdp raw { tsNs, rawPacket := raw, protocol := 17 }
        (fr.linkBytes.length + fr.ipHeader.length)
      = some (udpView raw tsNs fr) := by
  have htotal := fr.bytes_length
  rcases fr.ports_at with ⟨hsrc, hdst, hudp⟩
  unfold extractUdp
  rw [if_pos ⟨rfl, by omega⟩, be16_raw (by omega), be16_raw (by omega), be16_raw (by omega), h,
    hsrc, hdst, hudp]
  simp only [Option.bind_eq_bind, Option.bind_some]
  rw [if_pos (by omega), Nat.add_sub_cancel_left, Span.sub_eq (by omega)]
  rfl

theorem low_nibble : ∀ i < 16, loadBe [UInt8.ofNat (0x40 + i)] &&& 0x0F = i := by
  decide

theorem extractIp_frame {fr : UdpFrame} (h : raw.bytes r.buf = fr.bytes)
    (hlen : raw.len = fr.bytes.length) (tsNs : Nat) :
    r.extractIp raw { tsNs, rawPacket := raw } 0x0800 fr.linkBytes.length
      = some (udpView raw tsNs fr) := by
  have htotal := fr.bytes_length
  have hihl := fr.ihl_range
  have hip := fr.ipHeader_length
  have hfirst := fr.ip_byte (k := 0) (by omega)
  rw [Nat.add_zero, fr.version] at hfirst
  have hproto := fr.ip_byte (k := 9) (by omega)
  rw [fr.protocol] at hproto
  -- the low half of the first byte counts the header's words
  have hnibble : (loadBe [UInt8.ofNat (0x40 + fr.ihl)] &&& 0x0F) * 4 = fr.ipHeader.length := by
    rw [hip, low_nibble fr.ihl (by omega), Nat.mul_comm]
  unfold extractIp
  rw [if_neg (by omega), Span.byte_eq (by omega), Span.bytesAt_eq (by omega), h, hfirst]
  simp only [Option.bind_eq_bind, Option.bind_some]
  rw [hnibble, if_neg (by omega), Span.byte_eq (by omega), Span.bytesAt_eq (by omega), h, hproto]
  exact extractUdp_frame h hlen tsNs

/-- **A well-formed frame is decoded exactly.** -/
theorem extractPayload_frame {fr : UdpFrame} (h : raw.bytes r.buf = fr.bytes)
    (hlen : raw.len = fr.bytes.length) (hlink : r.linkType = kLinkTypeEthernet) (tsNs : Nat) :
    r.extractPayload raw tsNs = some (udpView raw tsNs fr) := by
  have htotal := fr.bytes_length
  have hllen := fr.linkBytes_length
  have htype := fr.etherType_at
  have hip := extractIp_frame h hlen tsNs
  unfold extractPayload
  cases htag : fr.tag.isSome with
  | true =>
      rw [if_pos htag] at hllen
      rw [hllen] at htype hip
      dsimp only
      rw [if_neg (by rw [hlink]; omega), be16_raw (by omega), h, fr.tag_at htag]
      simp only [Option.bind_eq_bind, Option.bind_some]
      rw [if_pos ⟨trivial, by omega⟩, be16_raw (by omega), h, htype]
      exact hip
  | false =>
      rw [if_neg (by rw [htag]; exact Bool.false_ne_true)] at hllen
      rw [hllen] at htype hip
      dsimp only
      rw [if_neg (by rw [hlink]; omega), be16_raw (by omega), h, htype]
      exact hip

end PcapReader

/-! ## Files -/

open PcapReader

def store32 (swapped : Bool) (v : Nat) : List UInt8 := if swapped then storeLe 4 v else storeBe 4 v

@[simp] theorem store32_length (swapped : Bool) (v : Nat) : (store32 swapped v).length = 4 := by
  cases swapped
  · exact storeBe_length 4 v
  · exact storeLe_length 4 v

theorem load32_store32 (swapped : Bool) {v : Nat} (h : v < 2 ^ 32) :
    load32 swapped (store32 swapped v) = v := by
  cases swapped
  · exact loadBe_storeBe_of_lt h
  · exact loadLe_storeLe_of_lt h

/-- A magic is none in the other byte order, and tells the resolution. -/
theorem magic_unique : ∀ swapped nanosec swapped' nanosec' : Bool,
    load32 swapped' (store32 swapped (magicOf nanosec)) = magicOf nanosec' →
      swapped' = swapped ∧ nanosec' = nanosec := by
  decide

/-- A packet of a capture. -/
structure Packet where
  tsSec : Nat
  tsSub : Nat
  origLen : Nat
  frame : UdpFrame
  tsSec_lt : tsSec < 2 ^ 32
  tsSub_lt : tsSub < 2 ^ 32
  frame_lt : frame.bytes.length < 2 ^ 32

namespace Packet

def header (swapped : Bool) (p : Packet) : List UInt8 :=
  store32 swapped p.tsSec ++ store32 swapped p.tsSub ++ store32 swapped p.frame.bytes.length
    ++ store32 swapped p.origLen

def record (swapped : Bool) (p : Packet) : List UInt8 := p.header swapped ++ p.frame.bytes

/-- Nanoseconds. -/
def time (nanosec : Bool) (p : Packet) : Nat :=
  p.tsSec * 1000000000 + if nanosec then p.tsSub else p.tsSub * 1000

variable (swapped : Bool) (p : Packet)

@[simp] theorem header_length : (p.header swapped).length = 16 := by
  simp only [header, List.length_append, store32_length]

theorem record_length : (p.record swapped).length = 16 + p.frame.bytes.length := by
  rw [record, List.length_append, header_length]

/-- The words of the record's header. -/
theorem words : load32 swapped (bytesAt (p.record swapped) 0 4) = p.tsSec
    ∧ load32 swapped (bytesAt (p.record swapped) 4 4) = p.tsSub
    ∧ load32 swapped (bytesAt (p.record swapped) 8 4) = p.frame.bytes.length := by
  simp only [record, header, List.append_assoc]
  refine ⟨?_, ?_, ?_⟩
  · rw [bytesAt_front (store32_length _ _), load32_store32 _ p.tsSec_lt]
  · rw [bytesAt_append_right (by rw [store32_length]), store32_length,
      bytesAt_front (store32_length _ _), load32_store32 _ p.tsSub_lt]
  · rw [bytesAt_append_right (by rw [store32_length]; omega), store32_length,
      bytesAt_append_right (by rw [store32_length]), store32_length,
      bytesAt_front (store32_length _ _), load32_store32 _ p.frame_lt]

theorem recordFrame : RecordFrame swapped p.frame.bytes.length (p.record swapped) :=
  ⟨p.record_length swapped, (p.words swapped).2.2⟩

theorem drop_record : (p.record swapped).drop 16 = p.frame.bytes := by
  rw [record, ← p.header_length swapped, List.drop_left]

end Packet

/-- How a capture is written. -/
structure Capture where
  swapped : Bool
  nanosec : Bool
  /-- The versions, the zone, the accuracy and the length of a snapshot. -/
  about : List UInt8
  packets : List Packet
  about_length : about.length = 16

namespace Capture

variable (c : Capture)

def records : List (Nat × List UInt8) :=
  c.packets.map fun p => (p.frame.bytes.length, p.record c.swapped)

def header : List UInt8 :=
  store32 c.swapped (magicOf c.nanosec) ++ c.about ++ store32 c.swapped kLinkTypeEthernet

/-- The file. -/
def bytes : List UInt8 := c.header ++ (c.packets.map (Packet.record c.swapped)).flatten

@[simp] theorem header_length : c.header.length = 24 := by
  simp only [header, List.length_append, store32_length, c.about_length]

theorem magic_at : bytesAt c.bytes 0 4 = store32 c.swapped (magicOf c.nanosec) := by
  rw [bytes, header, List.append_assoc, List.append_assoc, bytesAt_front (store32_length _ _)]

theorem linkType_at : load32 c.swapped (bytesAt c.bytes 20 4) = kLinkTypeEthernet := by
  rw [bytes, header, List.append_assoc, List.append_assoc,
    bytesAt_append_right (by rw [store32_length]; omega), store32_length,
    bytesAt_append_right (by rw [c.about_length]), c.about_length,
    bytesAt_front (store32_length _ _)]
  exact load32_store32 _ (by decide)

theorem isCapture : IsCapture c.bytes := by
  refine ⟨?_, c.swapped, c.nanosec, ?_⟩
  · rw [bytes, List.length_append, header_length]
    omega
  · rw [magic_at]
    refine load32_store32 _ ?_
    cases c.nanosec <;> decide

/-- The records are the whole of what follows the header. -/
theorem longest : Framing.Longest (RecordFrame c.swapped) (c.bytes.drop 24) c.records [] where
  valid := by
    intro q hq
    rcases List.mem_map.mp hq with ⟨p, _, rfl⟩
    exact p.recordFrame c.swapped
  eq := by
    rw [bytes, ← c.header_length, List.drop_left, List.append_nil, Framing.bytes, records,
      List.map_map]
    rfl
  stuck := by
    intro x f hf hp
    exact (recordCode c.swapped).nonempty hf (List.prefix_nil.mp hp)

end Capture

/-! ## Reading a file back -/

/-- The view shows the packet: its frame, its datagram, its ports and its time. -/
structure Decoded (c : Capture) (p : Packet) (v : PacketView) : Prop where
  frame : v.rawPacket.bytes c.bytes = p.frame.bytes
  payload : v.payload.bytes c.bytes = p.frame.payload
  srcPort : v.srcPort = p.frame.srcPort
  dstPort : v.dstPort = p.frame.dstPort
  protocol : v.protocol = 17
  time : v.tsNs = p.time c.nanosec

/-- The reader of a written file. -/
structure ReaderOf (c : Capture) (r : PcapReader) : Prop where
  buf : r.buf = c.bytes
  valid : r.valid = true
  swapped : r.swapped = c.swapped
  nanosec : r.nanosec = c.nanosec
  linkType : r.linkType = kLinkTypeEthernet

theorem PcapReader.HeaderRead.readerOf {c : Capture} {r : PcapReader} (h : HeaderRead c.bytes r) :
    ReaderOf c r := by
  have hv : r.valid = true := h.valid_iff.mpr c.isCapture
  have hmagic := h.magic hv
  rw [c.magic_at] at hmagic
  rcases magic_unique _ _ _ _ hmagic with ⟨hs, hn⟩
  refine ⟨h.buf_eq, hv, hs, hn, ?_⟩
  rw [h.linkType hv, hs, c.linkType_at]

/-- No time stamp overflows. -/
theorem tsNs_eq {r : PcapReader} {nanosec : Bool} (hn : r.nanosec = nanosec) (p : Packet) :
    r.tsNs p.tsSec p.tsSub = p.time nanosec := by
  have hsec := p.tsSec_lt
  have hsub := p.tsSub_lt
  have hle : (if nanosec then p.tsSub else p.tsSub * 1000) ≤ p.tsSub * 1000 := by
    split <;> omega
  rw [tsNs, hn, Packet.time, Nat.mod_eq_of_lt (by omega)]

theorem PcapReader.Shows.decoded {c : Capture} {r : PcapReader} (hr : ReaderOf c r) {p : Packet}
    {v : PacketView} (h : r.Shows (p.frame.bytes.length, p.record c.swapped) v) :
    Decoded c p v := by
  have hframe : v.rawPacket.bytes r.buf = p.frame.bytes := by rw [h.bytes, p.drop_record]
  have hlen : v.rawPacket.len = p.frame.bytes.length := by
    rw [← hframe, Span.bytes, bytesAt_length h.inside]
  have hextract := h.extract
  rw [extractPayload_frame hframe hlen hr.linkType, Option.some_inj] at hextract
  have htime := h.time
  rw [hr.swapped, (p.words c.swapped).1, (p.words c.swapped).2.1, tsNs_eq hr.nanosec] at htime
  have hroom := p.frame.bytes_length
  refine ⟨hr.buf ▸ hframe, ?_, ?_, ?_, ?_, htime⟩
  · rw [← hextract, ← hr.buf, Span.bytes]
    show bytesAt r.buf (v.rawPacket.off + _) p.frame.payload.length = _
    rw [Span.bytesAt_eq (by omega), hframe, p.frame.payload_at]
  · rw [← hextract]
    rfl
  · rw [← hextract]
    rfl
  · rw [← hextract]
    rfl

/-- **Captures are decoded exactly, and no bytes lead the reader astray.** A written file is
read back packet by packet, in order. For any bytes the reader is done after the longest
beginning that complete records make up, and every span it hands out lies in the buffer. -/
theorem pcap_extraction :
    (∀ c : Capture, ∃ r views, parseHeader c.bytes = some r ∧ r.Hands views
      ∧ views.length = c.packets.length ∧ List.Forall₂ (Decoded c) c.packets views)
    ∧ ∀ buf : List UInt8, ∃ r views, parseHeader buf = some r ∧ r.buf = buf ∧ r.Hands views
      ∧ (∀ v ∈ views, v.rawPacket.Inside buf ∧ v.payload.Inside buf)
      ∧ (r.valid = true ↔ IsCapture buf)
      ∧ (r.valid = false → views = [])
      ∧ (r.valid = true → ∃ fs rest, List.Forall₂ r.Shows fs views
        ∧ Framing.Longest (RecordFrame r.swapped) (buf.drop 24) fs rest
        ∧ ∀ gs s, Framing.Valid (RecordFrame r.swapped) gs → buf.drop 24 = Framing.bytes gs ++ s →
          gs <+: fs) := by
  constructor
  · intro c
    rcases parseHeader_total c.bytes with ⟨r, hparse, hread⟩
    have hr := hread.readerOf
    have hlongest : Framing.Longest (RecordFrame r.swapped) (r.buf.drop 24) c.records [] := by
      rw [hr.swapped, hr.buf]
      exact c.longest
    have hshows : List.Forall₂ r.Shows c.records (r.viewsFrom 24 c.records) :=
      viewsFrom_shows hlongest.valid ⟨[], hlongest.eq.symm⟩
    refine ⟨r, r.viewsFrom 24 c.records, hparse, hands_viewsFrom hr.valid hlongest, ?_, ?_⟩
    · rw [viewsFrom_length, Capture.records, List.length_map]
    · rw [Capture.records, List.forall₂_map_left_iff] at hshows
      exact hshows.imp fun p v h => h.decoded hr
  · intro buf
    rcases parseHeader_total buf with ⟨r, hparse, hread⟩
    cases hv : r.valid with
    | false =>
        refine ⟨r, [], hparse, hread.buf_eq, hands_of_invalid hv, ?_, hv ▸ hread.valid_iff, ?_, ?_⟩
        · exact fun v hmem => absurd hmem List.not_mem_nil
        · exact fun _ => rfl
        · exact fun h => absurd (hv.symm.trans h) Bool.false_ne_true
    | true =>
        rcases hands_longest hv with ⟨fs, rest, views, hlongest, hhands, hshows⟩
        rw [hread.buf_eq] at hlongest
        refine ⟨r, views, hparse, hread.buf_eq, hhands, ?_, hv ▸ hread.valid_iff, ?_, ?_⟩
        · intro v hmem
          rcases List.forall₂_iff_get.mp hshows with ⟨hlen, hget⟩
          rcases List.mem_iff_get.mp hmem with ⟨i, rfl⟩
          have hi := hget i.1 (by omega) i.2
          exact hread.buf_eq ▸ ⟨hi.inside, hi.payload⟩
        · exact fun h => absurd (h.symm.trans hv) Bool.false_ne_true
        · intro _
          refine ⟨fs, rest, hshows, hlongest, fun gs s hgs hs => ?_⟩
          exact (recordCode r.swapped).le_longest hlongest hgs hs

end Pcap

end Mog
