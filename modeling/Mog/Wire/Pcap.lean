import Mog.Log.ColumnLog

/-!
# Packet captures

The PCAP reader: a global header, then packet records of 16 bytes of header and as many
bytes of frame as it says, and out of each frame the payload that an Ethernet, an IPv4 and a
UDP header lead to. A `std::span` is an offset and a length in the buffer. Every read and
every `subspan` is checked against the span it is taken from: `none` is an access outside it.
-/

namespace Mog

namespace Pcap

open Wire

def kPcapMagicMicroBE : Nat := 0xa1b2c3d4
def kPcapMagicNanoBE : Nat := 0xa1b23c4d

def kLinkTypeEthernet : Nat := 1

/-! ## Spans -/

/-- A span of the buffer. -/
structure Span where
  off : Nat := 0
  len : Nat := 0
deriving DecidableEq, Repr

namespace Span

/-- The bytes the span covers. -/
def bytes (buf : List UInt8) (sp : Span) : List UInt8 := bytesAt buf sp.off sp.len

def Inside (buf : List UInt8) (sp : Span) : Prop := sp.off + sp.len ≤ buf.length

/-- The `n` bytes at `k`. -/
def read (buf : List UInt8) (sp : Span) (k n : Nat) : Option (List UInt8) :=
  if k + n ≤ sp.len then some (bytesAt buf (sp.off + k) n) else none

def byte (buf : List UInt8) (sp : Span) (k : Nat) : Option Nat := (sp.read buf k 1).map loadBe

def be16 (buf : List UInt8) (sp : Span) (k : Nat) : Option Nat := (sp.read buf k 2).map loadBe

/-- `subspan(k, n)`. -/
def sub (sp : Span) (k n : Nat) : Option Span :=
  if k + n ≤ sp.len then some ⟨sp.off + k, n⟩ else none

/-- `subspan(k)`. -/
def tail (sp : Span) (k : Nat) : Option Span := sp.sub k (sp.len - k)

end Span

structure PacketView where
  tsNs : Nat := 0
  rawPacket : Span := {}
  payload : Span := {}
  srcPort : Nat := 0
  dstPort : Nat := 0
  protocol : Nat := 0
deriving DecidableEq, Repr

structure PcapReader where
  buf : List UInt8
  valid : Bool := false
  swapped : Bool := false
  nanosec : Bool := false
  linkType : Nat := kLinkTypeEthernet

/-- A word of the file, in the file's byte order. -/
def load32 (swapped : Bool) (l : List UInt8) : Nat := if swapped then loadLe l else loadBe l

namespace PcapReader

variable (r : PcapReader)

/-- The whole buffer. -/
def whole : Span := ⟨0, r.buf.length⟩

def read32 (off : Nat) : Option Nat := (r.whole.read r.buf off 4).map (load32 r.swapped)

/-- What the magic says of the file; not valid when it is none of the four. -/
def parseMagic (buf : List UInt8) : Option PcapReader := do
  let head : Span := ⟨0, buf.length⟩
  let magic ← (head.read buf 0 4).map loadBe
  if magic = kPcapMagicMicroBE then return { buf, valid := true }
  else if magic = kPcapMagicNanoBE then return { buf, nanosec := true, valid := true }
  else
    let magicLe ← (head.read buf 0 4).map loadLe
    if magicLe = kPcapMagicMicroBE then return { buf, swapped := true, valid := true }
    else if magicLe = kPcapMagicNanoBE then
      return { buf, swapped := true, nanosec := true, valid := true }
    else return { buf }

/-- The reader of a buffer. -/
def parseHeader (buf : List UInt8) : Option PcapReader :=
  if buf.length < 24 then some { buf }
  else do
    let r ← parseMagic buf
    if r.valid then
      let linkType ← r.read32 20
      return { r with linkType }
    else return r

/-- The part of `extract_payload` behind the IPv4 header. -/
def extractUdp (raw : Span) (view : PacketView) (l4Offset : Nat) : Option PacketView :=
  if view.protocol = 17 ∧ l4Offset + 8 ≤ raw.len then do
    let srcPort ← raw.be16 r.buf l4Offset
    let dstPort ← raw.be16 r.buf (l4Offset + 2)
    let udpLen ← raw.be16 r.buf (l4Offset + 4)
    let payloadLen :=
      if 8 ≤ udpLen ∧ l4Offset + udpLen ≤ raw.len then udpLen - 8 else raw.len - l4Offset - 8
    let payload ← raw.sub (l4Offset + 8) payloadLen
    return { view with srcPort, dstPort, payload }
  else do
    let payload ← raw.tail l4Offset
    return { view with payload }

/-- The part of `extract_payload` behind the link header. -/
def extractIp (raw : Span) (view : PacketView) (etherType l3Offset : Nat) : Option PacketView :=
  if etherType ≠ 0x0800 ∨ raw.len < l3Offset + 20 then do
    let payload ← raw.tail l3Offset
    return { view with payload }
  else do
    let version ← raw.byte r.buf l3Offset
    let ipHdrLen := (version &&& 0x0F) * 4
    if ipHdrLen < 20 ∨ raw.len < l3Offset + ipHdrLen then
      let payload ← raw.tail l3Offset
      return { view with payload }
    else
      let protocol ← raw.byte r.buf (l3Offset + 9)
      r.extractUdp raw { view with protocol } (l3Offset + ipHdrLen)

def extractPayload (raw : Span) (tsNs : Nat) : Option PacketView :=
  let view : PacketView := { tsNs, rawPacket := raw }
  if r.linkType ≠ kLinkTypeEthernet ∨ raw.len < 14 then some { view with payload := raw }
  else do
    let etherType ← raw.be16 r.buf 12
    if etherType = 0x8100 ∧ 18 ≤ raw.len then
      let etherType ← raw.be16 r.buf 16
      r.extractIp raw view etherType 18
    else r.extractIp raw view etherType 14

/-- The nanoseconds of a record's time stamp. -/
def tsNs (tsSec tsSub : Nat) : Nat :=
  (tsSec * 1000000000 + if r.nanosec then tsSub else tsSub * 1000) % 2 ^ 64

section

variable {σ : Type}

/-- The loop of `for_each_packet`. -/
def packetLoop (fn : σ → PacketView → σ) (offset count : Nat) (s : σ) : Option (Nat × σ) :=
  if offset + 16 ≤ r.buf.length then do
    let tsSec ← r.read32 offset
    let tsSub ← r.read32 (offset + 4)
    let inclLen ← r.read32 (offset + 8)
    if r.buf.length < offset + 16 + inclLen then return (count, s)
    else
      let raw ← r.whole.sub (offset + 16) inclLen
      let view ← r.extractPayload raw (r.tsNs tsSec tsSub)
      packetLoop fn (offset + 16 + inclLen) (count + 1) (fn s view)
  else some (count, s)
termination_by r.buf.length - offset
decreasing_by omega

/-- The number of packets, and what `fn` has made of them. -/
def forEachPacket (fn : σ → PacketView → σ) (s : σ) : Option (Nat × σ) :=
  if r.valid then r.packetLoop fn 24 0 s else some (0, s)

end

end PcapReader

end Pcap

end Mog
