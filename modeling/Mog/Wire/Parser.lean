import Mog.Wire.Codec

/-!
# The stream parser's kernel

`parse_one` reads a message with direct loads at literal offsets, and a third function
says what is wrong with a frame it refuses. Both must agree with the reference decoder:
the fast path may not accept, refuse or read anything differently.

The kernels of the instruction sets differ in how they load a field, not in what they load. The
frame tables give the length of a type, and zero for a type that is unknown; a refused frame is
classified by its type first, then by its length, and where both are in order by its side.
-/

namespace Mog

/-- The instruction sets a kernel is built for. -/
inductive Isa where
  | sse4Baseline
  | avx2
  | avx512
deriving DecidableEq, Repr

namespace Wire

/-! ## The frame tables -/

/-- `kFrame`: the length of a message of the decoded subset, and 0 for any other type. -/
def frameLength (type : UInt8) : Nat :=
  if type = 65 then kAddOrderSize
  else if type = 70 then kAddOrderAttributionSize
  else if type = 69 then kOrderExecutedSize
  else if type = 67 then kOrderExecutedWithPriceSize
  else if type = 88 then kOrderCancelSize
  else if type = 68 then kOrderDeleteSize
  else if type = 85 then kOrderReplaceSize
  else 0

/-- `kSessionFrame`: the standard types beyond the subset as well. -/
def sessionFrameLength (type : UInt8) : Nat :=
  if type = 83 then 12
  else if type = 82 then 39
  else if type = 72 then 25
  else if type = 89 then 20
  else if type = 76 then 26
  else if type = 86 then 35
  else if type = 87 then 12
  else if type = 75 then 28
  else if type = 73 then 50
  else if type = 78 then 20
  else if type = 81 then 40
  else if type = 80 then 44
  else if type = 66 then 19
  else if type = 74 then 35
  else if type = 79 then 48
  else if type = 104 then 21
  else frameLength type

/-! ## The kernel -/

/-- `load_header`: locate and tracking come from one load of 32 bits. -/
def loadHeader (p : List UInt8) : Header :=
  { locate := be32 p 1 / 2 ^ 16 % 2 ^ 16, tracking := be32 p 1 % 2 ^ 16, tsNs := be48 p 5 }

def loadSymbol (p : List UInt8) (off : Nat) : List UInt8 := bytesAt p off 8

/-- `side_from_wire` of the fast path, once the byte has been checked. -/
def sideOfWire (c : UInt8) : Side := if c = 66 then .buy else .sell

/-- `parse_one`: the same code for every instruction set. -/
def parseOne (_ : Isa) (buf : List UInt8) : Option Message :=
  if buf.length < kHeaderSize then none
  else
    let type := charAt buf 0
    let need := frameLength type
    if need = 0 ∨ buf.length < need then none
    else if type = 65 then
      if charAt buf 19 ≠ 66 ∧ charAt buf 19 ≠ 83 then none
      else
        some (.addOrder
          { header := loadHeader buf, orderRef := be64 buf 11, side := sideOfWire (charAt buf 19)
            shares := be32 buf 20, stock := loadSymbol buf 24, price := be32 buf 32 })
    else if type = 70 then
      if charAt buf 19 ≠ 66 ∧ charAt buf 19 ≠ 83 then none
      else
        some (.addOrderAttribution
          { header := loadHeader buf, orderRef := be64 buf 11, side := sideOfWire (charAt buf 19)
            shares := be32 buf 20, stock := loadSymbol buf 24, price := be32 buf 32
            attribution := [charAt buf 36, charAt buf 37, charAt buf 38, charAt buf 39] })
    else if type = 69 then
      some (.orderExecuted
        { header := loadHeader buf, orderRef := be64 buf 11, executedShares := be32 buf 19
          matchNumber := be64 buf 23 })
    else if type = 67 then
      some (.orderExecutedWithPrice
        { header := loadHeader buf, orderRef := be64 buf 11, executedShares := be32 buf 19
          matchNumber := be64 buf 23, printable := charAt buf 31 = 89
          executionPrice := be32 buf 32 })
    else if type = 88 then
      some (.orderCancel
        { header := loadHeader buf, orderRef := be64 buf 11, cancelledShares := be32 buf 19 })
    else if type = 68 then
      some (.orderDelete { header := loadHeader buf, orderRef := be64 buf 11 })
    else if type = 85 then
      some (.orderReplace
        { header := loadHeader buf, originalOrderRef := be64 buf 11, newOrderRef := be64 buf 19
          shares := be32 buf 27, price := be32 buf 31 })
    else none

/-- `classify_stream_error`: what is wrong with a frame that the kernel refused. -/
def classifyStreamError (msg : List UInt8) : DecodeError :=
  if msg.length < kHeaderSize then .truncated
  else
    let need := frameLength (charAt msg 0)
    if need = 0 then .unknownType
    else if msg.length < need then .truncated
    else if charAt msg 0 = 65 ∨ charAt msg 0 = 70 then
      if charAt msg 19 ≠ 66 ∧ charAt msg 19 ≠ 83 then .invalidSide else .truncated
    else .truncated

/-! ## It reads what the reference decoder reads -/

theorem bytesAt_lt {l : List UInt8} {off n : Nat} : loadBe (bytesAt l off n) < 256 ^ n :=
  loadBe_lt (List.length_take_le _ _)

/-- Two fields next to each other are the two halves of one number. -/
theorem loadBe_join {l : List UInt8} {off m n : Nat} (h : off + m + n ≤ l.length) :
    loadBe (bytesAt l off (m + n))
      = loadBe (bytesAt l off m) * 256 ^ n + loadBe (bytesAt l (off + m) n) := by
  rw [← bytesAt_join, loadBe_append, bytesAt_length h]

/-- One load of 32 bits holds locate and tracking. -/
theorem loadHeader_eq {p : List UInt8} (h : kHeaderSize ≤ p.length) :
    loadHeader p = decodeHeader p := by
  have hlen : 11 ≤ p.length := h
  have hsplit : be32 p 1 = be16 p 1 * 2 ^ 16 + be16 p 3 :=
    @loadBe_join p 1 2 2 (by omega)
  have h1 : be16 p 1 < 2 ^ 16 := bytesAt_lt
  have h3 : be16 p 3 < 2 ^ 16 := bytesAt_lt
  have hlocate : be32 p 1 / 2 ^ 16 % 2 ^ 16 = be16 p 1 := by omega
  have htracking : be32 p 1 % 2 ^ 16 = be16 p 3 := by omega
  rw [loadHeader, decodeHeader, hlocate, htracking]

/-- The side check of the kernel, against the side reading of the decoder. -/
theorem sideFromWire_eq (c : UInt8) :
    sideFromWire c = if c ≠ 66 ∧ c ≠ 83 then none else some (sideOfWire c) := by
  unfold sideFromWire sideOfWire
  by_cases h1 : c = 66
  · subst h1
    rfl
  · by_cases h2 : c = 83
    · subst h2
      rfl
    · rw [if_neg h1, if_neg h2, if_pos ⟨h1, h2⟩]

/-- A checked side, as the decoder sees it. -/
theorem checkAndWrap_eq {α : Type} (f : Side → α) (c : UInt8) :
    checkAndWrap f c
      = if c ≠ 66 ∧ c ≠ 83 then .error .invalidSide else .ok (f (sideOfWire c)) := by
  unfold checkAndWrap
  rw [sideFromWire_eq]
  by_cases h : c ≠ 66 ∧ c ≠ 83
  · rw [if_pos h, if_pos h]
  · rw [if_neg h, if_neg h]

/-- Four characters one by one. -/
theorem bytesAt_four {l : List UInt8} {off : Nat} (h : off + 4 ≤ l.length) :
    bytesAt l off 4 = [charAt l off, charAt l (off + 1), charAt l (off + 2), charAt l (off + 3)] := by
  rw [← bytesAt_join l off 1 3, ← bytesAt_join l (off + 1) 1 2, ← bytesAt_join l (off + 1 + 1) 1 1,
    bytesAt_one (by omega), bytesAt_one (by omega), bytesAt_one (by omega),
    bytesAt_one (by omega)]
  rfl

/-- **The fast decoder is the reference decoder.** On every buffer the kernel of every
instruction set accepts what the decoder accepts and reads the same message from it; what it
refuses is classified with the decoder's own error. -/
theorem decodeMessage_eq_parseOne (isa : Isa) (buf : List UInt8) :
    decodeMessage buf = (parseOne isa buf).elim (.error (classifyStreamError buf)) .ok := by
  unfold decodeMessage parseOne classifyStreamError
  by_cases hlen : buf.length < kHeaderSize
  · rw [if_pos hlen, if_pos hlen, if_pos hlen]
    rfl
  rw [if_neg hlen, if_neg hlen, if_neg hlen, loadHeader_eq (Nat.not_lt.mp hlen)]
  -- one case for each type byte, and in it one for a frame cut short
  by_cases hA : charAt buf 0 = 65
  · have hz : kAddOrderSize ≠ 0 := by decide
    rw [hA, decodeAddOrder]
    by_cases hn : buf.length < kAddOrderSize
    · simp [hn, hz, frameLength, Except.map]
    · by_cases hs : charAt buf 19 ≠ 66 ∧ charAt buf 19 ≠ 83
      · simp [hn, hz, hs, checkAndWrap_eq, frameLength, Except.map]
      · simp [hn, hz, hs, checkAndWrap_eq, frameLength, Except.map, loadSymbol]
  by_cases hF : charAt buf 0 = 70
  · have hz : kAddOrderAttributionSize ≠ 0 := by decide
    rw [hF, decodeAddOrderAttribution]
    by_cases hn : buf.length < kAddOrderAttributionSize
    · simp [hn, hz, frameLength, Except.map]
    · have hfour := @bytesAt_four buf 36 (Nat.not_lt.mp hn)
      by_cases hs : charAt buf 19 ≠ 66 ∧ charAt buf 19 ≠ 83
      · simp [hn, hz, hs, checkAndWrap_eq, frameLength, Except.map]
      · simp [hn, hz, hs, checkAndWrap_eq, frameLength, Except.map, loadSymbol, hfour]
  by_cases hE : charAt buf 0 = 69
  · have hz : kOrderExecutedSize ≠ 0 := by decide
    rw [hE, decodeOrderExecuted]
    by_cases hn : buf.length < kOrderExecutedSize <;> simp [hn, hz, frameLength, Except.map]
  by_cases hC : charAt buf 0 = 67
  · have hz : kOrderExecutedWithPriceSize ≠ 0 := by decide
    rw [hC, decodeOrderExecutedWithPrice]
    by_cases hn : buf.length < kOrderExecutedWithPriceSize <;> simp [hn, hz, frameLength, Except.map]
  by_cases hX : charAt buf 0 = 88
  · have hz : kOrderCancelSize ≠ 0 := by decide
    rw [hX, decodeOrderCancel]
    by_cases hn : buf.length < kOrderCancelSize <;> simp [hn, hz, frameLength, Except.map]
  by_cases hD : charAt buf 0 = 68
  · have hz : kOrderDeleteSize ≠ 0 := by decide
    rw [hD, decodeOrderDelete]
    by_cases hn : buf.length < kOrderDeleteSize <;> simp [hn, hz, frameLength, Except.map]
  by_cases hU : charAt buf 0 = 85
  · have hz : kOrderReplaceSize ≠ 0 := by decide
    rw [hU, decodeOrderReplace]
    by_cases hn : buf.length < kOrderReplaceSize <;> simp [hn, hz, frameLength, Except.map]
  simp [hA, hF, hE, hC, hX, hD, hU, frameLength]

theorem parseOne_eq_some (isa : Isa) {b : List UInt8} {m : Message} :
    parseOne isa b = some m ↔ decodeMessage b = .ok m := by
  rw [decodeMessage_eq_parseOne isa]
  cases parseOne isa b with
  | none => simp
  | some n => simp

theorem parseOne_eq_none (isa : Isa) {b : List UInt8} :
    parseOne isa b = none ↔ decodeMessage b = .error (classifyStreamError b) := by
  rw [decodeMessage_eq_parseOne isa]
  cases parseOne isa b with
  | none => simp
  | some n => simp

/-- **The fast decoder against the reference decoder**: they accept the same buffers, read the
same message from each, and what both refuse is classified with the decoder's error. -/
theorem fast_decoder_agrees (isa : Isa) (buf : List UInt8) :
    (∀ m, parseOne isa buf = some m ↔ decodeMessage buf = .ok m) ∧
    (parseOne isa buf = none ↔ decodeMessage buf = .error (classifyStreamError buf)) :=
  ⟨fun _ => parseOne_eq_some isa, parseOne_eq_none isa⟩

end Wire

end Mog
