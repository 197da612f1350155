import Mog.Lib.PacketStream
import Mog.Ouch.Session
import Mog.Wire.Codec

/-!
# The OUCH wire

A message on the wire is a packed structure: its fields one after the other, numbers with
the most significant byte first. The gateway reads the fields of an inbound structure
where the layout puts them, and writes whole outbound structures one after the other
into a buffer. Only its first byte says how long a structure is.

The codec has two directions. Inbound, a structure is encoded by the client and viewed by the
gateway; outbound, a frame is encoded by the gateway and viewed by the client. Both views are at
the offsets of the packed layouts. A stream of whole frames is cut by the first byte of each,
and a client that has received a part of it has read the frames that arrived in full.
-/

namespace Mog

namespace Ouch

open Wire ExecutionSimulator

/-! ## Packed structures -/

/-- `memcpy` of `n` characters. -/
def charsAt (n : Nat) (b : List UInt8) (off : Nat) : Vector UInt8 n :=
  Vector.ofFn fun i => charAt b (off + i.val)

section

variable {cs : List (List UInt8)} {off n : Nat}

/-- A field of a packed structure lies past the fields before it. -/
theorem field_bytes (i : Nat) {c : List UInt8} (hi : cs[i]? = some c)
    (hoff : (cs.take i).flatten.length = off) : bytesAt cs.flatten off c.length = c := by
  obtain ⟨hlt, hget⟩ := List.getElem?_eq_some_iff.mp hi
  have hsplit : cs.flatten = (cs.take i).flatten ++ (c ++ (cs.drop (i + 1)).flatten) := by
    rw [← List.flatten_cons, ← List.flatten_append, ← hget, List.cons_getElem_drop_succ,
      List.take_append_drop]
  rw [hsplit, bytesAt_append_right (Nat.le_of_eq hoff), hoff, Nat.sub_self, bytesAt_front rfl]

theorem field_char (i : Nat) {c : UInt8} (hi : cs[i]? = some [c])
    (hoff : (cs.take i).flatten.length = off) : charAt cs.flatten off = c := by
  have hbyte := field_bytes i hi hoff
  have hget : charAt cs.flatten off = (bytesAt cs.flatten off 1).getD 0 0 := by
    unfold charAt bytesAt
    rw [List.getD_eq_getElem?_getD, List.getD_eq_getElem?_getD,
      List.getElem?_take_of_lt Nat.one_pos, List.getElem?_drop, Nat.add_zero]
  rw [hget]
  exact congrArg (fun l => l.getD 0 0) hbyte

theorem field_chars (i : Nat) {v : Vector UInt8 n} (hi : cs[i]? = some v.toList)
    (hoff : (cs.take i).flatten.length = off) : charsAt n cs.flatten off = v := by
  have hbytes := field_bytes i hi hoff
  rw [Vector.length_toList] at hbytes
  refine Vector.ext fun j hj => ?_
  have hget : charAt cs.flatten (off + j) = (bytesAt cs.flatten off n).getD j 0 := by
    unfold charAt bytesAt
    rw [List.getD_eq_getElem?_getD, List.getD_eq_getElem?_getD, List.getElem?_take_of_lt hj,
      List.getElem?_drop]
  rw [charsAt, Vector.getElem_ofFn, hget, hbytes, List.getD_eq_getElem _ _ (by simpa using hj),
    Vector.getElem_toList]

theorem field_be32 (i : Nat) {v : Nat} (hi : cs[i]? = some (storeBe 4 v))
    (hoff : (cs.take i).flatten.length = off) : be32 cs.flatten off = v % 2 ^ 32 := by
  have hbytes := field_bytes i hi hoff
  rw [storeBe_length] at hbytes
  rw [be32, hbytes, loadBe_storeBe]
  rfl

theorem field_be64 (i : Nat) {v : Nat} (hi : cs[i]? = some (storeBe 8 v))
    (hoff : (cs.take i).flatten.length = off) : be64 cs.flatten off = v % 2 ^ 64 := by
  have hbytes := field_bytes i hi hoff
  rw [storeBe_length] at hbytes
  rw [be64, hbytes, loadBe_storeBe]
  rfl

/-- A field of 32 bits that was 32 bits wide. -/
theorem field_uint32 (i : Nat) {v : UInt32} (hi : cs[i]? = some (storeBe 4 v.toNat))
    (hoff : (cs.take i).flatten.length = off) : UInt32.ofNat (be32 cs.flatten off) = v := by
  rw [field_be32 i hi hoff, Nat.mod_eq_of_lt v.toNat_lt, UInt32.ofNat_toNat]

end

/-! ## Inbound messages -/

structure EnterOrderMsg where
  token : Token
  side : Side
  shares : UInt32
  stock : Symbol
  priceTicks : Int
  tif : UInt32
  display : UInt8

structure ReplaceOrderMsg where
  existingToken : Token
  replacementToken : Token
  shares : UInt32
  priceTicks : Int
  tif : UInt32
  display : UInt8

structure CancelOrderMsg where
  token : Token
  shares : UInt32

def encodeEnterOrder (m : EnterOrderMsg) : List UInt8 :=
  [[79], m.token.toList, [toWire m.side], storeBe 4 m.shares.toNat, m.stock.toList,
    storeBe 4 (toU32 m.priceTicks), storeBe 4 m.tif.toNat, [32, 32, 32, 32], [m.display], [80],
    [78], storeBe 4 0, [78], [78]].flatten

def encodeReplaceOrder (m : ReplaceOrderMsg) : List UInt8 :=
  [[85], m.existingToken.toList, m.replacementToken.toList, storeBe 4 m.shares.toNat,
    storeBe 4 (toU32 m.priceTicks), storeBe 4 m.tif.toNat, [m.display], [78],
    storeBe 4 0].flatten

def encodeCancelOrder (m : CancelOrderMsg) : List UInt8 :=
  [[88], m.token.toList, storeBe 4 m.shares.toNat].flatten

def inboundFrameLength (type : UInt8) : Nat :=
  if type = 79 then 49 else if type = 85 then 47 else if type = 88 then 19
  else if type = 77 then 20 else 0

/-- The structure a gateway sees in a buffer. -/
def EnterOrderWire.view (b : List UInt8) : EnterOrderWire :=
  { orderToken := charsAt 14 b 1, buySell := charAt b 15, shares := .ofNat (be32 b 16)
    stock := charsAt 8 b 20, price := .ofNat (be32 b 28), timeInForce := .ofNat (be32 b 32) }

def ReplaceOrderWire.view (b : List UInt8) : ReplaceOrderWire :=
  { existingOrderToken := charsAt 14 b 1, replacementOrderToken := charsAt 14 b 15
    shares := .ofNat (be32 b 29), price := .ofNat (be32 b 33) }

def CancelOrderWire.view (b : List UInt8) : CancelOrderWire := { orderToken := charsAt 14 b 1 }

/-- What a message says to the gateway; a price is cut to its field. -/
def EnterOrderMsg.wire (m : EnterOrderMsg) : EnterOrderWire :=
  { orderToken := m.token, buySell := toWire m.side, shares := m.shares, stock := m.stock
    price := .ofNat (toU32 m.priceTicks), timeInForce := m.tif }

def ReplaceOrderMsg.wire (m : ReplaceOrderMsg) : ReplaceOrderWire :=
  { existingOrderToken := m.existingToken, replacementOrderToken := m.replacementToken
    shares := m.shares, price := .ofNat (toU32 m.priceTicks) }

def CancelOrderMsg.wire (m : CancelOrderMsg) : CancelOrderWire := { orderToken := m.token }

/-- **An enter order arrives as it was sent.** -/
theorem view_encodeEnterOrder (m : EnterOrderMsg) :
    EnterOrderWire.view (encodeEnterOrder m) = m.wire
      ∧ (encodeEnterOrder m).length = inboundFrameLength 79 := by
  constructor
  · unfold EnterOrderWire.view EnterOrderMsg.wire encodeEnterOrder
    rw [field_chars 1 rfl (by rfl), field_char 2 rfl (by simp), field_uint32 3 rfl (by simp),
      field_chars 4 rfl (by simp), field_be32 5 rfl (by simp), field_uint32 6 rfl (by simp),
      Nat.mod_eq_of_lt (FillLog.toU32_lt m.priceTicks)]
  · simp [encodeEnterOrder, inboundFrameLength]

theorem view_encodeReplaceOrder (m : ReplaceOrderMsg) :
    ReplaceOrderWire.view (encodeReplaceOrder m) = m.wire
      ∧ (encodeReplaceOrder m).length = inboundFrameLength 85 := by
  constructor
  · unfold ReplaceOrderWire.view ReplaceOrderMsg.wire encodeReplaceOrder
    rw [field_chars 1 rfl (by rfl), field_chars 2 rfl (by simp), field_uint32 3 rfl (by simp),
      field_be32 4 rfl (by simp), Nat.mod_eq_of_lt (FillLog.toU32_lt m.priceTicks)]
  · simp [encodeReplaceOrder, inboundFrameLength]

theorem view_encodeCancelOrder (m : CancelOrderMsg) :
    CancelOrderWire.view (encodeCancelOrder m) = m.wire
      ∧ (encodeCancelOrder m).length = inboundFrameLength 88 := by
  constructor
  · unfold CancelOrderWire.view CancelOrderMsg.wire encodeCancelOrder
    rw [field_chars 1 rfl (by rfl)]
  · simp [encodeCancelOrder, inboundFrameLength]

/-! ## Outbound frames -/

/-- `to_wire` of what `side_from_wire` makes of a character. -/
def sideToWire (side : Option Side) : UInt8 := (side.map toWire).getD 63

theorem sideFromWire_sideToWire (side : Option Side) :
    sideFromWire (sideToWire side) = side := by
  cases side with
  | none => rfl
  | some s => exact sideFromWire_toWire s

def encodeOrderAccepted (tsNs : Nat) (token : Token) (side : Option Side) (shares : Nat)
    (stock : Symbol) (price ref : Nat) : List UInt8 :=
  [[65], storeBe 8 tsNs, token.toList, [sideToWire side], storeBe 4 shares, stock.toList,
    storeBe 4 price, storeBe 4 0, [32, 32, 32, 32], [89], storeBe 8 ref, [80], [78], storeBe 4 0,
    [78], [76], [32]].flatten

def encodeOrderExecuted (tsNs : Nat) (token : Token) (shares price : Nat) (liquidity : UInt8)
    (matchNo : Nat) : List UInt8 :=
  [[69], storeBe 8 tsNs, token.toList, storeBe 4 shares, storeBe 4 price, [liquidity],
    storeBe 8 matchNo].flatten

def encodeOrderCancelled (tsNs : Nat) (token : Token) (shares : Nat) (reason : UInt8) :
    List UInt8 :=
  [[67], storeBe 8 tsNs, token.toList, storeBe 4 shares, [reason]].flatten

def encodeOrderRejected (tsNs : Nat) (token : Token) (reason : UInt8) : List UInt8 :=
  [[74], storeBe 8 tsNs, token.toList, [reason]].flatten

def encodeOrderReplaced (tsNs : Nat) (replacementToken : Token) (side : Option Side) (shares : Nat)
    (stock : Symbol) (price ref : Nat) (previousToken : Token) : List UInt8 :=
  [[85], storeBe 8 tsNs, replacementToken.toList, [sideToWire side], storeBe 4 shares, stock.toList,
    storeBe 4 price, storeBe 4 99999, [32, 32, 32, 32], [89], storeBe 8 ref, [79], [78],
    storeBe 4 0, [78], [76], previousToken.toList, [32]].flatten

def encodeAiqCancelled (tsNs : Nat) (token : Token) (decrementShares : Nat) (reason : UInt8)
    (qtyPrevented execPrice : Nat) (liqFlag : UInt8) : List UInt8 :=
  [[68], storeBe 8 tsNs, token.toList, storeBe 4 decrementShares, [reason],
    storeBe 4 qtyPrevented, storeBe 4 execPrice, [liqFlag]].flatten

def outboundFrameLength (type : UInt8) : Nat :=
  if type = 83 then 10 else if type = 65 then 66 else if type = 69 then 40
  else if type = 67 then 28 else if type = 85 then 80 else if type = 68 then 37
  else if type = 74 then 24 else 0

namespace OutboundFrame

/-- The structure that a drain writes. -/
def encode : OutboundFrame → List UInt8
  | accepted ts token side shares stock price ref =>
      encodeOrderAccepted ts token side shares stock price ref
  | replaced ts token side shares stock price ref previous =>
      encodeOrderReplaced ts token side shares.toNat stock price ref previous
  | executed ts token shares price matchNumber =>
      encodeOrderExecuted ts token shares price 65 matchNumber
  | cancelled ts token decrement => encodeOrderCancelled ts token decrement 85
  | aiqCancelled ts token decrement price =>
      encodeAiqCancelled ts token decrement 81 decrement price 78
  | rejected ts token => encodeOrderRejected ts token 84

/-- The frame with every number cut to the width of its field. -/
def fit : OutboundFrame → OutboundFrame
  | accepted ts token side shares stock price ref =>
      accepted (ts % 2 ^ 64) token side (shares % 2 ^ 32) stock (price % 2 ^ 32) (ref % 2 ^ 64)
  | replaced ts token side shares stock price ref previous =>
      replaced (ts % 2 ^ 64) token side shares stock (price % 2 ^ 32) (ref % 2 ^ 64) previous
  | executed ts token shares price matchNumber =>
      executed (ts % 2 ^ 64) token (shares % 2 ^ 32) (price % 2 ^ 32) (matchNumber % 2 ^ 64)
  | cancelled ts token decrement => cancelled (ts % 2 ^ 64) token (decrement % 2 ^ 32)
  | aiqCancelled ts token decrement price =>
      aiqCancelled (ts % 2 ^ 64) token (decrement % 2 ^ 32) (price % 2 ^ 32)
  | rejected ts token => rejected (ts % 2 ^ 64) token

/-- What a client reads in a structure, field by field. -/
def view (b : List UInt8) : Option OutboundFrame :=
  let ts := be64 b 1
  let token : Token := charsAt 14 b 9
  if charAt b 0 = 65 then
    some (accepted ts token (sideFromWire (charAt b 23)) (be32 b 24) (charsAt 8 b 28) (be32 b 36)
      (be64 b 49))
  else if charAt b 0 = 85 then
    some (replaced ts token (sideFromWire (charAt b 23)) (.ofNat (be32 b 24)) (charsAt 8 b 28)
      (be32 b 36) (be64 b 49) (charsAt 14 b 65))
  else if charAt b 0 = 69 then some (executed ts token (be32 b 23) (be32 b 27) (be64 b 32))
  else if charAt b 0 = 67 then some (cancelled ts token (be32 b 23))
  else if charAt b 0 = 68 then some (aiqCancelled ts token (be32 b 23) (be32 b 32))
  else if charAt b 0 = 74 then some (rejected ts token)
  else none

/-- **A client reads the fields that were written.** -/
theorem view_encode (f : OutboundFrame) : view f.encode = some f.fit := by
  unfold view
  cases f with
  | accepted ts token side shares stock price ref =>
      rw [encode, encodeOrderAccepted, fit, field_char 0 rfl (by rfl), if_pos rfl,
        field_be64 1 rfl (by rfl), field_chars 2 rfl (by simp),
        field_char 3 rfl (by simp), field_be32 4 rfl (by simp), field_chars 5 rfl (by simp),
        field_be32 6 rfl (by simp), field_be64 10 rfl (by simp), sideFromWire_sideToWire]
  | replaced ts token side shares stock price ref previous =>
      rw [encode, encodeOrderReplaced, fit, field_char 0 rfl (by rfl), if_neg (by decide),
        if_pos rfl, field_be64 1 rfl (by rfl),
        field_chars 2 rfl (by simp), field_char 3 rfl (by simp), field_uint32 4 rfl (by simp),
        field_chars 5 rfl (by simp), field_be32 6 rfl (by simp), field_be64 10 rfl (by simp),
        field_chars 16 rfl (by simp), sideFromWire_sideToWire]
  | executed ts token shares price matchNumber =>
      rw [encode, encodeOrderExecuted, fit, field_char 0 rfl (by rfl), if_neg (by decide),
        if_neg (by decide), if_pos rfl,
        field_be64 1 rfl (by rfl), field_chars 2 rfl (by simp), field_be32 3 rfl (by simp),
        field_be32 4 rfl (by simp), field_be64 6 rfl (by simp)]
  | cancelled ts token decrement =>
      rw [encode, encodeOrderCancelled, fit, field_char 0 rfl (by rfl), if_neg (by decide),
        if_neg (by decide), if_neg (by decide),
        if_pos rfl, field_be64 1 rfl (by rfl), field_chars 2 rfl (by simp),
        field_be32 3 rfl (by simp)]
  | aiqCancelled ts token decrement price =>
      rw [encode, encodeAiqCancelled, fit, field_char 0 rfl (by rfl), if_neg (by decide),
        if_neg (by decide), if_neg (by decide),
        if_neg (by decide), if_pos rfl, field_be64 1 rfl (by rfl), field_chars 2 rfl (by simp),
        field_be32 3 rfl (by simp), field_be32 6 rfl (by simp)]
  | rejected ts token =>
      rw [encode, encodeOrderRejected, fit, field_char 0 rfl (by rfl), if_neg (by decide),
        if_neg (by decide), if_neg (by decide),
        if_neg (by decide), if_neg (by decide), if_pos rfl, field_be64 1 rfl (by rfl),
        field_chars 2 rfl (by simp)]

/-- A frame is as long as its first byte says. -/
theorem packet_encode (f : OutboundFrame) : PacketStream.Packet outboundFrameLength f.encode := by
  cases f with
  | accepted => exact ⟨_, _, rfl, by simp [encode, encodeOrderAccepted, outboundFrameLength]⟩
  | replaced => exact ⟨_, _, rfl, by simp [encode, encodeOrderReplaced, outboundFrameLength]⟩
  | executed => exact ⟨_, _, rfl, by simp [encode, encodeOrderExecuted, outboundFrameLength]⟩
  | cancelled => exact ⟨_, _, rfl, by simp [encode, encodeOrderCancelled, outboundFrameLength]⟩
  | aiqCancelled => exact ⟨_, _, rfl, by simp [encode, encodeAiqCancelled, outboundFrameLength]⟩
  | rejected => exact ⟨_, _, rfl, by simp [encode, encodeOrderRejected, outboundFrameLength]⟩

end OutboundFrame

/-! ## Sessions of bytes -/

namespace OuchGateway

variable {k : Nat} (g : OuchGateway k) (cfg : SimConfig)

/-- A buffer that is too short is turned down. -/
def submitEnterBytes (data : List UInt8) (arrivalTs : Nat) : Option (Nat × OuchGateway k) :=
  if data.length < 49 then none else some (g.submitEnter cfg (EnterOrderWire.view data) arrivalTs)

def submitReplaceBytes (data : List UInt8) (arrivalTs : Nat) : Option (Bool × OuchGateway k) :=
  if data.length < 47 then none else some (g.submitReplace (ReplaceOrderWire.view data) arrivalTs)

def submitCancelBytes (data : List UInt8) : Option (Bool × OuchGateway k) :=
  if data.length < 19 then none else some (g.submitCancel (CancelOrderWire.view data))

/-- Every frame goes to the end of the buffer, and its place among the offsets. -/
def drainOutboundContiguous (outBytes : List UInt8) (offsets : List Nat) :
    (List UInt8 × List Nat) × OuchGateway k :=
  let r := g.drainOutboundStream
  (r.1.foldl (fun out f => (out.1 ++ f.encode, out.2 ++ [out.1.length])) (outBytes, offsets), r.2)

end OuchGateway

/-- What a client and the host do in a session. The client's messages are sent encoded. -/
inductive ClientCall where
  | enter (m : EnterOrderMsg) (arrivalTs : Nat)
  | replace (m : ReplaceOrderMsg) (arrivalTs : Nat)
  | cancel (m : CancelOrderMsg)
  | simulator (c : SimCall)
  | drain
  | clearReports
  | clearEvents

/-- What a call means. -/
def ClientCall.meaning : ClientCall → GatewayCall
  | enter m arrivalTs => .enter m.wire arrivalTs
  | replace m arrivalTs => .replace m.wire arrivalTs
  | cancel m => .cancel m.wire
  | simulator c => .simulator c
  | drain => .drain
  | clearReports => .clearReports
  | clearEvents => .clearEvents

/-- A gateway and the buffer its drains fill. -/
structure Link (k : Nat) where
  gateway : OuchGateway k
  outBytes : List UInt8 := []
  offsets : List Nat := []

namespace Link

variable {k : Nat}

/-- A call whose buffer is turned down changes nothing. -/
def sent {α : Type} (l : Link k) : Option (α × OuchGateway k) → Link k
  | none => l
  | some r => { l with gateway := r.2 }

def call (cfg : SimConfig) (l : Link k) : ClientCall → Link k
  | .enter m arrivalTs => l.sent (l.gateway.submitEnterBytes cfg (encodeEnterOrder m) arrivalTs)
  | .replace m arrivalTs => l.sent (l.gateway.submitReplaceBytes (encodeReplaceOrder m) arrivalTs)
  | .cancel m => l.sent (l.gateway.submitCancelBytes (encodeCancelOrder m))
  | .drain =>
      let r := l.gateway.drainOutboundContiguous l.outBytes l.offsets
      { gateway := r.2, outBytes := r.1.1, offsets := r.1.2 }
  | c => { l with gateway := (l.gateway.call cfg c.meaning).2 }

/-- The session as bytes go to and fro. -/
def run (cfg : SimConfig) (symbol : Symbol) (cs : List ClientCall) : Link k :=
  cs.foldl (call cfg) { gateway := .attach cfg symbol }

/-- The session as it is meant: the frames of all its drains, and the gateway at its end. -/
def meant (cfg : SimConfig) (symbol : Symbol) (cs : List ClientCall) :
    List OutboundFrame × OuchGateway k :=
  cs.foldl (fun r c => (r.1 ++ (r.2.call cfg c.meaning).1, (r.2.call cfg c.meaning).2))
    ([], .attach cfg symbol)

/-- Where each frame starts when the frames are laid end to end. -/
def starts (fs : List OutboundFrame) : List Nat :=
  (List.range fs.length).map fun i => ((fs.take i).flatMap OutboundFrame.encode).length

theorem starts_concat (fs : List OutboundFrame) (f : OutboundFrame) :
    starts (fs ++ [f]) = starts fs ++ [(fs.flatMap OutboundFrame.encode).length] := by
  unfold starts
  rw [List.length_append, List.length_singleton, List.range_succ, List.map_append,
    List.map_singleton, List.take_left]
  congr 1
  refine List.map_congr_left fun i hi => ?_
  rw [List.take_append_of_le_length (Nat.le_of_lt (List.mem_range.mp hi))]

/-- The buffers hold the frames `fs`. -/
structure Holds (l : Link k) (g : OuchGateway k) (fs : List OutboundFrame) : Prop where
  gateway : l.gateway = g
  bytes : l.outBytes = fs.flatMap OutboundFrame.encode
  offsets : l.offsets = starts fs

/-- What a drain does to the buffers, frame by frame. -/
theorem written (fs gs : List OutboundFrame) :
    gs.foldl (fun out f => (out.1 ++ f.encode, out.2 ++ [out.1.length]))
        (fs.flatMap OutboundFrame.encode, starts fs)
      = ((fs ++ gs).flatMap OutboundFrame.encode, starts (fs ++ gs)) := by
  induction gs generalizing fs with
  | nil => rw [List.append_nil]; rfl
  | cons f gs ih =>
      have hnext := ih (fs ++ [f])
      rw [starts_concat, List.flatMap_append, List.flatMap_singleton, List.append_assoc] at hnext
      exact hnext

variable {cfg : SimConfig} {l : Link k} {g : OuchGateway k} {fs : List OutboundFrame}

/-- **A call on the wire is the call that is meant.** -/
theorem Holds.call (h : Holds l g fs) (c : ClientCall) :
    Holds (l.call cfg c) (g.call cfg c.meaning).2 (fs ++ (g.call cfg c.meaning).1) := by
  obtain ⟨rfl, hbytes, hoff⟩ := h
  have hquiet : ∀ g' : OuchGateway k, Holds { l with gateway := g' } g' (fs ++ []) := by
    intro g'
    rw [List.append_nil]
    exact ⟨rfl, hbytes, hoff⟩
  cases c with
  | enter m arrivalTs =>
      obtain ⟨hview, hlen⟩ := view_encodeEnterOrder m
      have hlong : ¬ (encodeEnterOrder m).length < 49 := by rw [hlen]; decide
      rw [Link.call, OuchGateway.submitEnterBytes, if_neg hlong, hview]
      exact hquiet _
  | replace m arrivalTs =>
      obtain ⟨hview, hlen⟩ := view_encodeReplaceOrder m
      have hlong : ¬ (encodeReplaceOrder m).length < 47 := by rw [hlen]; decide
      rw [Link.call, OuchGateway.submitReplaceBytes, if_neg hlong, hview]
      exact hquiet _
  | cancel m =>
      obtain ⟨hview, hlen⟩ := view_encodeCancelOrder m
      have hlong : ¬ (encodeCancelOrder m).length < 19 := by rw [hlen]; decide
      rw [Link.call, OuchGateway.submitCancelBytes, if_neg hlong, hview]
      exact hquiet _
  | drain =>
      rw [Link.call, OuchGateway.drainOutboundContiguous, hbytes, hoff]
      dsimp only
      rw [written]
      exact ⟨rfl, rfl, rfl⟩
  | simulator c => exact hquiet _
  | clearReports => exact hquiet _
  | clearEvents => exact hquiet _

theorem run_holds (cfg : SimConfig) (symbol : Symbol) (cs : List ClientCall) :
    Holds (run (k := k) cfg symbol cs) (meant cfg symbol cs).2
      (meant (k := k) cfg symbol cs).1 := by
  have hfold : ∀ (cs : List ClientCall) (l : Link k) (r : List OutboundFrame × OuchGateway k),
      Holds l r.2 r.1 → Holds (cs.foldl (call cfg) l)
        (cs.foldl (fun r c => (r.1 ++ (r.2.call cfg c.meaning).1, (r.2.call cfg c.meaning).2)) r).2
        (cs.foldl (fun r c => (r.1 ++ (r.2.call cfg c.meaning).1, (r.2.call cfg c.meaning).2))
          r).1 := by
    intro cs
    induction cs with
    | nil => exact fun _ _ h => h
    | cons c cs ih => exact fun l r h => ih _ _ (h.call c)
  exact hfold cs _ _ ⟨rfl, rfl, rfl⟩

/-- The link has carried the frames `fs` and left the gateway `g`. -/
structure Carried (l : Link k) (g : OuchGateway k) (fs : List OutboundFrame) : Prop where
  gateway : l.gateway = g
  offsets : l.offsets = starts fs
  /-- Of whatever part of the buffer a client has, it reads the frames that are there in full. -/
  reads : ∀ n, ∃ m, m ≤ fs.length
    ∧ (m < fs.length → n < ((fs.take (m + 1)).flatMap OutboundFrame.encode).length)
    ∧ (PacketStream.split outboundFrameLength n (l.outBytes.take n)).1.map OutboundFrame.view
      = (fs.take m).map fun f => some f.fit
  length : l.outBytes.length = (fs.flatMap OutboundFrame.encode).length

theorem Holds.carried (h : Holds l g fs) : Carried l g fs where
  gateway := h.gateway
  offsets := h.offsets
  reads n := by
    have hpackets : ∀ p ∈ fs.map OutboundFrame.encode,
        PacketStream.Packet outboundFrameLength p := by
      intro p hp
      obtain ⟨f, _, rfl⟩ := List.mem_map.mp hp
      exact f.packet_encode
    obtain ⟨m, hm, hsplit, hcut⟩ := PacketStream.split_take hpackets n
    rw [List.length_map] at hm hcut
    refine ⟨m, hm, fun hlt => ?_, ?_⟩
    · rw [List.flatMap_def, List.map_take]
      exact hcut hlt
    · rw [h.bytes, List.flatMap_def, hsplit, ← List.map_take, List.map_map]
      exact List.map_congr_left fun f _ => f.view_encode
  length := by rw [h.bytes]

/--
**The wire carries a session.**

For every session, with the client's messages sent as bytes and the drains written to one
buffer, the gateway ends as it would if it had been called directly, every offset is the
start of its frame, and a client that has any part of the buffer reads from it exactly
the frames that are there in full, each with the fields it was written with, cut to their
widths on the wire.
-/
theorem wire_carries (cfg : SimConfig) (symbol : Symbol) (cs : List ClientCall) :
    Carried (run (k := k) cfg symbol cs) (meant cfg symbol cs).2 (meant (k := k) cfg symbol cs).1 :=
  (run_holds cfg symbol cs).carried

end Link

end Ouch

end Mog
