import Mathlib.Data.List.GetD
import Mathlib.Tactic.Ring
import Mog.Wire.Message

/-!
# The wire codecs

The encoders of the seven message types, against the reference decoder. A frame is
its fields one after the other, so a decoder reads each field back where the encoder
put it, and an encoder writes back the bytes each field was read from.

Both directions are proved from the same facts about fields: a number of `w` bytes is stored and
loaded back when it is in range, and the ranges of a frame lie one behind the other. What is in
wire range is a predicate on messages, the width of each field; anything a decoder returns is in
it.
-/

namespace Mog

namespace Wire

/-! ## Big-endian fields -/

/-- The low `n` bytes of `v`, the most significant first. -/
def storeBe : Nat → Nat → List UInt8
  | 0, _ => []
  | n + 1, v => storeBe n (v / 256) ++ [UInt8.ofNat v]

@[simp] theorem storeBe_length (n v : Nat) : (storeBe n v).length = n := by
  induction n generalizing v with
  | zero => rfl
  | succ n ih => rw [storeBe, List.length_append, ih, List.length_singleton]

theorem loadBe_append (a b : List UInt8) :
    loadBe (a ++ b) = loadBe a * 256 ^ b.length + loadBe b := by
  induction b using List.reverseRecOn with
  | nil => simp [loadBe]
  | append_singleton b c ih =>
      have hsnoc : ∀ l : List UInt8, loadBe (l ++ [c]) = loadBe l * 256 + c.toNat :=
        fun l => by rw [loadBe, List.foldl_append]; rfl
      rw [← List.append_assoc, hsnoc, hsnoc, ih, List.length_append, List.length_singleton,
        pow_succ]
      ring

theorem loadBe_storeBe (n v : Nat) : loadBe (storeBe n v) = v % 256 ^ n := by
  induction n generalizing v with
  | zero => simp [storeBe, loadBe, Nat.mod_one]
  | succ n ih =>
      have hlast : loadBe [UInt8.ofNat v] = v % 256 := by simp [loadBe]
      rw [storeBe, loadBe_append, ih, hlast, List.length_singleton, pow_one, pow_succ',
        Nat.mod_mul]
      ring

/-- A field that fits its width is read back. -/
theorem loadBe_storeBe_of_lt {n v : Nat} (h : v < 256 ^ n) : loadBe (storeBe n v) = v := by
  rw [loadBe_storeBe, Nat.mod_eq_of_lt h]

/-- A field that was read is written back. -/
theorem storeBe_loadBe (l : List UInt8) : storeBe l.length (loadBe l) = l := by
  induction l using List.reverseRecOn with
  | nil => rfl
  | append_singleton l c ih =>
      have hc : c.toNat < 256 := c.toNat_lt
      have hsnoc : loadBe (l ++ [c]) = loadBe l * 256 + c.toNat := by
        rw [loadBe, List.foldl_append]
        rfl
      have hdiv : (loadBe l * 256 + c.toNat) / 256 = loadBe l := by omega
      have hlast : UInt8.ofNat (loadBe l * 256 + c.toNat) = c := by
        apply UInt8.toNat_inj.mp
        rw [UInt8.toNat_ofNat']
        omega
      rw [List.length_append, List.length_singleton, storeBe, hsnoc, hdiv, ih, hlast]

/-! ## Where a field lies -/

theorem bytesAt_append_left {a b : List UInt8} {off n : Nat} (h : off + n ≤ a.length) :
    bytesAt (a ++ b) off n = bytesAt a off n := by
  unfold bytesAt
  rw [List.drop_append_of_le_length (by omega), List.take_append_of_le_length]
  rw [List.length_drop]
  omega

theorem bytesAt_append_right {a b : List UInt8} {off n : Nat} (h : a.length ≤ off) :
    bytesAt (a ++ b) off n = bytesAt b (off - a.length) n := by
  unfold bytesAt
  rw [List.drop_append, List.drop_of_length_le h, List.nil_append]

theorem bytesAt_cons {c : UInt8} {l : List UInt8} {off n : Nat} (h : 0 < off) :
    bytesAt (c :: l) off n = bytesAt l (off - 1) n :=
  bytesAt_append_right (a := [c]) h

/-- The field at the front. -/
theorem bytesAt_front {a b : List UInt8} {n : Nat} (h : a.length = n) :
    bytesAt (a ++ b) 0 n = a := by
  rw [bytesAt, List.drop_zero, ← h, List.take_left']
  rfl

theorem bytesAt_zero {l : List UInt8} {n : Nat} (h : l.length = n) : bytesAt l 0 n = l := by
  rw [bytesAt, List.drop_zero, ← h, List.take_length]

theorem bytesAt_length {l : List UInt8} {off n : Nat} (h : off + n ≤ l.length) :
    (bytesAt l off n).length = n := by
  rw [bytesAt, List.length_take, List.length_drop]
  omega

/-- Two fields next to each other are one. -/
theorem bytesAt_join (l : List UInt8) (off m n : Nat) :
    bytesAt l off m ++ bytesAt l (off + m) n = bytesAt l off (m + n) := by
  unfold bytesAt
  rw [List.take_add, List.drop_drop]

theorem charAt_append_left {a b : List UInt8} {off : Nat} (h : off < a.length) :
    charAt (a ++ b) off = charAt a off := by
  rw [charAt, charAt, List.getD_append _ _ _ _ h]

theorem charAt_append_right {a b : List UInt8} {off : Nat} (h : a.length ≤ off) :
    charAt (a ++ b) off = charAt b (off - a.length) := by
  rw [charAt, charAt, List.getD_append_right _ _ _ _ h]

theorem charAt_front (c : UInt8) (l : List UInt8) : charAt (c :: l) 0 = c := rfl

/-- A field of one byte. -/
theorem bytesAt_one {l : List UInt8} {off : Nat} (h : off < l.length) :
    bytesAt l off 1 = [charAt l off] := by
  rw [bytesAt, List.drop_eq_getElem_cons h, List.take_succ_cons, List.take_zero, charAt,
    List.getD_eq_getElem _ _ h]

/-! ## The encoders -/

def toWire : Side → UInt8
  | .buy => 66
  | .sell => 83

def storeHeader (type : UInt8) (h : Header) : List UInt8 :=
  [type] ++ storeBe 2 h.locate ++ storeBe 2 h.tracking ++ storeBe 6 h.tsNs

def encodeAddOrder (m : AddOrderMsg) : List UInt8 :=
  storeHeader 65 m.header ++ storeBe 8 m.orderRef ++ [toWire m.side] ++ storeBe 4 (toU32 m.shares)
    ++ m.stock ++ storeBe 4 (toU32 m.price)

def encodeAddOrderAttribution (m : AddOrderAttributionMsg) : List UInt8 :=
  storeHeader 70 m.header ++ storeBe 8 m.orderRef ++ [toWire m.side] ++ storeBe 4 (toU32 m.shares)
    ++ m.stock ++ storeBe 4 (toU32 m.price) ++ m.attribution

def encodeOrderExecuted (m : OrderExecutedMsg) : List UInt8 :=
  storeHeader 69 m.header ++ storeBe 8 m.orderRef ++ storeBe 4 (toU32 m.executedShares)
    ++ storeBe 8 m.matchNumber

def encodeOrderExecutedWithPrice (m : OrderExecutedWithPriceMsg) : List UInt8 :=
  storeHeader 67 m.header ++ storeBe 8 m.orderRef ++ storeBe 4 (toU32 m.executedShares)
    ++ storeBe 8 m.matchNumber ++ [if m.printable then 89 else 78]
    ++ storeBe 4 (toU32 m.executionPrice)

def encodeOrderCancel (m : OrderCancelMsg) : List UInt8 :=
  storeHeader 88 m.header ++ storeBe 8 m.orderRef ++ storeBe 4 (toU32 m.cancelledShares)

def encodeOrderDelete (m : OrderDeleteMsg) : List UInt8 :=
  storeHeader 68 m.header ++ storeBe 8 m.orderRef

def encodeOrderReplace (m : OrderReplaceMsg) : List UInt8 :=
  storeHeader 85 m.header ++ storeBe 8 m.originalOrderRef ++ storeBe 8 m.newOrderRef
    ++ storeBe 4 (toU32 m.shares) ++ storeBe 4 (toU32 m.price)

/-- The encoder that a message's type selects. -/
def encode : Message → List UInt8
  | .addOrder m => encodeAddOrder m
  | .addOrderAttribution m => encodeAddOrderAttribution m
  | .orderExecuted m => encodeOrderExecuted m
  | .orderExecutedWithPrice m => encodeOrderExecutedWithPrice m
  | .orderCancel m => encodeOrderCancel m
  | .orderDelete m => encodeOrderDelete m
  | .orderReplace m => encodeOrderReplace m

end Wire

/-! ## Fields in wire range -/

structure Header.InRange (h : Header) : Prop where
  locate : h.locate < 2 ^ 16
  tracking : h.tracking < 2 ^ 16
  tsNs : h.tsNs < 2 ^ 48

/-- A share count or a price that the wire can carry. -/
def WireInt (q : Int) : Prop := 0 ≤ q ∧ q < 2 ^ 32

/-- Every field of a message fits its place on the wire. -/
def Message.InRange : Message → Prop
  | .addOrder m => m.header.InRange ∧ m.orderRef < 2 ^ 64 ∧ WireInt m.shares ∧ m.stock.length = 8
      ∧ WireInt m.price
  | .addOrderAttribution m => m.header.InRange ∧ m.orderRef < 2 ^ 64 ∧ WireInt m.shares
      ∧ m.stock.length = 8 ∧ WireInt m.price ∧ m.attribution.length = 4
  | .orderExecuted m => m.header.InRange ∧ m.orderRef < 2 ^ 64 ∧ WireInt m.executedShares
      ∧ m.matchNumber < 2 ^ 64
  | .orderExecutedWithPrice m => m.header.InRange ∧ m.orderRef < 2 ^ 64 ∧ WireInt m.executedShares
      ∧ m.matchNumber < 2 ^ 64 ∧ WireInt m.executionPrice
  | .orderCancel m => m.header.InRange ∧ m.orderRef < 2 ^ 64 ∧ WireInt m.cancelledShares
  | .orderDelete m => m.header.InRange ∧ m.orderRef < 2 ^ 64
  | .orderReplace m => m.header.InRange ∧ m.originalOrderRef < 2 ^ 64 ∧ m.newOrderRef < 2 ^ 64
      ∧ WireInt m.shares ∧ WireInt m.price

namespace Wire

@[simp] theorem storeHeader_length (type : UInt8) (h : Header) :
    (storeHeader type h).length = 11 := by
  simp [storeHeader]

theorem sideFromWire_toWire (s : Side) : sideFromWire (toWire s) = some s := by
  cases s <;> rfl

theorem toWire_of_sideFromWire {c : UInt8} {s : Side} (h : sideFromWire c = some s) :
    toWire s = c := by
  unfold sideFromWire at h
  split at h
  · cases h
    exact Eq.symm ‹_›
  · split at h
    · cases h
      exact Eq.symm ‹_›
    · exact absurd h (by simp)

/-- A field of shares or of a price is read back. -/
theorem loadBe_toU32 {q : Int} (h : WireInt q) : ((loadBe (storeBe 4 (toU32 q)) : Nat) : Int) = q := by
  obtain ⟨h0, h1⟩ := h
  rw [loadBe_storeBe, toU32]
  omega

/-- The header is read back from the front of a frame. -/
theorem decodeHeader_store {type : UInt8} {h : Header} (hr : h.InRange) (l : List UInt8) :
    decodeHeader (storeHeader type h ++ l) = h ∧ charAt (storeHeader type h ++ l) 0 = type := by
  obtain ⟨h1, h2, h3⟩ := hr
  have e1 : loadBe (storeBe 2 h.locate) = h.locate := loadBe_storeBe_of_lt h1
  have e2 : loadBe (storeBe 2 h.tracking) = h.tracking := loadBe_storeBe_of_lt h2
  have e3 : loadBe (storeBe 6 h.tsNs) = h.tsNs := loadBe_storeBe_of_lt h3
  constructor
  · simp [decodeHeader, be16, be48, storeHeader, bytesAt_cons, bytesAt_append_right,
      bytesAt_front, e1, e2, e3]
  · rfl

/-- **What is encoded is decoded**, whatever follows the frame. -/
theorem decodeMessage_encode (m : Message) (h : m.InRange) (rest : List UInt8) :
    decodeMessage (encode m ++ rest) = .ok m := by
  have r8 : ∀ {v : Nat}, v < 2 ^ 64 → loadBe (storeBe 8 v) = v :=
    fun hv => loadBe_storeBe_of_lt hv
  cases m with
  | addOrder m =>
      obtain ⟨hh, href, hq, hst, hp⟩ := h
      simp [encode, encodeAddOrder, decodeMessage, decodeAddOrder, checkAndWrap, Except.map,
        kHeaderSize, kAddOrderSize, be32, be64, decodeHeader_store hh, bytesAt_append_right,
        bytesAt_cons, bytesAt_front, charAt_append_right, charAt_front, sideFromWire_toWire, hst,
        r8 href, loadBe_toU32 hq, loadBe_toU32 hp]
      rw [if_neg (by omega)]
  | addOrderAttribution m =>
      obtain ⟨hh, href, hq, hst, hp, hat⟩ := h
      simp [encode, encodeAddOrderAttribution, decodeMessage, decodeAddOrderAttribution,
        checkAndWrap, Except.map, kHeaderSize, kAddOrderAttributionSize, be32, be64,
        decodeHeader_store hh, bytesAt_append_right, bytesAt_cons, bytesAt_front,
        charAt_append_right, charAt_front, sideFromWire_toWire, hst, hat, r8 href,
        loadBe_toU32 hq, loadBe_toU32 hp]
      rw [if_neg (by omega)]
  | orderExecuted m =>
      obtain ⟨hh, href, hq, hn⟩ := h
      simp [encode, encodeOrderExecuted, decodeMessage, decodeOrderExecuted, Except.map,
        kHeaderSize, kOrderExecutedSize, be32, be64, decodeHeader_store hh, bytesAt_append_right,
        bytesAt_front, r8 href, r8 hn, loadBe_toU32 hq]
      rw [if_neg (by omega)]
  | orderExecutedWithPrice m =>
      obtain ⟨hh, href, hq, hn, hp⟩ := h
      simp [encode, encodeOrderExecutedWithPrice, decodeMessage, decodeOrderExecutedWithPrice,
        Except.map, kHeaderSize, kOrderExecutedWithPriceSize, be32, be64, decodeHeader_store hh,
        bytesAt_append_right, bytesAt_cons, bytesAt_front, charAt_append_right, charAt_front,
        r8 href, r8 hn, loadBe_toU32 hq, loadBe_toU32 hp]
      rw [if_neg (by omega)]
  | orderCancel m =>
      obtain ⟨hh, href, hq⟩ := h
      simp [encode, encodeOrderCancel, decodeMessage, decodeOrderCancel, Except.map,
        kHeaderSize, kOrderCancelSize, be32, be64, decodeHeader_store hh, bytesAt_append_right,
        bytesAt_front, r8 href, loadBe_toU32 hq]
      rw [if_neg (by omega)]
  | orderDelete m =>
      obtain ⟨hh, href⟩ := h
      simp [encode, encodeOrderDelete, decodeMessage, decodeOrderDelete, Except.map,
        kHeaderSize, kOrderDeleteSize, be64, decodeHeader_store hh, bytesAt_append_right,
        bytesAt_front, r8 href]
      rw [if_neg (by omega)]
  | orderReplace m =>
      obtain ⟨hh, h1, h2, hq, hp⟩ := h
      simp [encode, encodeOrderReplace, decodeMessage, decodeOrderReplace, Except.map,
        kHeaderSize, kOrderReplaceSize, be32, be64, decodeHeader_store hh, bytesAt_append_right,
        bytesAt_front, r8 h1, r8 h2, loadBe_toU32 hq, loadBe_toU32 hp]
      rw [if_neg (by omega)]

/-! ## From bytes to a message and back -/

/-- The frame size that a message's type selects. -/
def frameSize : Message → Nat
  | .addOrder _ => kAddOrderSize
  | .addOrderAttribution _ => kAddOrderAttributionSize
  | .orderExecuted _ => kOrderExecutedSize
  | .orderExecutedWithPrice _ => kOrderExecutedWithPriceSize
  | .orderCancel _ => kOrderCancelSize
  | .orderDelete _ => kOrderDeleteSize
  | .orderReplace _ => kOrderReplaceSize

/-- The type byte of a message. -/
def typeByte : Message → UInt8
  | .addOrder _ => 65
  | .addOrderAttribution _ => 70
  | .orderExecuted _ => 69
  | .orderExecutedWithPrice _ => 67
  | .orderCancel _ => 88
  | .orderDelete _ => 68
  | .orderReplace _ => 85

/-- The codec of a message's type reads the message from `b`. -/
def Reads (b : List UInt8) : Message → Prop
  | .addOrder m => decodeAddOrder b = .ok m
  | .addOrderAttribution m => decodeAddOrderAttribution b = .ok m
  | .orderExecuted m => decodeOrderExecuted b = .ok m
  | .orderExecutedWithPrice m => decodeOrderExecutedWithPrice b = .ok m
  | .orderCancel m => decodeOrderCancel b = .ok m
  | .orderDelete m => decodeOrderDelete b = .ok m
  | .orderReplace m => decodeOrderReplace b = .ok m

/-- No codec reads from less than a frame. -/
theorem Reads.size_le {b : List UInt8} {m : Message} (h : Reads b m) : frameSize m ≤ b.length := by
  by_contra hlt
  rw [Nat.not_le] at hlt
  cases m <;>
    simp [Reads, frameSize, decodeAddOrder, decodeAddOrderAttribution, decodeOrderExecuted,
      decodeOrderExecutedWithPrice, decodeOrderCancel, decodeOrderDelete, decodeOrderReplace]
      at h hlt <;>
    rw [if_pos hlt] at h <;> exact absurd h (by simp)

theorem map_eq_ok {ε α β : Type} {x : Except ε α} {f : α → β} {y : β} :
    x.map f = .ok y ↔ ∃ a, x = .ok a ∧ f a = y := by
  cases x with
  | error e => simp [Except.map]
  | ok a => simp [Except.map]

/-- **What the decoder accepts**: a type byte that it knows, and a whole frame of that type. -/
theorem decodeMessage_eq_ok {b : List UInt8} {m : Message} :
    decodeMessage b = .ok m ↔ charAt b 0 = typeByte m ∧ Reads b m := by
  have hmin : ∀ m, kHeaderSize ≤ frameSize m := by
    intro m
    cases m <;> exact Nat.le_of_ble_eq_true rfl
  unfold decodeMessage
  constructor
  · intro h
    split_ifs at h
    all_goals
      obtain ⟨a, ha, rfl⟩ := map_eq_ok.mp h
      exact ⟨by assumption, ha⟩
  · rintro ⟨ht, hr⟩
    have hlen := Nat.le_trans (hmin m) hr.size_le
    rw [if_neg (Nat.not_lt.mpr hlen), ht]
    cases m <;> exact map_eq_ok.mpr ⟨_, hr, rfl⟩

theorem storeBe_bytesAt {b : List UInt8} {off n : Nat} (h : off + n ≤ b.length) :
    storeBe n (loadBe (bytesAt b off n)) = bytesAt b off n := by
  have hlen := bytesAt_length h
  calc storeBe n (loadBe (bytesAt b off n))
      = storeBe (bytesAt b off n).length (loadBe (bytesAt b off n)) := by rw [hlen]
    _ = bytesAt b off n := storeBe_loadBe _

/-- A field of shares or of a price is written back. -/
theorem storeBe_toU32 {b : List UInt8} {off : Nat} (h : off + 4 ≤ b.length) :
    storeBe 4 (toU32 (be32 b off)) = bytesAt b off 4 := by
  have hlt := be32_lt b off
  have hu : toU32 (be32 b off) = be32 b off := by
    unfold toU32
    omega
  rw [hu]
  exact storeBe_bytesAt h

theorem storeHeader_decodeHeader {b : List UInt8} {type : UInt8} (h : 11 ≤ b.length)
    (ht : charAt b 0 = type) : storeHeader type (decodeHeader b) = bytesAt b 0 11 := by
  have h1 : storeBe 2 (be16 b 1) = bytesAt b 1 2 := storeBe_bytesAt (by omega)
  have h2 : storeBe 2 (be16 b 3) = bytesAt b 3 2 := storeBe_bytesAt (by omega)
  have h3 : storeBe 6 (be48 b 5) = bytesAt b 5 6 := storeBe_bytesAt (by omega)
  rw [storeHeader, decodeHeader, ← ht, ← bytesAt_one (by omega), h1, h2, h3, bytesAt_join b 0 1 2,
    bytesAt_join b 0 3 2, bytesAt_join b 0 5 6]

/-- A message with a side is refused unless the side is `B` or `S`. -/
theorem checkAndWrap_eq_ok {α : Type} {f : Side → α} {c : UInt8} {a : α} :
    checkAndWrap f c = .ok a ↔ ∃ s, sideFromWire c = some s ∧ f s = a := by
  unfold checkAndWrap
  cases sideFromWire c with
  | none => simp
  | some s => simp

/-- The frame at the front of `b`, with a printable flag other than `Y` written as `N`. -/
def canonicalFrame (b : List UInt8) (n : Nat) : List UInt8 :=
  if charAt b 0 = 67 ∧ charAt b 31 ≠ 89 then (b.take n).set 31 78 else b.take n

/-- **What is decoded is encoded back**, but for a printable flag that the decoder reads as no. -/
theorem encode_decodeMessage {b : List UInt8} {m : Message} (h : decodeMessage b = .ok m) :
    encode m = canonicalFrame b (frameSize m) := by
  obtain ⟨ht, hr⟩ := decodeMessage_eq_ok.mp h
  have hlen := hr.size_le
  have htake : ∀ n, b.take n = bytesAt b 0 n := fun n => by rw [bytesAt, List.drop_zero]
  have hplain : ∀ n, charAt b 0 ≠ 67 → canonicalFrame b n = bytesAt b 0 n := by
    intro n hne
    rw [canonicalFrame, if_neg (fun hh => hne hh.1), htake]
  have h64 : ∀ off, off + 8 ≤ b.length → storeBe 8 (be64 b off) = bytesAt b off 8 :=
    fun off hoff => storeBe_bytesAt hoff
  have h32 : ∀ off, off + 4 ≤ b.length → storeBe 4 (toU32 (be32 b off)) = bytesAt b off 4 :=
    fun off hoff => storeBe_toU32 hoff
  -- One case for each message type. The fields of a frame stand one behind the other, so joining
  -- the byte ranges that the decoder read gives the frame back.
  cases m with
  | addOrder m =>
      simp only [Reads, decodeAddOrder] at hr
      replace ht : charAt b 0 = 65 := ht
      rw [if_neg (Nat.not_lt.mpr (show kAddOrderSize ≤ b.length from hlen))] at hr
      simp only [frameSize, kAddOrderSize] at hlen ⊢
      obtain ⟨s, hs, rfl⟩ := checkAndWrap_eq_ok.mp hr
      have hside : [toWire s] = bytesAt b 19 1 := by
        rw [bytesAt_one (by omega), toWire_of_sideFromWire hs]
      rw [hplain _ (by rw [ht]; decide), encode, encodeAddOrder,
        storeHeader_decodeHeader (by omega) ht, h64 11 (by omega), hside, h32 20 (by omega),
        h32 32 (by omega), bytesAt_join b 0 11 8, bytesAt_join b 0 19 1, bytesAt_join b 0 20 4,
        bytesAt_join b 0 24 8, bytesAt_join b 0 32 4]
  | addOrderAttribution m =>
      simp only [Reads, decodeAddOrderAttribution] at hr
      replace ht : charAt b 0 = 70 := ht
      rw [if_neg (Nat.not_lt.mpr (show kAddOrderAttributionSize ≤ b.length from hlen))] at hr
      simp only [frameSize, kAddOrderAttributionSize] at hlen ⊢
      obtain ⟨s, hs, rfl⟩ := checkAndWrap_eq_ok.mp hr
      have hside : [toWire s] = bytesAt b 19 1 := by
        rw [bytesAt_one (by omega), toWire_of_sideFromWire hs]
      rw [hplain _ (by rw [ht]; decide), encode, encodeAddOrderAttribution,
        storeHeader_decodeHeader (by omega) ht, h64 11 (by omega), hside, h32 20 (by omega),
        h32 32 (by omega), bytesAt_join b 0 11 8, bytesAt_join b 0 19 1, bytesAt_join b 0 20 4,
        bytesAt_join b 0 24 8, bytesAt_join b 0 32 4, bytesAt_join b 0 36 4]
  | orderExecuted m =>
      simp only [Reads, decodeOrderExecuted] at hr
      replace ht : charAt b 0 = 69 := ht
      rw [if_neg (Nat.not_lt.mpr (show kOrderExecutedSize ≤ b.length from hlen))] at hr
      simp only [frameSize, kOrderExecutedSize] at hlen ⊢
      cases hr
      rw [hplain _ (by rw [ht]; decide), encode, encodeOrderExecuted,
        storeHeader_decodeHeader (by omega) ht, h64 11 (by omega), h32 19 (by omega),
        h64 23 (by omega), bytesAt_join b 0 11 8, bytesAt_join b 0 19 4, bytesAt_join b 0 23 8]
  -- The printable flag is the one byte that is not given back as it came.
  | orderExecutedWithPrice m =>
      simp only [Reads, decodeOrderExecutedWithPrice] at hr
      replace ht : charAt b 0 = 67 := ht
      rw [if_neg (Nat.not_lt.mpr (show kOrderExecutedWithPriceSize ≤ b.length from hlen))] at hr
      simp only [frameSize, kOrderExecutedWithPriceSize] at hlen ⊢
      cases hr
      have hfront : bytesAt b 0 11 ++ bytesAt b 11 8 ++ bytesAt b 19 4 ++ bytesAt b 23 8
          = bytesAt b 0 31 := by
        rw [bytesAt_join b 0 11 8, bytesAt_join b 0 19 4, bytesAt_join b 0 23 8]
      have hsplit : bytesAt b 0 36 = bytesAt b 0 31 ++ [charAt b 31] ++ bytesAt b 32 4 := by
        rw [← bytesAt_one (by omega), bytesAt_join b 0 31 1, bytesAt_join b 0 32 4]
      have hcanon : canonicalFrame b 36
          = bytesAt b 0 31 ++ [if charAt b 31 = 89 then 89 else 78] ++ bytesAt b 32 4 := by
        by_cases hy : charAt b 31 = 89
        · rw [canonicalFrame, if_neg (fun hh => hh.2 hy), if_pos hy, htake, hsplit, hy]
        · rw [canonicalFrame, if_pos ⟨ht, hy⟩, if_neg hy, htake, hsplit, List.append_assoc,
            List.set_append_right _ _ (by rw [bytesAt_length (by omega)]),
            bytesAt_length (by omega), List.append_assoc]
          rfl
      rw [encode, encodeOrderExecutedWithPrice, storeHeader_decodeHeader (by omega) ht,
        h64 11 (by omega), h32 19 (by omega), h64 23 (by omega), h32 32 (by omega), hfront,
        hcanon]
      simp
  | orderCancel m =>
      simp only [Reads, decodeOrderCancel] at hr
      replace ht : charAt b 0 = 88 := ht
      rw [if_neg (Nat.not_lt.mpr (show kOrderCancelSize ≤ b.length from hlen))] at hr
      simp only [frameSize, kOrderCancelSize] at hlen ⊢
      cases hr
      rw [hplain _ (by rw [ht]; decide), encode, encodeOrderCancel,
        storeHeader_decodeHeader (by omega) ht, h64 11 (by omega), h32 19 (by omega),
        bytesAt_join b 0 11 8, bytesAt_join b 0 19 4]
  | orderDelete m =>
      simp only [Reads, decodeOrderDelete] at hr
      replace ht : charAt b 0 = 68 := ht
      rw [if_neg (Nat.not_lt.mpr (show kOrderDeleteSize ≤ b.length from hlen))] at hr
      simp only [frameSize, kOrderDeleteSize] at hlen ⊢
      cases hr
      rw [hplain _ (by rw [ht]; decide), encode, encodeOrderDelete,
        storeHeader_decodeHeader (by omega) ht, h64 11 (by omega), bytesAt_join b 0 11 8]
  | orderReplace m =>
      simp only [Reads, decodeOrderReplace] at hr
      replace ht : charAt b 0 = 85 := ht
      rw [if_neg (Nat.not_lt.mpr (show kOrderReplaceSize ≤ b.length from hlen))] at hr
      simp only [frameSize, kOrderReplaceSize] at hlen ⊢
      cases hr
      rw [hplain _ (by rw [ht]; decide), encode, encodeOrderReplace,
        storeHeader_decodeHeader (by omega) ht, h64 11 (by omega), h64 19 (by omega),
        h32 27 (by omega), h32 31 (by omega), bytesAt_join b 0 11 8, bytesAt_join b 0 19 8,
        bytesAt_join b 0 27 4, bytesAt_join b 0 31 4]

/-- A message in wire range takes a frame of its type's size. -/
theorem encode_length {m : Message} (h : m.InRange) : (encode m).length = frameSize m := by
  cases m with
  | addOrder m =>
      obtain ⟨-, -, -, hst, -⟩ := h
      simp [encode, encodeAddOrder, frameSize, kAddOrderSize, hst]
  | addOrderAttribution m =>
      obtain ⟨-, -, -, hst, -, hat⟩ := h
      simp [encode, encodeAddOrderAttribution, frameSize, kAddOrderAttributionSize, hst, hat]
  | orderExecuted m => simp [encode, encodeOrderExecuted, frameSize, kOrderExecutedSize]
  | orderExecutedWithPrice m =>
      simp [encode, encodeOrderExecutedWithPrice, frameSize, kOrderExecutedWithPriceSize]
  | orderCancel m => simp [encode, encodeOrderCancel, frameSize, kOrderCancelSize]
  | orderDelete m => simp [encode, encodeOrderDelete, frameSize, kOrderDeleteSize]
  | orderReplace m => simp [encode, encodeOrderReplace, frameSize, kOrderReplaceSize]

/-- **The codec round trip.** A message in wire range takes one frame and is read back from
it, whatever follows; an accepted buffer starts with the frame of what it was read as, but
for the printable flag of an execution with price. -/
theorem codec_round_trip :
    (∀ m : Message, m.InRange →
      (encode m).length = frameSize m ∧ ∀ rest, decodeMessage (encode m ++ rest) = .ok m) ∧
    (∀ (b : List UInt8) (m : Message), decodeMessage b = .ok m →
      encode m = canonicalFrame b (frameSize m)) := by
  constructor
  · intro m h
    exact ⟨encode_length h, decodeMessage_encode m h⟩
  · intro b m h
    exact encode_decodeMessage h

/-- A printed execution with a `y` for its flag is read as not printable and written with an `N`. -/
theorem codec_round_trip_lower_y :
    let m : Message := .orderDelete
      { header := { locate := 7, tracking := 2 ^ 16 - 1, tsNs := 2 ^ 48 - 1 }
        orderRef := 2 ^ 64 - 1 }
    let b : List UInt8 := [67, 0, 1, 0, 2, 0, 0, 0, 0, 3, 4, 0, 0, 0, 0, 0, 0, 0, 9, 255, 255, 255,
      255, 0, 0, 0, 0, 0, 0, 0, 5, 121, 0, 1, 134, 160, 88]
    let c : Message := .orderExecutedWithPrice
      { header := { locate := 1, tracking := 2, tsNs := 772 }
        orderRef := 9, executedShares := 4294967295, matchNumber := 5, printable := false
        executionPrice := 100000 }
    ((encode m).length = frameSize m ∧ decodeMessage (encode m ++ [1, 2]) = .ok m) ∧
      encode c = canonicalFrame b (frameSize c) := by
  intro m b c
  have hm : m.InRange := ⟨⟨by decide, by decide, by decide⟩, by decide⟩
  have hc : decodeMessage b = .ok c := by decide +kernel
  exact ⟨⟨(codec_round_trip.1 m hm).1, (codec_round_trip.1 m hm).2 [1, 2]⟩,
    codec_round_trip.2 b c hc⟩

end Wire

end Mog
