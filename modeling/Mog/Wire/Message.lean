import Mog.Book.Types

/-!
# The wire messages of the book

The seven ITCH message types that change a book, and the scalar reference decoder.
Every field is big-endian at a fixed offset; a decoded message keeps unsigned fields
as `Nat` and share counts and prices as `Int`, as the source widens them.
-/

namespace Mog

/-- Why a buffer is not a message. -/
inductive DecodeError where
  | truncated
  | unknownType
  | invalidSide
  | invalidSymbol
deriving DecidableEq, Repr

namespace Wire

/-! ## Reading a buffer -/

def kHeaderSize : Nat := 11
def kAddOrderSize : Nat := 36
def kAddOrderAttributionSize : Nat := 40
def kOrderExecutedSize : Nat := 31
def kOrderExecutedWithPriceSize : Nat := 36
def kOrderCancelSize : Nat := 23
def kOrderDeleteSize : Nat := 19
def kOrderReplaceSize : Nat := 35

/-- The number a big-endian byte string stands for. -/
def loadBe (l : List UInt8) : Nat := l.foldl (fun n c => n * 256 + c.toNat) 0

/-- The `n` bytes of a buffer at offset `off`. -/
def bytesAt (buf : List UInt8) (off n : Nat) : List UInt8 := (buf.drop off).take n

/-- The two bytes at `off`, most significant first. -/
def be16 (buf : List UInt8) (off : Nat) : Nat := loadBe (bytesAt buf off 2)
/-- The four bytes at `off`. -/
def be32 (buf : List UInt8) (off : Nat) : Nat := loadBe (bytesAt buf off 4)
/-- The six bytes at `off`: a time of day in nanoseconds. -/
def be48 (buf : List UInt8) (off : Nat) : Nat := loadBe (bytesAt buf off 6)
/-- The eight bytes at `off`. -/
def be64 (buf : List UInt8) (off : Nat) : Nat := loadBe (bytesAt buf off 8)

/-- The character at an offset. -/
def charAt (buf : List UInt8) (off : Nat) : UInt8 := buf.getD off 0

/-- A byte string read in any base-256 position stays below its width. -/
theorem foldl_lt (l : List UInt8) : ∀ n,
    l.foldl (fun n c => n * 256 + c.toNat) n < (n + 1) * 256 ^ l.length := by
  induction l with
  | nil => intro n; simp
  | cons c l ih =>
      intro n
      have hc : c.toNat < 256 := c.toNat_lt
      calc (c :: l).foldl (fun n c => n * 256 + c.toNat) n
          < (n * 256 + c.toNat + 1) * 256 ^ l.length := ih _
        _ ≤ ((n + 1) * 256) * 256 ^ l.length := Nat.mul_le_mul_right _ (by omega)
        _ = (n + 1) * 256 ^ (c :: l).length := by
            rw [List.length_cons, pow_succ, Nat.mul_assoc, Nat.mul_comm 256]

/-- A field of at most `w` bytes fits `w` bytes. -/
theorem loadBe_lt {l : List UInt8} {w : Nat} (hl : l.length ≤ w) : loadBe l < 256 ^ w := by
  have h := foldl_lt l 0
  rw [Nat.zero_add, Nat.one_mul] at h
  exact Nat.lt_of_lt_of_le h (Nat.pow_le_pow_right (by decide) hl)

/-- A field of four bytes is below `2 ^ 32`, wherever the buffer ends. -/
theorem be32_lt (buf : List UInt8) (off : Nat) : be32 buf off < 2 ^ 32 :=
  loadBe_lt (w := 4) (List.length_take_le _ _)

/-- A field of eight bytes is below `2 ^ 64`, wherever the buffer ends. -/
theorem be64_lt (buf : List UInt8) (off : Nat) : be64 buf off < 2 ^ 64 :=
  loadBe_lt (w := 8) (List.length_take_le _ _)

end Wire

/-! ## The messages -/

/-- What every message starts with, behind its type. -/
structure Header where
  locate : Nat
  tracking : Nat
  tsNs : Nat
deriving DecidableEq, Repr

/-- An order is added to the book, without the name of its participant. -/
structure AddOrderMsg where
  header : Header
  orderRef : Nat
  side : Side
  shares : Int
  stock : List UInt8
  price : Int
deriving DecidableEq, Repr

/-- An order is added to the book under the name of its participant. -/
structure AddOrderAttributionMsg where
  header : Header
  orderRef : Nat
  side : Side
  shares : Int
  stock : List UInt8
  price : Int
  attribution : List UInt8
deriving DecidableEq, Repr

/-- Shares of an order are executed at its own price. -/
structure OrderExecutedMsg where
  header : Header
  orderRef : Nat
  executedShares : Int
  matchNumber : Nat
deriving DecidableEq, Repr

/-- Shares of an order are executed at another price; `printable` says whether the trade is printed.
-/
structure OrderExecutedWithPriceMsg where
  header : Header
  orderRef : Nat
  executedShares : Int
  matchNumber : Nat
  printable : Bool
  executionPrice : Int
deriving DecidableEq, Repr

/-- Shares of an order are taken back. -/
structure OrderCancelMsg where
  header : Header
  orderRef : Nat
  cancelledShares : Int
deriving DecidableEq, Repr

/-- What is left of an order is taken back. -/
structure OrderDeleteMsg where
  header : Header
  orderRef : Nat
deriving DecidableEq, Repr

/-- An order is taken out and added again under another reference. -/
structure OrderReplaceMsg where
  header : Header
  originalOrderRef : Nat
  newOrderRef : Nat
  shares : Int
  price : Int
deriving DecidableEq, Repr

/-- A message: its type and the payload the type selects. -/
inductive Message where
  | addOrder (m : AddOrderMsg)
  | addOrderAttribution (m : AddOrderAttributionMsg)
  | orderExecuted (m : OrderExecutedMsg)
  | orderExecutedWithPrice (m : OrderExecutedWithPriceMsg)
  | orderCancel (m : OrderCancelMsg)
  | orderDelete (m : OrderDeleteMsg)
  | orderReplace (m : OrderReplaceMsg)
deriving DecidableEq, Repr

namespace Wire

/-! ## The decoder -/

/-- `side_from_wire`: `B` and `S` name a side; any other byte is the source's `Side('?')`. -/
def sideFromWire (c : UInt8) : Option Side :=
  if c = 66 then some .buy else if c = 83 then some .sell else none

/-- The fields of the header, behind the type. -/
def decodeHeader (buf : List UInt8) : Header :=
  { locate := be16 buf 1, tracking := be16 buf 3, tsNs := be48 buf 5 }

/-- `check_and_wrap`: a message with a side other than `B` and `S` is refused. -/
def checkAndWrap {α : Type} (f : Side → α) (wireSide : UInt8) : Except DecodeError α :=
  match sideFromWire wireSide with
  | some s => .ok (f s)
  | none => .error .invalidSide

/-- Type `A`. -/
def decodeAddOrder (buf : List UInt8) : Except DecodeError AddOrderMsg :=
  if buf.length < kAddOrderSize then .error .truncated
  else
    checkAndWrap (fun side =>
      { header := decodeHeader buf, orderRef := be64 buf 11, side, shares := be32 buf 20
        stock := bytesAt buf 24 8, price := be32 buf 32 }) (charAt buf 19)

/-- Type `F`: the fields of type `A`, and the participant's four bytes. -/
def decodeAddOrderAttribution (buf : List UInt8) : Except DecodeError AddOrderAttributionMsg :=
  if buf.length < kAddOrderAttributionSize then .error .truncated
  else
    checkAndWrap (fun side =>
      { header := decodeHeader buf, orderRef := be64 buf 11, side, shares := be32 buf 20
        stock := bytesAt buf 24 8, price := be32 buf 32, attribution := bytesAt buf 36 4 })
      (charAt buf 19)

/-- Type `E`. -/
def decodeOrderExecuted (buf : List UInt8) : Except DecodeError OrderExecutedMsg :=
  if buf.length < kOrderExecutedSize then .error .truncated
  else
    .ok { header := decodeHeader buf, orderRef := be64 buf 11, executedShares := be32 buf 19
          matchNumber := be64 buf 23 }

/-- Type `C`: printable if the byte behind the match number is `Y`. -/
def decodeOrderExecutedWithPrice (buf : List UInt8) :
    Except DecodeError OrderExecutedWithPriceMsg :=
  if buf.length < kOrderExecutedWithPriceSize then .error .truncated
  else
    .ok { header := decodeHeader buf, orderRef := be64 buf 11, executedShares := be32 buf 19
          matchNumber := be64 buf 23, printable := charAt buf 31 = 89, executionPrice := be32 buf 32 }

/-- Type `X`. -/
def decodeOrderCancel (buf : List UInt8) : Except DecodeError OrderCancelMsg :=
  if buf.length < kOrderCancelSize then .error .truncated
  else .ok { header := decodeHeader buf, orderRef := be64 buf 11, cancelledShares := be32 buf 19 }

/-- Type `D`. -/
def decodeOrderDelete (buf : List UInt8) : Except DecodeError OrderDeleteMsg :=
  if buf.length < kOrderDeleteSize then .error .truncated
  else .ok { header := decodeHeader buf, orderRef := be64 buf 11 }

/-- Type `U`. -/
def decodeOrderReplace (buf : List UInt8) : Except DecodeError OrderReplaceMsg :=
  if buf.length < kOrderReplaceSize then .error .truncated
  else
    .ok { header := decodeHeader buf, originalOrderRef := be64 buf 11, newOrderRef := be64 buf 19
          shares := be32 buf 27, price := be32 buf 31 }

/-- The reference decoder: the first byte is the type. -/
def decodeMessage (buf : List UInt8) : Except DecodeError Message :=
  if buf.length < kHeaderSize then .error .truncated
  else if charAt buf 0 = 65 then (decodeAddOrder buf).map .addOrder
  else if charAt buf 0 = 70 then (decodeAddOrderAttribution buf).map .addOrderAttribution
  else if charAt buf 0 = 69 then (decodeOrderExecuted buf).map .orderExecuted
  else if charAt buf 0 = 67 then (decodeOrderExecutedWithPrice buf).map .orderExecutedWithPrice
  else if charAt buf 0 = 88 then (decodeOrderCancel buf).map .orderCancel
  else if charAt buf 0 = 68 then (decodeOrderDelete buf).map .orderDelete
  else if charAt buf 0 = 85 then (decodeOrderReplace buf).map .orderReplace
  else .error .unknownType

end Wire

end Mog
