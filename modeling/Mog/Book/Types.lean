import Mathlib.Algebra.Order.BigOperators.Group.List
import Mathlib.Algebra.Order.Ring.Int
import Mathlib.Data.Finset.Card
import Mathlib.Logic.Function.Basic

/-!
# The vocabulary of the book

Order references and slot indices are `Nat`, prices and quantities are `Int`:
signed 64-bit arithmetic in the source has no defined overflow, so it is exact
here. Where the source narrows to an unsigned width or wraps, the definitions say
so with an explicit remainder.

The errors and the tick are the source's own; a tick is a success unless its kind is the
sentinel of a failed call. The null slot is the largest 32-bit number, above every capacity that
is accepted. What is here is shared by every module of the book and says nothing about how a
call works.
-/

namespace Mog

/-- The index no slot has. -/
def kNullIndex : Nat := 0xFFFFFFFF

/-- The price that stands for "no tick" (`INT64_MAX`). -/
def kNoTick : Int := 0x7FFFFFFFFFFFFFFF

/-- `static_cast<std::uint32_t>` of a signed quantity. -/
def toU32 (q : Int) : Nat := (q % 2 ^ 32).toNat

/-- `static_cast<std::uint64_t>` of a signed quantity. -/
def toU64 (q : Int) : Nat := (q % 2 ^ 64).toNat

/-- `static_cast<std::int32_t>` of a signed quantity. -/
def toI32 (q : Int) : Int := (q + 2 ^ 31) % 2 ^ 32 - 2 ^ 31

/-- `static_cast<std::int64_t>` of an unsigned quantity. -/
def toI64 (n : Nat) : Int := ((n : Int) + 2 ^ 63) % 2 ^ 64 - 2 ^ 63

inductive Side where
  | buy
  | sell
deriving DecidableEq, Repr

namespace Side

/-- The other side. -/
def opp : Side → Side
  | buy => sell
  | sell => buy

@[simp] theorem opp_opp (s : Side) : s.opp.opp = s := by cases s <;> rfl

theorem opp_ne (s : Side) : s.opp ≠ s := by cases s <;> simp [opp]

end Side

inductive BookError where
  | unknownOrder
  | duplicateRef
  | overExecute
  | badQty
  | outOfBand
  | arenaFull
  | emptyLevel
  | pageExhausted
  | zeroRef
deriving DecidableEq, Repr

/-- The kind of a tick: a `BookEventKind`, or the sentinel `kTickError` of a failed call. -/
inductive TickKind where
  | added
  | reduced
  | removed
  | replaced
  | tickError
deriving DecidableEq, Repr

/-- The result of a book call. `side` and `error` are `none` where the source stores zero. -/
structure BookTick where
  priceTicks : Int := 0
  qty : Nat := 0
  kind : TickKind := .added
  side : Option Side := some .buy
  error : Option BookError := none
deriving DecidableEq, Repr

/-- A tick is a success unless it carries the error sentinel. -/
def BookTick.ok (t : BookTick) : Prop := t.kind ≠ .tickError

instance (t : BookTick) : Decidable t.ok := inferInstanceAs (Decidable (_ ≠ _))

/-- The tick of a failed call. -/
def tickError (e : BookError) : BookTick :=
  { priceTicks := 0, qty := 0, kind := .tickError, side := none, error := some e }

@[simp] theorem not_ok_tickError (e : BookError) : ¬ (tickError e).ok := by simp [BookTick.ok, tickError]

/-- A signed change of one level's total. -/
structure LevelDelta where
  priceTicks : Int
  qtyDelta : Int
  side : Side
deriving DecidableEq, Repr

/-- A resting order, with its links in the level's queue. -/
structure Order where
  orderRef : Nat := 0
  qtyRemaining : Int := 0
  priceTicks : Int := 0
  prev : Nat := kNullIndex
  next : Nat := kNullIndex
  side : Side := .buy
deriving DecidableEq, Repr, Inhabited

end Mog
