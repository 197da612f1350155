import Mathlib.Algebra.Group.Nat.Defs
import Mathlib.Logic.Function.Basic
import Mathlib.Logic.Relation
import Mog.Lib.BoundedFifo

/-!
# The SPSC ring

`try_push` and `try_pop` as the loads, slot accesses and stores they are made of, each a
step of its own. A thread keeps its place between two steps in its program counter; a cached
cursor is private to its thread and is read and written along with the step that decides on
it. The log of what was pushed and popped is no part of the ring: it is written where a call
publishes its cursor.
-/

namespace Mog

open BoundedFifo

/-- The ring's memory; `2 ^ e` slots. Cursors are 64-bit and never reduced to the capacity. -/
structure SpscRing (τ : Type) (e : Nat) where
  /-- The consumer's cursor. -/
  head : Nat := 0
  /-- The producer's cursor. -/
  tail : Nat := 0
  /-- Written by the producer. -/
  headCache : Nat := 0
  /-- Written by the consumer. -/
  tailCache : Nat := 0
  slots : Nat → τ

namespace SpscRing

variable {τ : Type} {e : Nat}

def kCapacity (e : Nat) : Nat := 2 ^ e

def kMask (e : Nat) : Nat := kCapacity e - 1

/-- `t - head_cache_ >= kCapacity`. -/
def looksFull (r : SpscRing τ e) (t : Nat) : Prop :=
  kCapacity e ≤ (t + 2 ^ 64 - r.headCache) % 2 ^ 64

instance (r : SpscRing τ e) (t : Nat) : Decidable (r.looksFull t) := inferInstanceAs (Decidable (_ ≤ _))

/-- `h >= tail_cache_`. -/
def looksEmpty (r : SpscRing τ e) (h : Nat) : Prop := r.tailCache ≤ h

instance (r : SpscRing τ e) (h : Nat) : Decidable (r.looksEmpty h) := inferInstanceAs (Decidable (_ ≤ _))

end SpscRing

/-- Where the producer stands: outside a call, which has returned `ok`, or at its next access. -/
inductive PushPc (τ : Type) where
  | returned (ok : Bool)
  | loadTail (v : τ)
  | loadHead (v : τ) (t : Nat)
  | writeSlot (v : τ) (t : Nat)
  | storeTail (v : τ) (t : Nat)
deriving DecidableEq

/-- Where the consumer stands. -/
inductive PopPc (τ : Type) where
  | returned (ok : Bool)
  | loadHead
  | loadTail (h : Nat)
  | readSlot (h : Nat)
  | storeHead (out : τ) (h : Nat)
deriving DecidableEq

/-- A ring with the two threads that use it, and the log of what has passed through it. -/
structure RingSystem (τ : Type) (e : Nat) where
  ring : SpscRing τ e
  producer : PushPc τ := .returned true
  consumer : PopPc τ := .returned true
  log : Log τ := {}

namespace RingSystem

variable {τ : Type} {e : Nat} (s : RingSystem τ e)

def init [Inhabited τ] : RingSystem τ e := { ring := { slots := fun _ => default } }

/-- The next access of `try_push`. -/
def produce : RingSystem τ e :=
  match s.producer with
  | .returned _ => s
  | .loadTail v =>
      let t := s.ring.tail
      { s with producer := if s.ring.looksFull t then .loadHead v t else .writeSlot v t }
  | .loadHead v t =>
      let ring := { s.ring with headCache := s.ring.head }
      { s with ring, producer := if ring.looksFull t then .returned false else .writeSlot v t }
  | .writeSlot v t =>
      { s with
        ring := { s.ring with slots := Function.update s.ring.slots (t &&& SpscRing.kMask e) v }
        producer := .storeTail v t }
  | .storeTail v t =>
      { s with
        ring := { s.ring with tail := (t + 1) % 2 ^ 64 }
        producer := .returned true
        log := { s.log with pushed := s.log.pushed ++ [v] } }

/-- The next access of `try_pop`. -/
def consume : RingSystem τ e :=
  match s.consumer with
  | .returned _ => s
  | .loadHead =>
      let h := s.ring.head
      { s with consumer := if s.ring.looksEmpty h then .loadTail h else .readSlot h }
  | .loadTail h =>
      let ring := { s.ring with tailCache := s.ring.tail }
      { s with ring, consumer := if ring.looksEmpty h then .returned false else .readSlot h }
  | .readSlot h => { s with consumer := .storeHead (s.ring.slots (h &&& SpscRing.kMask e)) h }
  | .storeHead out h =>
      { s with
        ring := { s.ring with head := (h + 1) % 2 ^ 64 }
        consumer := .returned true
        log := { s.log with popped := s.log.popped ++ [out] } }

/-- One step of either thread. A cache may also fall back to any older value at any time. -/
inductive Step : RingSystem τ e → RingSystem τ e → Prop where
  /-- The producer calls `try_push(v)`. -/
  | push (s : RingSystem τ e) (ok : Bool) (v : τ) (h : s.producer = .returned ok) :
      Step s { s with producer := .loadTail v }
  | produce (s : RingSystem τ e) : Step s s.produce
  /-- The consumer calls `try_pop`. -/
  | pop (s : RingSystem τ e) (ok : Bool) (h : s.consumer = .returned ok) :
      Step s { s with consumer := .loadHead }
  | consume (s : RingSystem τ e) : Step s s.consume
  | forgetHead (s : RingSystem τ e) (n : Nat) (h : n ≤ s.ring.headCache) :
      Step s { s with ring := { s.ring with headCache := n } }
  | forgetTail (s : RingSystem τ e) (n : Nat) (h : n ≤ s.ring.tailCache) :
      Step s { s with ring := { s.ring with tailCache := n } }

/-- The states that any interleaving of the two threads can reach. -/
def Reachable [Inhabited τ] (s : RingSystem τ e) : Prop := Relation.ReflTransGen Step init s

/-- The producer is inside a call of `try_push`. -/
def Pushing : Prop := ∀ ok, s.producer ≠ .returned ok

/-- The consumer is inside a call of `try_pop`. -/
def Popping : Prop := ∀ ok, s.consumer ≠ .returned ok

/-- `kCapacity` values are inside. -/
def Full : Prop := s.log.queue.length = SpscRing.kCapacity e

def Empty : Prop := s.log.queue = []

end RingSystem

end Mog
