import Mathlib.Algebra.Group.Nat.Defs
import Mog.Lib.Threads
import Mog.Lib.WordScan

/-!
# The latency histogram

`record` as the atomic accesses it is made of: an increment of the bucket's count, then the loop
that raises the bucket's watermark by compare and exchange. A relaxed load may see any value that
its cell has held, a weak exchange may fail for no reason, and any number of threads record.

A cell's past is kept with it, newest value first, since that is what a relaxed load chooses
from. Two more logs, of the ticks counted and the ticks recorded, say how far the calls have
got; the program does not read them. The count of a bucket is a 64-bit number that wraps.
-/

namespace Mog

open Threads

namespace TickHistogram

/-- The bucket of a tick: four less than the position of its highest bit. -/
def bucketOf (kBuckets t : Nat) : Nat :=
  if t < 16 then 0
  else min (63 - WordScan.countlZero (BitVec.ofNat 64 t) - 4) (kBuckets - 1)

/-- The lower bound of a bucket. -/
def bucketLo (b : Nat) : Nat := 16 * 2 ^ b

end TickHistogram

/-- The cells. What a watermark has held is kept, the current value first. -/
structure TickHistogram where
  counts : Nat → Nat := fun _ => 0
  maxima : Nat → List Nat := fun _ => [0]
  /-- The ticks that have been counted, and those whose `record` has returned. -/
  counted : List Nat := []
  recorded : List Nat := []

/-- Where a recording thread stands. -/
inductive RecordPc where
  | idle
  /-- At the increment of the count. -/
  | count (t : Nat)
  /-- At the first load of the watermark. -/
  | load (t : Nat)
  /-- At the test of the loop, with the value seen last. -/
  | test (t prev : Nat)
deriving DecidableEq

namespace TickHistogram

variable (h : TickHistogram) (kBuckets : Nat)

/-- The current value of a watermark. -/
def bucketMax (b : Nat) : Nat := (h.maxima b).headD 0

def addCount (b t : Nat) : TickHistogram :=
  { h with
    counts := Function.update h.counts b ((h.counts b + 1) % 2 ^ 64)
    counted := h.counted ++ [t] }

def setMax (b t : Nat) : TickHistogram :=
  { h with maxima := Function.update h.maxima b (t :: h.maxima b) }

def finish (t : Nat) : TickHistogram := { h with recorded := h.recorded ++ [t] }

/-- One access of `record`. -/
inductive Access (kBuckets : Nat) :
    TickHistogram → RecordPc → TickHistogram → RecordPc → Prop where
  /-- A thread calls `record`. -/
  | start (h : TickHistogram) (t : Nat) (ht : t < 2 ^ 64) : Access kBuckets h .idle h (.count t)
  | count (h : TickHistogram) (t : Nat) :
      Access kBuckets h (.count t) (h.addCount (bucketOf kBuckets t) t) (.load t)
  | load (h : TickHistogram) (t prev : Nat) (hseen : prev ∈ h.maxima (bucketOf kBuckets t)) :
      Access kBuckets h (.load t) h (.test t prev)
  /-- The watermark is high enough. -/
  | leave (h : TickHistogram) (t prev : Nat) (hle : t ≤ prev) :
      Access kBuckets h (.test t prev) (h.finish t) .idle
  /-- The exchange succeeds: the cell still holds what was seen. -/
  | exchange (h : TickHistogram) (t prev : Nat) (hlt : prev < t)
      (hcurrent : h.bucketMax (bucketOf kBuckets t) = prev) :
      Access kBuckets h (.test t prev) ((h.setMax (bucketOf kBuckets t) t).finish t) .idle
  /-- The exchange fails, or pretends to, and loads again. -/
  | retry (h : TickHistogram) (t prev seen : Nat) (hlt : prev < t)
      (hseen : seen ∈ h.maxima (bucketOf kBuckets t)) :
      Access kBuckets h (.test t prev) h (.test t seen)
  /-- Where the library has `fetch_max` of its own, it is one access. -/
  | fetchMax (h : TickHistogram) (t : Nat) :
      Access kBuckets h (.load t)
        ((if h.bucketMax (bucketOf kBuckets t) < t then h.setMax (bucketOf kBuckets t) t
          else h).finish t) .idle

/-- Any threads, none of them inside a call. -/
def begin (ι : Type) : System ι TickHistogram RecordPc where
  shared := {}
  locals := fun _ => .idle

/-- The ticks of a bucket. -/
def ticksOf (kBuckets : Nat) (l : List Nat) (b : Nat) : List Nat :=
  l.filter fun t => bucketOf kBuckets t = b

end TickHistogram

end Mog
