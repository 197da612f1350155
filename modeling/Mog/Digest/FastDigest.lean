import Mog.Digest.Sha256
import Mog.Log.ColumnLog

/-!
# The fast digest and the two tiers

The 128-bit digest of determinism traces, and the object that carries it beside SHA-256. A
word copied out of a block, or into the result, has the byte order of the little-endian hosts
the log format assumes as well.

A block moves two words of state by a product, a sum, a rotation and another product each, all
in 64 bits. The tier says which of the two digests a trace has asked for; the object holds both
and updates the one it was made for. How the digests behave over whole inputs is the next
file's.
-/

namespace Mog

open Wire

structure FastDigest128 where
  h0 : UInt64
  h1 : UInt64
  totalBytes : UInt64
  buffered : Nat
  buf : List UInt8

namespace FastDigest128

def kPrime0 : UInt64 := 0x9e3779b97f4a7c15
def kPrime1 : UInt64 := 0xbf58476d1ce4e5b9
def kPrime2 : UInt64 := 0x94d049bb133111eb
def kPrime3 : UInt64 := 0xd6e8feb86659fd93

def rotl (x : UInt64) (n : Nat) : UInt64 := x <<< UInt64.ofNat n ||| x >>> UInt64.ofNat (64 - n)

def reset (s : FastDigest128) : FastDigest128 :=
  { s with h0 := kPrime0, h1 := kPrime1, totalBytes := 0, buffered := 0 }

/-- A new object. -/
def new : FastDigest128 :=
  reset { h0 := kPrime0, h1 := kPrime1, totalBytes := 0, buffered := 0, buf := List.replicate 16 0 }

/-- The word at `off` of a block. -/
def loadWord (block : List UInt8) (off : Nat) : UInt64 := UInt64.ofNat (loadLe (bytesAt block off 8))

/-- `mix_block`, on the two words of state. -/
def mix (h : UInt64 × UInt64) (block : List UInt8) : UInt64 × UInt64 :=
  (rotl (h.1 + loadWord block 0 * kPrime0) 31 * kPrime2,
    rotl (h.2 + loadWord block 8 * kPrime1) 27 * kPrime3)

def mixBlock (s : FastDigest128) (block : List UInt8) : FastDigest128 :=
  { s with h0 := (mix (s.h0, s.h1) block).1, h1 := (mix (s.h0, s.h1) block).2 }

/-- The bytes that go to the block under way, and what is left of the input. -/
def topUp (s : FastDigest128) (p : List UInt8) : FastDigest128 × List UInt8 :=
  if 0 < s.buffered then
    let need := 16 - s.buffered
    let take := if p.length < need then p.length else need
    let s := { s with
      buf := memcpy s.buf s.buffered (p.take take)
      buffered := s.buffered + take }
    (if s.buffered = 16 then { s.mixBlock s.buf with buffered := 0 } else s, p.drop take)
  else (s, p)

/-- The whole blocks, straight from the input. -/
def mixLoop (s : FastDigest128) (p : List UInt8) : FastDigest128 × List UInt8 :=
  if 16 ≤ p.length then mixLoop (s.mixBlock (p.take 16)) (p.drop 16) else (s, p)
termination_by p.length
decreasing_by
  rw [List.length_drop]
  omega

/-- What is kept for the next block. -/
def keep (s : FastDigest128) (p : List UInt8) : FastDigest128 :=
  if 0 < p.length then
    { s with buf := memcpy s.buf s.buffered p, buffered := s.buffered + p.length }
  else s

def update (s : FastDigest128) (data : List UInt8) : FastDigest128 :=
  let s := { s with totalBytes := s.totalBytes + UInt64.ofNat data.length }
  let (s, p) := s.topUp data
  let (s, p) := s.mixLoop p
  s.keep p

/-- The words of the result: `f` after the last block, for `total` bytes. -/
def finalWords (f : UInt64 × UInt64) (total : UInt64) : UInt64 × UInt64 :=
  let f0 := f.1 ^^^ total * kPrime0
  let f1 := f.2 ^^^ total * kPrime1
  let f0 := f0 ^^^ f1
  let f0 := f0 * kPrime2
  let f0 := f0 ^^^ f0 >>> 33
  let f1 := f1 ^^^ f0
  let f1 := f1 * kPrime1
  let f1 := f1 ^^^ f1 >>> 33
  (f0, f1)

def finish (s : FastDigest128) : List UInt8 :=
  let f :=
    if 0 < s.buffered then
      let tail := memcpy (List.replicate 16 0) 0 (s.buf.take s.buffered)
      mix (s.h0, s.h1) (tail.set s.buffered 0x80)
    else (s.h0, s.h1)
  let (f0, f1) := finalWords f s.totalBytes
  storeLe 8 f0.toNat ++ storeLe 8 f1.toNat

end FastDigest128

inductive DigestMode where
  | golden
  | fast
deriving DecidableEq, Repr

structure DeterminismDigest where
  mode : DigestMode
  sha : Sha256
  fast : FastDigest128

namespace DeterminismDigest

def reset (d : DeterminismDigest) : DeterminismDigest :=
  match d.mode with
  | .golden => { d with sha := d.sha.reset }
  | .fast => { d with fast := d.fast.reset }

def new (mode : DigestMode) : DeterminismDigest :=
  reset { mode, sha := Sha256.new, fast := FastDigest128.new }

def update (d : DeterminismDigest) (data : List UInt8) : DeterminismDigest :=
  match d.mode with
  | .golden => { d with sha := d.sha.update data }
  | .fast => { d with fast := d.fast.update data }

/-- The digest, from a copy. -/
def finishSha256 (d : DeterminismDigest) : List UInt8 :=
  let copy := d.sha
  copy.finish.1

def finishFast128 (d : DeterminismDigest) : List UInt8 := d.fast.finish

/-- A call on the object. -/
inductive Call where
  | update (data : List UInt8)
  | finishSha256
  | finishFast128

/-- The object after a call, and what the call returns. -/
def call (d : DeterminismDigest) : Call → DeterminismDigest × Option (List UInt8)
  | .update data => (d.update data, none)
  | .finishSha256 => (d, some d.finishSha256)
  | .finishFast128 => (d, some d.finishFast128)

/-- The object after some calls. -/
def after (d : DeterminismDigest) (calls : List Call) : DeterminismDigest :=
  calls.foldl (fun d c => (d.call c).1) d

end DeterminismDigest

end Mog
