import Mathlib.Algebra.Group.Nat.Defs
import Mathlib.Data.List.Basic

/-!
# The SHA-256 of determinism traces

The running digest: eight words, a block of 64 bytes filled up to `buffered` and a counter of
bits. Bytes of the block beyond `buffered` are whatever an earlier input left there.

The block and its fill mark are kept apart as in the source, and `update` has the source's three
parts: topping up a block that has been begun, taking whole blocks from the input, and keeping
the rest. `finish` pads, writes the length in bits and takes the last block or the last two.
-/

namespace Mog

/-- `memcpy` of `src` to `off`. -/
def memcpy (dst : List UInt8) (off : Nat) (src : List UInt8) : List UInt8 :=
  dst.take off ++ src ++ dst.drop (off + src.length)

theorem memcpy_length {dst src : List UInt8} {off : Nat} (h : off + src.length ≤ dst.length) :
    (memcpy dst off src).length = dst.length := by
  simp only [memcpy, List.length_append, List.length_take, List.length_drop]
  omega

theorem take_memcpy {dst src : List UInt8} {off : Nat} (h : off ≤ dst.length) :
    (memcpy dst off src).take (off + src.length) = dst.take off ++ src := by
  have hlen : (dst.take off ++ src).length = off + src.length := by
    rw [List.length_append, List.length_take, Nat.min_eq_left h]
  rw [memcpy, ← hlen, List.take_left]

/-- Words, in the order of `h_`. -/
abbrev Words8 := Vector UInt32 8

structure Sha256 where
  h : Words8
  buf : List UInt8
  buffered : Nat
  totalBits : Nat
  buf_length : buf.length = 64
  buffered_lt : buffered < 64

namespace Sha256

/-! ## Compression -/

def kK : List UInt32 := [
  0x428a2f98, 0x71374491, 0xb5c0fbcf, 0xe9b5dba5, 0x3956c25b, 0x59f111f1, 0x923f82a4,
  0xab1c5ed5, 0xd807aa98, 0x12835b01, 0x243185be, 0x550c7dc3, 0x72be5d74, 0x80deb1fe,
  0x9bdc06a7, 0xc19bf174, 0xe49b69c1, 0xefbe4786, 0x0fc19dc6, 0x240ca1cc, 0x2de92c6f,
  0x4a7484aa, 0x5cb0a9dc, 0x76f988da, 0x983e5152, 0xa831c66d, 0xb00327c8, 0xbf597fc7,
  0xc6e00bf3, 0xd5a79147, 0x06ca6351, 0x14292967, 0x27b70a85, 0x2e1b2138, 0x4d2c6dfc,
  0x53380d13, 0x650a7354, 0x766a0abb, 0x81c2c92e, 0x92722c85, 0xa2bfe8a1, 0xa81a664b,
  0xc24b8b70, 0xc76c51a3, 0xd192e819, 0xd6990624, 0xf40e3585, 0x106aa070, 0x19a4c116,
  0x1e376c08, 0x2748774c, 0x34b0bcb5, 0x391c0cb3, 0x4ed8aa4a, 0x5b9cca4f, 0x682e6ff3,
  0x748f82ee, 0x78a5636f, 0x84c87814, 0x8cc70208, 0x90befffa, 0xa4506ceb, 0xbef9a3f7,
  0xc67178f2]

def rotr (x : UInt32) (n : Nat) : UInt32 := x >>> UInt32.ofNat n ||| x <<< UInt32.ofNat (32 - n)

/-- The `i`-th word of a block. -/
def loadWord (block : List UInt8) (i : Nat) : UInt32 :=
  (block.getD (4 * i) 0).toUInt32 <<< 24 ||| (block.getD (4 * i + 1) 0).toUInt32 <<< 16
    ||| (block.getD (4 * i + 2) 0).toUInt32 <<< 8 ||| (block.getD (4 * i + 3) 0).toUInt32

/-- One turn of the loop that extends `w`; `w` holds the words below `i`. -/
def extend (w : List UInt32) (i : Nat) : List UInt32 :=
  let s0 := rotr (w.getD (i - 15) 0) 7 ^^^ rotr (w.getD (i - 15) 0) 18 ^^^ w.getD (i - 15) 0 >>> 3
  let s1 := rotr (w.getD (i - 2) 0) 17 ^^^ rotr (w.getD (i - 2) 0) 19 ^^^ w.getD (i - 2) 0 >>> 10
  w ++ [w.getD (i - 16) 0 + s0 + w.getD (i - 7) 0 + s1]

/-- The sixty-four words `w`. -/
def schedule (block : List UInt8) : List UInt32 :=
  (List.range' 16 48).foldl extend ((List.range 16).map (loadWord block))

/-- The local variables of `compress`. -/
structure Locals where
  a : UInt32
  b : UInt32
  c : UInt32
  d : UInt32
  e : UInt32
  f : UInt32
  g : UInt32
  hh : UInt32

/-- One turn of the loop of `compress`. -/
def turn (w : List UInt32) (v : Locals) (i : Nat) : Locals :=
  let s1 := rotr v.e 6 ^^^ rotr v.e 11 ^^^ rotr v.e 25
  let ch := (v.e &&& v.f) ^^^ (~~~v.e &&& v.g)
  let t1 := v.hh + s1 + ch + kK.getD i 0 + w.getD i 0
  let s0 := rotr v.a 2 ^^^ rotr v.a 13 ^^^ rotr v.a 22
  let maj := (v.a &&& v.b) ^^^ (v.a &&& v.c) ^^^ (v.b &&& v.c)
  let t2 := s0 + maj
  { hh := v.g, g := v.f, f := v.e, e := v.d + t1, d := v.c, c := v.b, b := v.a, a := t1 + t2 }

def compress (h : Words8) (block : List UInt8) : Words8 :=
  let v : Locals := ⟨h[0], h[1], h[2], h[3], h[4], h[5], h[6], h[7]⟩
  let v := (List.range 64).foldl (turn (schedule block)) v
  #v[h[0] + v.a, h[1] + v.b, h[2] + v.c, h[3] + v.d, h[4] + v.e, h[5] + v.f, h[6] + v.g,
    h[7] + v.hh]

/-! ## Updating -/

def reset (s : Sha256) : Sha256 :=
  { s with
    h := #v[0x6a09e667, 0xbb67ae85, 0x3c6ef372, 0xa54ff53a,
      0x510e527f, 0x9b05688c, 0x1f83d9ab, 0x5be0cd19]
    buffered := 0
    totalBits := 0
    buffered_lt := by decide }

/-- A new object. -/
def new : Sha256 :=
  reset
    { h := Vector.replicate 8 0
      buf := List.replicate 64 0
      buffered := 0
      totalBits := 0
      buf_length := List.length_replicate
      buffered_lt := by decide }

/-- One turn of the loop of `update`, with the bytes it takes. -/
def fill (s : Sha256) (p : List UInt8) (hp : s.buffered + p.length ≤ 64) : Sha256 :=
  have hbuf : (memcpy s.buf s.buffered p).length = 64 := by
    rw [memcpy_length (by rw [s.buf_length]; exact hp), s.buf_length]
  if hfull : s.buffered + p.length = 64 then
    { s with
      h := compress s.h (memcpy s.buf s.buffered p)
      buf := memcpy s.buf s.buffered p
      buffered := 0
      buf_length := hbuf
      buffered_lt := by decide }
  else
    { s with
      buf := memcpy s.buf s.buffered p
      buffered := s.buffered + p.length
      buf_length := hbuf
      buffered_lt := by omega }

/-- How much of `len` bytes the block takes. -/
def take (s : Sha256) (len : Nat) : Nat := if 64 - s.buffered < len then 64 - s.buffered else len

theorem take_le (s : Sha256) (len : Nat) : s.take len ≤ len ∧ s.buffered + s.take len ≤ 64 := by
  have hlt := s.buffered_lt
  unfold take
  split <;> omega

theorem take_pos (s : Sha256) {len : Nat} (h : 0 < len) : 0 < s.take len := by
  have hlt := s.buffered_lt
  unfold take
  split <;> omega

theorem take_fits (s : Sha256) (p : List UInt8) :
    s.buffered + (p.take (s.take p.length)).length ≤ 64 := by
  rw [List.length_take, Nat.min_eq_left (s.take_le p.length).1]
  exact (s.take_le p.length).2

def updateLoop (s : Sha256) (p : List UInt8) : Sha256 :=
  if 0 < p.length then
    updateLoop (s.fill (p.take (s.take p.length)) (s.take_fits p)) (p.drop (s.take p.length))
  else s
termination_by p.length
decreasing_by
  rename_i hlen
  have hpos := s.take_pos hlen
  rw [List.length_drop]
  omega

def update (s : Sha256) (data : List UInt8) : Sha256 :=
  updateLoop { s with totalBits := (s.totalBits + data.length * 8) % 2 ^ 64 } data

theorem fill_buffered (s : Sha256) {p : List UInt8} (hp : s.buffered + p.length ≤ 64) :
    (s.fill p hp).buffered = (s.buffered + p.length) % 64 := by
  unfold fill
  by_cases hfull : s.buffered + p.length = 64
  · rw [dif_pos hfull, hfull]
  · rw [dif_neg hfull]
    exact (Nat.mod_eq_of_lt (Nat.lt_of_le_of_ne hp hfull)).symm

theorem updateLoop_buffered (s : Sha256) (p : List UInt8) :
    (s.updateLoop p).buffered = (s.buffered + p.length) % 64 := by
  induction s, p using updateLoop.induct with
  | case1 s p hlen ih =>
      have htake := (s.take_le p.length).1
      rw [updateLoop, if_pos hlen, ih, fill_buffered, List.length_take, List.length_drop,
        Nat.min_eq_left htake, Nat.mod_add_mod, Nat.add_assoc, Nat.add_sub_cancel' htake]
  | case2 s p hlen =>
      have hlt := s.buffered_lt
      rw [updateLoop, if_neg hlen]
      omega

theorem update_buffered (s : Sha256) (data : List UInt8) :
    (s.update data).buffered = (s.buffered + data.length) % 64 :=
  updateLoop_buffered _ data

/-! ## Finishing -/

/-- The loop that pads the block with zeros. -/
def padLoop (s : Sha256) : Sha256 := if s.buffered = 56 then s else padLoop (s.update [0])
termination_by (120 - s.buffered) % 64
decreasing_by
  have hlt := s.buffered_lt
  have hnext := s.update_buffered [0]
  rw [List.length_singleton] at hnext
  omega

/-- The eight bytes of the length. -/
def lengthTail (bits : Nat) : List UInt8 :=
  (List.range 8).map fun i => UInt8.ofNat (bits >>> (56 - 8 * i))

@[simp] theorem lengthTail_length (bits : Nat) : (lengthTail bits).length = 8 := by
  rw [lengthTail, List.length_map, List.length_range]

def storeWord (x : UInt32) : List UInt8 :=
  [(x >>> 24).toUInt8, (x >>> 16).toUInt8, (x >>> 8).toUInt8, x.toUInt8]

/-- The digest, and what is left of the object. -/
def finish (s : Sha256) : List UInt8 × Sha256 :=
  let bits := s.totalBits
  let s := padLoop (s.update [0x80])
  let buf := memcpy s.buf 56 (lengthTail bits)
  let s := { s with
    h := compress s.h buf
    buf := buf
    buffered := 0
    buf_length := by
      rw [memcpy_length (Nat.le_of_eq (by rw [lengthTail_length, s.buf_length])), s.buf_length]
    buffered_lt := by decide }
  (s.h.toList.flatMap storeWord, s)

end Sha256

end Mog
