import Mathlib.Data.Nat.Prime.Basic
import Mog.Lib.BlockStream

/-!
# SHA-256 as FIPS 180-4 defines it

The padding of section 5.1.1, the initial hash value of 5.3.3, the constants of 4.2.2, the
functions of 4.1.2 and the computation of 6.2.2, for messages of whole bytes. The constants
are computed from what the standard says of them: the first bits of the fractional parts of
square and cube roots of the first primes.
-/

namespace Fips180

/-! ## Roots -/

/-- The root of `m` to the `k`, searched from `acc` on, bit by bit from `2 ^ b` down. -/
def rootFrom (k m : Nat) : Nat → Nat → Nat
  | 0, acc => acc
  | b + 1, acc => if (acc + 2 ^ b) ^ k ≤ m then rootFrom k m b (acc + 2 ^ b) else rootFrom k m b acc

theorem rootFrom_spec {k m : Nat} : ∀ {b acc : Nat}, acc ^ k ≤ m → m < (acc + 2 ^ b) ^ k →
    rootFrom k m b acc ^ k ≤ m ∧ m < (rootFrom k m b acc + 1) ^ k
  | 0, _, hle, hlt => ⟨hle, hlt⟩
  | b + 1, acc, hle, hlt => by
      unfold rootFrom
      by_cases hbit : (acc + 2 ^ b) ^ k ≤ m
      · rw [if_pos hbit]
        refine rootFrom_spec hbit ?_
        rwa [Nat.add_assoc, ← Nat.two_mul, ← Nat.pow_succ']
      · rw [if_neg hbit]
        exact rootFrom_spec hle (Nat.not_le.mp hbit)

/-- The first thirty-two bits of the fractional part of the root of `p` to the `k`. -/
def fracRoot (k p : Nat) : Nat := rootFrom k (p * 2 ^ (32 * k)) 40 0 % 2 ^ 32

/-- Up to `2 ^ 8` to the `k`, that is what they are: with `i` the whole part,
`i + fracRoot k p / 2 ^ 32` is the root cut off. -/
theorem fracRoot_spec {k p : Nat} (hk : k ≠ 0) (hp : p < 2 ^ (8 * k)) : fracRoot k p < 2 ^ 32 ∧
    ∃ i, (i * 2 ^ 32 + fracRoot k p) ^ k ≤ p * 2 ^ (32 * k)
      ∧ p * 2 ^ (32 * k) < (i * 2 ^ 32 + fracRoot k p + 1) ^ k := by
  refine ⟨Nat.mod_lt _ (by decide), rootFrom k (p * 2 ^ (32 * k)) 40 0 / 2 ^ 32, ?_⟩
  rw [fracRoot, Nat.mul_comm (_ / _), Nat.div_add_mod]
  refine rootFrom_spec ?_ ?_
  · rw [Nat.zero_pow (Nat.pos_of_ne_zero hk)]
    exact Nat.zero_le _
  · rw [Nat.zero_add, ← Nat.pow_mul, Nat.add_mul 8 32 k, Nat.pow_add]
    exact Nat.mul_lt_mul_of_pos_right hp (Nat.two_pow_pos _)

/-! ## Constants -/

/-- The first sixty-four primes; the last of them is less than `18 * 18`. -/
def primes : List Nat :=
  (List.range 312).filter fun p => 2 ≤ p ∧ ∀ d : Nat, d < 18 → 2 ≤ d ∧ d < p → p % d ≠ 0

theorem mem_primes {p : Nat} : p ∈ primes ↔ p < 312 ∧ p.Prime := by
  rw [primes, List.mem_filter, List.mem_range, decide_eq_true_iff]
  refine and_congr_right fun hp => ?_
  rw [Nat.prime_def_le_sqrt]
  refine and_congr_right fun htwo => ⟨fun h m hm hsqrt => ?_, fun h d _ hd hmod => ?_⟩
  · have hm18 : m < 18 := Nat.lt_of_le_of_lt hsqrt (Nat.sqrt_lt'.mpr (by omega))
    have hmp : m < p := Nat.lt_of_le_of_lt hsqrt (Nat.sqrt_lt_self htwo)
    exact fun hdvd => h m hm18 ⟨hm, hmp⟩ (Nat.mod_eq_zero_of_dvd hdvd)
  · have hprime : p.Prime := Nat.prime_def_le_sqrt.mpr ⟨htwo, h⟩
    rcases (Nat.dvd_prime hprime).mp (Nat.dvd_of_mod_eq_zero hmod) with h1 | hp'
    · omega
    · omega

theorem primes_length : primes.length = 64 := by
  decide +kernel

/-- `K` of 4.2.2. -/
def K (t : Nat) : UInt32 := UInt32.ofNat (fracRoot 3 (primes.getD t 0))

/-! ## Functions -/

def ROTR (n : Nat) (x : UInt32) : UInt32 := x >>> UInt32.ofNat n ||| x <<< UInt32.ofNat (32 - n)

def SHR (n : Nat) (x : UInt32) : UInt32 := x >>> UInt32.ofNat n

def Ch (x y z : UInt32) : UInt32 := (x &&& y) ^^^ (~~~x &&& z)
def Maj (x y z : UInt32) : UInt32 := (x &&& y) ^^^ (x &&& z) ^^^ (y &&& z)

def bigSigma0 (x : UInt32) : UInt32 := ROTR 2 x ^^^ ROTR 13 x ^^^ ROTR 22 x
def bigSigma1 (x : UInt32) : UInt32 := ROTR 6 x ^^^ ROTR 11 x ^^^ ROTR 25 x
def smallSigma0 (x : UInt32) : UInt32 := ROTR 7 x ^^^ ROTR 18 x ^^^ SHR 3 x
def smallSigma1 (x : UInt32) : UInt32 := ROTR 17 x ^^^ ROTR 19 x ^^^ SHR 10 x

/-! ## Words and bytes -/

/-- `n` bytes, the most significant first. -/
def bytesBE (n v : Nat) : List UInt8 := (List.range n).map fun i => UInt8.ofNat (v / 256 ^ (n - 1 - i))

/-- Word `t` of a block. -/
def wordAt (block : List UInt8) (t : Nat) : UInt32 :=
  let byte i := (block.getD (4 * t + i) 0).toNat
  UInt32.ofNat (byte 0 * 2 ^ 24 + byte 1 * 2 ^ 16 + byte 2 * 2 ^ 8 + byte 3)

/-! ## Padding -/

/-- How many zero bytes follow the byte that closes a message of `len` bytes. -/
def zeroBytes (len : Nat) : Nat := (119 - len % 64) % 64

/-- With the seven zero bits of the closing byte they are the fewest zero bits `k` for which
`l + 1 + k` is 448 modulo 512. -/
theorem zeroBytes_least (len : Nat) : (8 * len + 1 + (7 + 8 * zeroBytes len)) % 512 = 448
    ∧ ∀ k, (8 * len + 1 + k) % 512 = 448 → 7 + 8 * zeroBytes len ≤ k := by
  unfold zeroBytes
  constructor
  · omega
  · intro k hk
    omega

def pad (message : List UInt8) : List UInt8 :=
  message ++ [0x80] ++ List.replicate (zeroBytes message.length) 0 ++ bytesBE 8 (8 * message.length)

theorem pad_length (message : List UInt8) : (pad message).length % 64 = 0 := by
  have hz := (zeroBytes_least message.length).1
  simp only [pad, bytesBE, List.length_append, List.length_singleton, List.length_replicate,
    List.length_map, List.length_range]
  omega

/-! ## Computation -/

/-- The working variables. -/
structure Working where
  a : UInt32
  b : UInt32
  c : UInt32
  d : UInt32
  e : UInt32
  f : UInt32
  g : UInt32
  h : UInt32
deriving DecidableEq, Repr

/-- `H(0)` of 5.3.3: the square roots of the first eight primes. -/
def initial : Working where
  a := UInt32.ofNat (fracRoot 2 2)
  b := UInt32.ofNat (fracRoot 2 3)
  c := UInt32.ofNat (fracRoot 2 5)
  d := UInt32.ofNat (fracRoot 2 7)
  e := UInt32.ofNat (fracRoot 2 11)
  f := UInt32.ofNat (fracRoot 2 13)
  g := UInt32.ofNat (fracRoot 2 17)
  h := UInt32.ofNat (fracRoot 2 19)

theorem initial_words : initial = ⟨0x6a09e667, 0xbb67ae85, 0x3c6ef372, 0xa54ff53a,
    0x510e527f, 0x9b05688c, 0x1f83d9ab, 0x5be0cd19⟩ := by
  decide +kernel

/-- The message schedule. -/
def W (block : List UInt8) (t : Nat) : UInt32 :=
  if t < 16 then wordAt block t
  else smallSigma1 (W block (t - 2)) + W block (t - 7) + smallSigma0 (W block (t - 15))
    + W block (t - 16)
termination_by t

theorem W_input {block : List UInt8} {t : Nat} (h : t < 16) : W block t = wordAt block t := by
  rw [W, if_pos h]

theorem W_recurrence {block : List UInt8} {t : Nat} (h : 16 ≤ t) :
    W block t = smallSigma1 (W block (t - 2)) + W block (t - 7) + smallSigma0 (W block (t - 15))
      + W block (t - 16) := by
  rw [W, if_neg (Nat.not_lt.mpr h)]

def round (block : List UInt8) (v : Working) (t : Nat) : Working :=
  let T1 := v.h + bigSigma1 v.e + Ch v.e v.f v.g + K t + W block t
  let T2 := bigSigma0 v.a + Maj v.a v.b v.c
  { a := T1 + T2, b := v.a, c := v.b, d := v.c, e := v.d + T1, f := v.e, g := v.f, h := v.g }

/-- The hash value after one more block. -/
def compress (H : Working) (block : List UInt8) : Working :=
  let v := (List.range 64).foldl (round block) H
  { a := v.a + H.a, b := v.b + H.b, c := v.c + H.c, d := v.d + H.d
    e := v.e + H.e, f := v.f + H.f, g := v.g + H.g, h := v.h + H.h }

def Working.words (v : Working) : List UInt32 := [v.a, v.b, v.c, v.d, v.e, v.f, v.g, v.h]

/-- The message digest. -/
def sha256 (message : List UInt8) : List UInt8 :=
  let H := (BlockStream.chunks 64 (pad message)).foldl compress initial
  H.words.flatMap fun word => bytesBE 4 word.toNat

end Fips180
