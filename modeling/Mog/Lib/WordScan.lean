import Mathlib.Data.List.Basic
import Mathlib.Tactic.ByContra
import Mathlib.Tactic.Push

/-!
# Scanning a 64-bit word for its lowest and highest set bit

A bitmap is kept as words of 64 bits. Its scans need four facts about one word:
where the lowest and the highest set bit stand, what masking off the low bits
leaves, and what setting or clearing one bit changes. They are stated through
`BitVec.getLsbD`, so that a caller sees sets of positions and no arithmetic.

The masks are those that a scan needs: all bits from a position up, all up to a position, all
below one. Counting zeros from either end then gives the nearest set bit on that side, as long
as the masked word is not zero.
-/

namespace WordScan

/-- The number of zero bits below the lowest set bit; 64 for the zero word. -/
def countrZero (m : BitVec 64) : Nat :=
  ((List.range 64).find? (fun i => m.getLsbD i)).getD 64

/-- The number of zero bits above the highest set bit; 64 for the zero word. -/
def countlZero (m : BitVec 64) : Nat :=
  ((List.range 64).find? (fun i => m.getLsbD (63 - i))).getD 64

theorem ne_zero_iff {m : BitVec 64} : m ≠ 0#64 ↔ ∃ i, i < 64 ∧ m.getLsbD i = true := by
  constructor
  · intro h
    by_contra hall
    push Not at hall
    refine h (BitVec.eq_of_getLsbD_eq fun i hi => ?_)
    simpa using hall i hi
  · rintro ⟨i, _, hbit⟩ rfl
    simp at hbit

/-- The first index of a range a test accepts. -/
theorem find?_range {n : Nat} {p : Nat → Bool} (h : ∃ i, i < n ∧ p i = true) :
    ∃ i, (List.range n).find? p = some i ∧ i < n ∧ p i = true ∧ ∀ j, j < i → p j = false := by
  obtain ⟨i, hi, hp⟩ := h
  cases hf : (List.range n).find? p with
  | none =>
      rw [List.find?_eq_none] at hf
      exact absurd hp (hf i (List.mem_range.mpr hi))
  | some k =>
      obtain ⟨h1, as, bs, heq, h2⟩ := List.find?_eq_some_iff_append.mp hf
      have hlen : as.length = k := by
        have hk : (List.range n)[as.length]? = some k := by rw [heq]; simp
        have hlt : as.length < n := by
          have := congrArg List.length heq; simp at this; omega
        rw [List.getElem?_range hlt] at hk
        exact Option.some.inj hk
      refine ⟨k, rfl, List.mem_range.mp (List.mem_of_find?_eq_some hf), h1, fun j hj => ?_⟩
      have hjn : j ∈ as := by
        have hg : (List.range n)[j]? = some j := List.getElem?_range (by
          have := congrArg List.length heq; simp at this; omega)
        rw [heq, List.getElem?_append_left (by omega)] at hg
        exact List.mem_of_getElem? hg
      simpa using h2 j hjn

theorem countrZero_spec {m : BitVec 64} (h : m ≠ 0#64) :
    countrZero m < 64 ∧ m.getLsbD (countrZero m) = true
      ∧ ∀ j, j < countrZero m → m.getLsbD j = false := by
  obtain ⟨i, hfind, hi, hbit, hlow⟩ := find?_range (ne_zero_iff.mp h)
  have hc : countrZero m = i := by rw [countrZero, hfind]; rfl
  rw [hc]
  exact ⟨hi, hbit, hlow⟩

theorem countlZero_spec {m : BitVec 64} (h : m ≠ 0#64) :
    countlZero m < 64 ∧ m.getLsbD (63 - countlZero m) = true
      ∧ ∀ j, 63 - countlZero m < j → m.getLsbD j = false := by
  obtain ⟨k, hk, hbit⟩ := ne_zero_iff.mp h
  have hex : ∃ i, i < 64 ∧ m.getLsbD (63 - i) = true :=
    ⟨63 - k, by omega, by rwa [show 63 - (63 - k) = k by omega]⟩
  obtain ⟨i, hfind, hi, hset, hhigh⟩ := find?_range (p := fun i => m.getLsbD (63 - i)) hex
  have hc : countlZero m = i := by rw [countlZero, hfind]; rfl
  rw [hc]
  refine ⟨hi, hset, fun j hj => ?_⟩
  rcases Nat.lt_or_ge j 64 with hlt | hge
  · have := hhigh (63 - j) (by omega)
    rwa [show 63 - (63 - j) = j by omega] at this
  · exact BitVec.getLsbD_of_ge m j hge

/-! ## Masks -/

/-- The word `(1 << n) - 1` has exactly its `n` low bits set. -/
theorem getLsbD_low {n i : Nat} (hn : n < 64) :
    ((1#64 <<< n) - 1#64).getLsbD i = decide (i < n) := by
  have hpow : (1#64 <<< n) - 1#64 = BitVec.ofNat 64 (2 ^ n - 1) := by
    apply BitVec.eq_of_toNat_eq
    have h1 : 2 ^ n < 2 ^ 64 := Nat.pow_lt_pow_right (by decide) hn
    have h0 : 0 < 2 ^ n := Nat.two_pow_pos n
    simp only [BitVec.toNat_sub, BitVec.toNat_shiftLeft, BitVec.toNat_ofNat, Nat.shiftLeft_eq]
    rw [Nat.mod_eq_of_lt (show 1 < 2 ^ 64 by decide), Nat.one_mul, Nat.mod_eq_of_lt h1]
    omega
  rw [hpow, BitVec.getLsbD_ofNat, Nat.testBit_two_pow_sub_one]
  by_cases hi : i < n
  · simp [hi, show i < 64 by omega]
  · simp [hi]

theorem getLsbD_bit {b i : Nat} (hb : b < 64) : (1#64 <<< b).getLsbD i = decide (i = b) := by
  rw [BitVec.getLsbD_shiftLeft, BitVec.getLsbD_one]
  by_cases hi : i = b
  · subst hi; simp [hb]
  · by_cases h1 : i < 64 <;> by_cases h2 : i < b <;> simp [h1, h2, hi]
    omega

/-- Setting bit `b`. -/
theorem getLsbD_set {m : BitVec 64} {b i : Nat} (hb : b < 64) :
    (m ||| (1#64 <<< b)).getLsbD i = (m.getLsbD i || decide (i = b)) := by
  rw [BitVec.getLsbD_or, getLsbD_bit hb]

/-- Clearing bit `b`. -/
theorem getLsbD_clear {m : BitVec 64} {b i : Nat} (hb : b < 64) :
    (m &&& ~~~(1#64 <<< b)).getLsbD i = (m.getLsbD i && !decide (i = b)) := by
  rw [BitVec.getLsbD_and, BitVec.getLsbD_not, getLsbD_bit hb]
  by_cases hi : i < 64
  · simp [hi]
  · simp [BitVec.getLsbD_of_ge m i (by omega)]

/-- Masking off the bits below `n`. -/
theorem getLsbD_from {m : BitVec 64} {n i : Nat} (hn : n < 64) :
    (m &&& ~~~((1#64 <<< n) - 1#64)).getLsbD i = (m.getLsbD i && decide (n ≤ i)) := by
  rw [BitVec.getLsbD_and, BitVec.getLsbD_not, getLsbD_low hn]
  by_cases hi : i < 64
  · by_cases h : i < n
    · simp [h, show ¬ n ≤ i by omega]
    · simp [hi, h, show n ≤ i by omega]
  · simp [BitVec.getLsbD_of_ge m i (by omega)]

/-- Keeping only the bits below `n`. -/
theorem getLsbD_below {m : BitVec 64} {n i : Nat} (hn : n < 64) :
    (m &&& ((1#64 <<< n) - 1#64)).getLsbD i = (m.getLsbD i && decide (i < n)) := by
  rw [BitVec.getLsbD_and, getLsbD_low hn]

/-! ## Finding a bit -/

/-- The lowest set bit is where the scan stops. -/
theorem countrZero_eq {m : BitVec 64} {j : Nat} (hj : j < 64) (hbit : m.getLsbD j = true)
    (hlow : ∀ i, i < j → m.getLsbD i = false) : m ≠ 0#64 ∧ countrZero m = j := by
  have hne : m ≠ 0#64 := ne_zero_iff.mpr ⟨j, hj, hbit⟩
  obtain ⟨_, hset, hfirst⟩ := countrZero_spec hne
  refine ⟨hne, ?_⟩
  rcases Nat.lt_trichotomy (countrZero m) j with hlt | heq | hgt
  · rw [hlow _ hlt] at hset
    exact Bool.noConfusion hset
  · exact heq
  · rw [hfirst j hgt] at hbit
    exact Bool.noConfusion hbit

theorem countrZero_single {j : Nat} (hj : j < 64) :
    (1#64 <<< j) ≠ 0#64 ∧ countrZero (1#64 <<< j) = j := by
  refine countrZero_eq hj ?_ fun i hi => ?_
  · rw [getLsbD_bit hj, decide_eq_true rfl]
  · rw [getLsbD_bit hj, decide_eq_false (Nat.ne_of_lt hi)]

/-- A word with one bit has none after the lowest is cleared. -/
theorem clear_single {j : Nat} (hj : j < 64) :
    (1#64 <<< j) &&& ((1#64 <<< j) - 1#64) = 0#64 := by
  refine BitVec.eq_of_getLsbD_eq fun b hb => ?_
  rw [BitVec.getLsbD_and, getLsbD_bit hj, getLsbD_low hj, BitVec.getLsbD_zero]
  by_cases hbj : b = j
  · rw [decide_eq_false (show ¬ b < j by omega), Bool.and_false]
  · rw [decide_eq_false hbj, Bool.false_and]

end WordScan
