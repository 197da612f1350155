import Mathlib.Algebra.BigOperators.Group.Finset.Basic
import Mathlib.Data.Nat.Bitwise
import Mog.Event.Engine
import Mog.Event.TimingWheel
import Mog.Lib.DigitWheel
import Mog.Lib.LinkedChain

/-!
# The chains of the wheel

Buckets are numbered through: bucket `x` is slot `x % 64` of level `x / 64`. The
invariant names the list of events behind every chain; attaching appends to the list
that the routing picks, detaching erases from the list that the event's bucket names.

The lists are a function from bucket numbers to lists of slots, and three things are said of
them: every list is chained by the slots' links, every bucket's bit says whether its list is
empty, and the lists together hold each live event once, in the bucket that its slot names. Both
updates are made at one list, and all others are shown to be out of reach.
-/

namespace Mog

open LinkedChain WordScan DigitWheel

theorem digit_eq (ts li : Nat) : digit ts li = ts / 64 ^ li % 64 := by
  have hpow : 2 ^ (6 * li) = 64 ^ li := by rw [Nat.pow_mul]
  unfold digit
  rw [show (63 : Nat) = 2 ^ 6 - 1 from rfl, Nat.and_two_pow_sub_one_eq_mod,
    Nat.shiftRight_eq_div_pow, hpow]

theorem digit_lt (ts li : Nat) : digit ts li < 64 := by
  rw [digit_eq]
  exact Nat.mod_lt _ (by decide)

namespace TimingWheel

variable {α : Type} {w : TimingWheel α}

/-- The number of buckets. -/
def bucketCount : Nat := 704

/-! ## Routing -/

theorem shiftRight_xor_eq_zero {a b n : Nat} :
    (a ^^^ b) >>> n = 0 ↔ a / 2 ^ n = b / 2 ^ n := by
  rw [Nat.shiftRight_xor_distrib, Nat.shiftRight_eq_div_pow, Nat.shiftRight_eq_div_pow,
    Nat.xor_eq_zero_iff]

/-- **Routing** finds the position of a timestamp that is not in the past. -/
theorem routeBucket_spec {ts : Nat} (hle : w.now ≤ ts) (hlt : ts < 2 ^ 64) :
    w.routeBucket ts < bucketCount
      ∧ Placed 64 w.now ts (w.routeBucket ts / 64) (w.routeBucket ts % 64) := by
  unfold routeBucket
  dsimp only
  by_cases hdiff : ts ^^^ w.now = 0
  · rw [if_pos hdiff, Nat.xor_eq_zero_iff.mp hdiff]
    have hd := digit_lt w.now 0
    rw [Nat.div_eq_of_lt hd, Nat.mod_eq_of_lt hd]
    refine ⟨Nat.lt_trans hd (by decide), rfl, ?_, fun h => absurd h (Nat.lt_irrefl 0)⟩
    rw [digit_eq]
  · rw [if_neg hdiff]
    generalize hlevel : (ts ^^^ w.now).log2 / 6 = level
    have hd := digit_lt ts level
    have hnow : w.now < 2 ^ 64 := Nat.lt_of_le_of_lt hle hlt
    have htop : (ts ^^^ w.now).log2 < 64 :=
      (Nat.log2_lt hdiff).mpr (Nat.xor_lt_two_pow hlt hnow)
    have hx : (level * kBuckets + digit ts level) / 64 = level
        ∧ (level * kBuckets + digit ts level) % 64 = digit ts level := by
      unfold kBuckets
      omega
    have hpow : ∀ m, 2 ^ (6 * m) = 64 ^ m := fun m => by rw [Nat.pow_mul]
    have habove : ts / 64 ^ (level + 1) = w.now / 64 ^ (level + 1) := by
      rw [← hpow, ← shiftRight_xor_eq_zero, Nat.shiftRight_eq_div_pow]
      refine Nat.div_eq_of_lt (Nat.lt_of_lt_of_le Nat.lt_log2_self ?_)
      exact Nat.pow_le_pow_right (by decide) (by omega)
    have hdiffer : w.now / 64 ^ level < ts / 64 ^ level := by
      refine Nat.lt_of_le_of_ne (Nat.div_le_div_right hle) fun heq => ?_
      rw [← hpow] at heq
      have hzero := shiftRight_xor_eq_zero.mpr heq.symm
      rw [Nat.shiftRight_eq_div_pow, Nat.div_eq_zero_iff] at hzero
      rcases hzero with hc | hc
      · exact absurd hc (Nat.ne_of_gt (Nat.two_pow_pos _))
      · have hself := Nat.log2_self_le hdiff
        have hmono : 2 ^ (6 * level) ≤ 2 ^ (ts ^^^ w.now).log2 :=
          Nat.pow_le_pow_right (by decide) (by omega)
        omega
    rw [hx.1, hx.2, digit_eq]
    refine ⟨?_, habove, rfl, fun _ => ?_⟩
    · unfold bucketCount kBuckets
      have := Nat.mod_lt (ts / 64 ^ level) (show 64 > 0 by decide)
      omega
    · rw [div_eq 64 w.now level, div_eq 64 ts level, habove] at hdiffer
      omega

/-! ## The slot table of a wheel -/

def recordOf (w : TimingWheel α) (i : Nat) : SlotRecord α :=
  { ts := (w.slots i).ts, seq := (w.slots i).seq, value := (w.slots i).value }

def table (w : TimingWheel α) : SlotTable α where
  capacity := w.capacity
  watermark := w.watermark
  freeHead := w.freeHead
  freeNext := fun i => (w.slots i).freeNext
  generation := fun i => (w.slots i).generation
  record := fun i => if (w.slots i).live then some (w.recordOf i) else none
  size := w.live
  nextSeq := w.nextSeq

/-- `w'` differs from `w` in its chains only. -/
structure Rechained (w w' : TimingWheel α) : Prop where
  capacity : w'.capacity = w.capacity
  watermark : w'.watermark = w.watermark
  freeHead : w'.freeHead = w.freeHead
  live : w'.live = w.live
  now : w'.now = w.now
  nextSeq : w'.nextSeq = w.nextSeq
  slots : ∀ i, ∃ b p n, w'.slots i = { w.slots i with bucket := b, prev := p, next := n }

theorem Rechained.refl (w : TimingWheel α) : Rechained w w :=
  ⟨rfl, rfl, rfl, rfl, rfl, rfl,
    fun i => ⟨(w.slots i).bucket, (w.slots i).prev, (w.slots i).next, rfl⟩⟩

theorem Rechained.trans {w w' w'' : TimingWheel α} (h : Rechained w w') (h' : Rechained w' w'') :
    Rechained w w'' where
  capacity := h'.capacity.trans h.capacity
  watermark := h'.watermark.trans h.watermark
  freeHead := h'.freeHead.trans h.freeHead
  live := h'.live.trans h.live
  now := h'.now.trans h.now
  nextSeq := h'.nextSeq.trans h.nextSeq
  slots i := by
    obtain ⟨b, p, n, hi⟩ := h.slots i
    obtain ⟨b', p', n', hi'⟩ := h'.slots i
    exact ⟨b', p', n', by rw [hi', hi]⟩

section

variable {w' : TimingWheel α} (h : Rechained w w') (i : Nat)
include h

theorem Rechained.slotLive : (w'.slots i).live = (w.slots i).live := by
  obtain ⟨b, p, n, hi⟩ := h.slots i
  rw [hi]

theorem Rechained.ts : (w'.slots i).ts = (w.slots i).ts := by
  obtain ⟨b, p, n, hi⟩ := h.slots i
  rw [hi]

theorem Rechained.seq : (w'.slots i).seq = (w.slots i).seq := by
  obtain ⟨b, p, n, hi⟩ := h.slots i
  rw [hi]

theorem Rechained.generation : (w'.slots i).generation = (w.slots i).generation := by
  obtain ⟨b, p, n, hi⟩ := h.slots i
  rw [hi]

theorem Rechained.freeNext : (w'.slots i).freeNext = (w.slots i).freeNext := by
  obtain ⟨b, p, n, hi⟩ := h.slots i
  rw [hi]

theorem Rechained.recordOf : w'.recordOf i = w.recordOf i := by
  obtain ⟨b, p, n, hi⟩ := h.slots i
  unfold TimingWheel.recordOf
  rw [hi]

end

theorem Rechained.table {w' : TimingWheel α} (h : Rechained w w') : w'.table = w.table := by
  have hnext : (fun i => (w'.slots i).freeNext) = fun i => (w.slots i).freeNext :=
    funext h.freeNext
  have hgen : (fun i => (w'.slots i).generation) = fun i => (w.slots i).generation :=
    funext h.generation
  have hrec : (fun i => if (w'.slots i).live then some (w'.recordOf i) else none)
      = fun i => if (w.slots i).live then some (w.recordOf i) else none := by
    funext i
    rw [h.slotLive, h.recordOf]
  unfold TimingWheel.table
  rw [h.capacity, h.watermark, h.freeHead, h.live, h.nextSeq, hnext, hgen, hrec]

/-! ## The invariant of the chains -/

def headOf (w : TimingWheel α) (x : Nat) : Nat := (w.levels (x / 64)).head (x % 64)

def tailOf (w : TimingWheel α) (x : Nat) : Nat := (w.levels (x / 64)).tail (x % 64)

def bitOf (w : TimingWheel α) (x : Nat) : Bool := (w.levels (x / 64)).occupied.getLsbD (x % 64)

/-- The chain of bucket `x` is the list `L x`, and `P` holds of the events on some list. -/
structure Chained (P : Nat → Prop) (w : TimingWheel α) (L : Nat → List Nat) (n : Nat) : Prop where
  chain : ∀ x, x < bucketCount →
    Chain (fun i => (w.slots i).next) (fun i => (w.slots i).prev) kNullIndex (w.headOf x)
      (w.tailOf x) (L x)
  occupied : ∀ x, x < bucketCount → (w.bitOf x = true ↔ L x ≠ [])
  mem : ∀ i x, x < bucketCount → (i ∈ L x ↔ P i ∧ (w.slots i).bucket = x)
  range : ∀ i, P i → (w.slots i).bucket < bucketCount ∧ i ≠ kNullIndex
  sorted : ∀ x, x < 64 → (w.levels 0).bucketSorted x = true →
    (L x).Pairwise (fun i j => (w.slots i).seq < (w.slots j).seq)
      ∧ ∀ i ∈ L x, (w.slots i).seq ≤ (w.levels 0).bucketLastSeq x
  count : ∑ x ∈ Finset.range bucketCount, (L x).length = n

theorem bucket_eq_iff {x y : Nat} : y = x ↔ y / 64 = x / 64 ∧ y % 64 = x % 64 := by
  omega

/-- Replacing one list changes the count by the difference of the lengths. -/
theorem sum_update (L : Nat → List Nat) {x : Nat} (hx : x < bucketCount) (l : List Nat) :
    ∑ y ∈ Finset.range bucketCount, (Function.update L x l y).length + (L x).length
      = ∑ y ∈ Finset.range bucketCount, (L y).length + l.length := by
  have hmem : x ∈ Finset.range bucketCount := Finset.mem_range.mpr hx
  have hrest : ∑ y ∈ (Finset.range bucketCount).erase x, (Function.update L x l y).length
      = ∑ y ∈ (Finset.range bucketCount).erase x, (L y).length := by
    refine Finset.sum_congr rfl fun y hy => ?_
    rw [Function.update_of_ne (Finset.ne_of_mem_erase hy)]
  rw [← Finset.add_sum_erase _ _ hmem, ← Finset.add_sum_erase _ (fun y => (L y).length) hmem, hrest,
    Function.update_self]
  omega

/-! ## Attaching -/

section

variable {idx x : Nat}

/-- The slots after attaching `idx` to bucket `x`. -/
theorem attach_slots (hx : w.routeBucket (w.slots idx).ts = x)
    (hne : w.headOf x ≠ kNullIndex → w.tailOf x ≠ idx) (i : Nat) :
    (w.attach idx).slots i
      = if i = idx then
          { w.slots idx with
            bucket := x, next := kNullIndex
            prev := if w.headOf x = kNullIndex then kNullIndex else w.tailOf x }
        else if w.headOf x ≠ kNullIndex ∧ i = w.tailOf x then { w.slots i with next := idx }
        else w.slots i := by
  subst hx
  unfold attach headOf tailOf kBuckets at *
  dsimp only
  generalize w.routeBucket (w.slots idx).ts = x at *
  by_cases hfirst : (w.levels (x / 64)).head (x % 64) = kNullIndex
  · have hno : ¬ ((w.levels (x / 64)).head (x % 64) ≠ kNullIndex
        ∧ i = (w.levels (x / 64)).tail (x % 64)) := fun hc => hc.1 hfirst
    rw [if_pos hfirst, if_pos hfirst, if_neg hno, Function.update_apply]
  · have ht := hne hfirst
    rw [if_neg hfirst, if_neg hfirst, Function.update_apply]
    by_cases hi : i = idx
    · rw [if_pos hi, if_neg (fun hc => ht (hc.symm.trans hi)), hi, Function.update_self]
    · rw [if_neg hi]
      by_cases hit : i = (w.levels (x / 64)).tail (x % 64)
      · rw [if_pos hit, if_pos ⟨hfirst, hit⟩, Function.update_of_ne ht, ← hit]
      · rw [if_neg hit, if_neg (fun hc => hit hc.2), Function.update_of_ne hi]

/-- The buckets after attaching `idx` to bucket `x`. -/
theorem attach_headOf (hx : w.routeBucket (w.slots idx).ts = x) (y : Nat) :
    (w.attach idx).headOf y
      = if y = x ∧ w.headOf x = kNullIndex then idx else w.headOf y := by
  subst hx
  generalize hx : w.routeBucket (w.slots idx).ts = x
  have hl : (w.attach idx).headOf y = (Function.update w.levels (x / 64)
      { w.levels (x / 64) with
        head := if w.headOf x = kNullIndex
          then Function.update (w.levels (x / 64)).head (x % 64) idx
          else (w.levels (x / 64)).head } (y / 64)).head (y % 64) := by
    subst hx
    unfold headOf attach
    dsimp only [kBuckets]
    by_cases hli : y / 64 = w.routeBucket (w.slots idx).ts / 64
    · rw [hli, Function.update_self, Function.update_self]
    · rw [Function.update_of_ne hli, Function.update_of_ne hli]
  rw [hl]
  by_cases hli : y / 64 = x / 64
  · rw [hli, Function.update_self]
    dsimp only
    by_cases hfirst : w.headOf x = kNullIndex
    · rw [if_pos hfirst, Function.update_apply]
      by_cases hslot : y % 64 = x % 64
      · rw [if_pos hslot, if_pos ⟨bucket_eq_iff.mpr ⟨hli, hslot⟩, hfirst⟩]
      · rw [if_neg hslot, if_neg (fun hc => hslot (bucket_eq_iff.mp hc.1).2)]
        unfold headOf
        rw [hli]
    · rw [if_neg hfirst, if_neg (fun hc => hfirst hc.2)]
      unfold headOf
      rw [hli]
  · rw [Function.update_of_ne hli, if_neg (fun hc => hli (bucket_eq_iff.mp hc.1).1)]
    rfl

theorem attach_tailOf (hx : w.routeBucket (w.slots idx).ts = x) (y : Nat) :
    (w.attach idx).tailOf y = if y = x then idx else w.tailOf y := by
  subst hx
  unfold attach tailOf
  dsimp only [kBuckets]
  generalize w.routeBucket (w.slots idx).ts = x
  by_cases hli : y / 64 = x / 64
  · rw [hli, Function.update_self]
    dsimp only
    rw [Function.update_apply]
    by_cases hslot : y % 64 = x % 64
    · rw [if_pos hslot, if_pos (bucket_eq_iff.mpr ⟨hli, hslot⟩)]
    · rw [if_neg hslot, if_neg (fun hc => hslot (bucket_eq_iff.mp hc).2)]
  · rw [Function.update_of_ne hli, if_neg (fun hc => hli (bucket_eq_iff.mp hc).1)]

theorem attach_bitOf (hx : w.routeBucket (w.slots idx).ts = x) (y : Nat) :
    (w.attach idx).bitOf y = (w.bitOf y || decide (y = x)) := by
  subst hx
  unfold attach bitOf
  dsimp only [kBuckets]
  generalize w.routeBucket (w.slots idx).ts = x
  by_cases hli : y / 64 = x / 64
  · rw [hli, Function.update_self, getLsbD_set (Nat.mod_lt _ (by decide))]
    congr 1
    rw [decide_eq_decide, bucket_eq_iff (x := x)]
    exact ⟨fun h => ⟨hli, h⟩, fun h => h.2⟩
  · rw [Function.update_of_ne hli, decide_eq_false (fun hc => hli (bucket_eq_iff.mp hc).1),
      Bool.or_false]

/-- The order flag of a bucket of level 0 after attaching `idx` to bucket `x`. -/
theorem attach_sorted (hx : w.routeBucket (w.slots idx).ts = x) {y : Nat} (hy : y < 64)
    (hhead : w.headOf x ≠ idx) :
    ((w.attach idx).levels 0).bucketSorted y
        = (if y = x then
            decide (w.headOf x = kNullIndex) || ((w.levels 0).bucketSorted y
              && decide ((w.levels 0).bucketLastSeq y < (w.slots idx).seq))
          else (w.levels 0).bucketSorted y)
      ∧ ((w.attach idx).levels 0).bucketLastSeq y
        = if y = x then (w.slots idx).seq else (w.levels 0).bucketLastSeq y := by
  subst hx
  unfold attach headOf at *
  dsimp only [kBuckets] at *
  generalize w.routeBucket (w.slots idx).ts = x at *
  by_cases hli : (0 : Nat) = x / 64
  · have hyx : y = x ↔ y = x % 64 := by omega
    rw [← hli] at hhead ⊢
    rw [Function.update_self, if_pos rfl, if_pos rfl]
    dsimp only
    rw [Function.update_apply, Function.update_apply]
    by_cases hslot : y = x % 64
    · rw [if_pos hslot, if_pos hslot, if_pos (hyx.mpr hslot), if_pos (hyx.mpr hslot), hslot]
      refine ⟨?_, rfl⟩
      by_cases hfirst : (w.levels 0).head (x % 64) = kNullIndex
      · rw [if_pos hfirst, Function.update_self, if_pos rfl, decide_eq_true hfirst, Bool.true_or]
      · rw [if_neg hfirst, if_neg hhead, decide_eq_false hfirst, Bool.false_or]
    · rw [if_neg hslot, if_neg hslot, if_neg (fun hc => hslot (hyx.mp hc)),
        if_neg (fun hc => hslot (hyx.mp hc))]
      exact ⟨rfl, rfl⟩
  · have hyx : y ≠ x := by
      rintro rfl
      omega
    rw [Function.update_of_ne hli, if_neg hyx, if_neg hyx]
    exact ⟨rfl, rfl⟩

end

section

variable {P : Nat → Prop} {L : Nat → List Nat} {n idx x : Nat}

theorem Chained.present (h : Chained P w L n) (hx : x < bucketCount) {i : Nat} (hi : i ∈ L x) :
    P i ∧ (w.slots i).bucket = x := (h.mem i x hx).mp hi

/-- The ends of a chain are events of its list. -/
theorem Chained.ends (h : Chained P w L n) (hx : x < bucketCount)
    (hfirst : w.headOf x ≠ kNullIndex) : w.headOf x ∈ L x ∧ w.tailOf x ∈ L x := by
  have hc := h.chain x hx
  have hne : L x ≠ [] := fun he => hfirst (hc.head_eq_null.mpr he)
  refine ⟨?_, hc.tail_mem fun ht => hne (hc.tail_eq_null.mp ht)⟩
  cases hl : L x with
  | nil => exact absurd hl hne
  | cons a l =>
      rw [hl] at hc
      rw [hc.head_cons]
      exact List.mem_cons_self

/-- An event on no list is no end of the chain that it is attached to. -/
theorem Chained.fresh (h : Chained P w L n) (hP : ¬ P idx) (hnull : idx ≠ kNullIndex)
    (hlt : x < bucketCount) : idx ∉ L x ∧ w.headOf x ≠ idx
      ∧ (w.headOf x ≠ kNullIndex → w.tailOf x ≠ idx) := by
  have hout : idx ∉ L x := fun hm => hP (h.present hlt hm).1
  refine ⟨hout, fun hc => ?_, fun hf ht => hout (ht ▸ (h.ends hlt hf).2)⟩
  by_cases hf : w.headOf x = kNullIndex
  · exact hnull (hc.symm.trans hf)
  · exact hout (hc ▸ (h.ends hlt hf).1)

/-- What attaching does to the slots: `idx` is in bucket `x`, the old tail points to it. -/
theorem Chained.attach_fields (h : Chained P w L n) (hP : ¬ P idx) (hnull : idx ≠ kNullIndex)
    (hx : w.routeBucket (w.slots idx).ts = x) (hlt : x < bucketCount) :
    Rechained w (w.attach idx) ∧ ((w.attach idx).slots idx).bucket = x
      ∧ ∀ i, i ≠ idx → ((w.attach idx).slots i).bucket = (w.slots i).bucket
        ∧ ((w.attach idx).slots i).prev = (w.slots i).prev
        ∧ (¬ (w.headOf x ≠ kNullIndex ∧ i = w.tailOf x) →
          ((w.attach idx).slots i).next = (w.slots i).next) := by
  have hslots := attach_slots hx (h.fresh hP hnull hlt).2.2
  refine ⟨⟨rfl, rfl, rfl, rfl, rfl, rfl, fun i => ?_⟩, ?_, fun i hi => ⟨?_, ?_, fun hno => ?_⟩⟩
  · rw [hslots]
    split
    · next hi => exact ⟨_, _, _, by rw [hi]⟩
    split
    · exact ⟨(w.slots i).bucket, (w.slots i).prev, idx, rfl⟩
    · exact ⟨(w.slots i).bucket, (w.slots i).prev, (w.slots i).next, rfl⟩
  · rw [hslots, if_pos rfl]
  · rw [hslots, if_neg hi]
    split <;> rfl
  · rw [hslots, if_neg hi]
    split <;> rfl
  · rw [hslots, if_neg hi, if_neg hno]

/-- The chains after an event has been attached. -/
theorem Chained.attach_chain (h : Chained P w L n) (hP : ¬ P idx) (hnull : idx ≠ kNullIndex)
    (hx : w.routeBucket (w.slots idx).ts = x) (hlt : x < bucketCount) {y : Nat}
    (hy : y < bucketCount) :
    Chain (fun i => ((w.attach idx).slots i).next) (fun i => ((w.attach idx).slots i).prev)
      kNullIndex ((w.attach idx).headOf y) ((w.attach idx).tailOf y)
      (Function.update L x (L x ++ [idx]) y) := by
  have hc := h.chain y hy
  have hidx := (h.fresh hP hnull hy).1
  have hslots := attach_slots hx (h.fresh hP hnull hlt).2.2
  have hself := (hslots idx).trans (if_pos rfl)
  obtain ⟨-, -, hframe⟩ := h.attach_fields hP hnull hx hlt
  have hprev : ∀ i ∈ L y, ((w.attach idx).slots i).prev = (w.slots i).prev :=
    fun i hi => (hframe i (fun he => hidx (he ▸ hi))).2.1
  have hnext : ∀ i ∈ L y, ¬ (w.headOf x ≠ kNullIndex ∧ i = w.tailOf x) →
      ((w.attach idx).slots i).next = (w.slots i).next :=
    fun i hi => (hframe i (fun he => hidx (he ▸ hi))).2.2
  rw [attach_headOf hx, attach_tailOf hx]
  by_cases hyx : y = x
  · subst hyx
    rw [Function.update_self, if_pos rfl]
    have hends : w.tailOf y = kNullIndex ↔ w.headOf y = kNullIndex :=
      hc.tail_eq_null.trans hc.head_eq_null.symm
    have hhead' : (if y = y ∧ w.headOf y = kNullIndex then idx else w.headOf y)
        = if w.tailOf y = kNullIndex then idx else w.headOf y := by
      by_cases hf : w.headOf y = kNullIndex
      · rw [if_pos ⟨rfl, hf⟩, if_pos (hends.mpr hf)]
      · rw [if_neg (fun hn => hf hn.2), if_neg (fun hn => hf (hends.mp hn))]
    rw [hhead']
    refine hc.snoc hidx hnull (fun i hi hne => hnext i hi (fun hn => hne hn.2)) hprev
      (fun ht => ?_) ?_ ?_
    · have hf : w.headOf y ≠ kNullIndex := fun hf => ht (hends.mpr hf)
      rw [hslots, if_neg ((h.fresh hP hnull hy).2.2 hf), if_pos ⟨hf, rfl⟩]
    · rw [hself]
    · rw [hself]
      by_cases hf : w.headOf y = kNullIndex
      · rw [if_pos hf]
        exact (hends.mpr hf).symm
      · rw [if_neg hf]
  · rw [Function.update_of_ne hyx, if_neg (fun hn => hyx hn.1), if_neg hyx]
    refine hc.congr (fun i hi => hnext i hi fun hn => hyx ?_) hprev
    -- the old tail of bucket `x` is on no other list
    have hb := (h.present hlt (h.ends hlt hn.1).2).2
    rw [← hn.2, (h.present hy hi).2] at hb
    exact hb

/-- The order flags of level 0 after an event has been attached. -/
theorem Chained.attach_order (h : Chained P w L n) (hP : ¬ P idx) (hnull : idx ≠ kNullIndex)
    (hx : w.routeBucket (w.slots idx).ts = x) (hlt : x < bucketCount) {y : Nat} (hy : y < 64)
    (hs : ((w.attach idx).levels 0).bucketSorted y = true) :
    (Function.update L x (L x ++ [idx]) y).Pairwise
        (fun i j => ((w.attach idx).slots i).seq < ((w.attach idx).slots j).seq)
      ∧ ∀ i ∈ Function.update L x (L x ++ [idx]) y,
        ((w.attach idx).slots i).seq ≤ ((w.attach idx).levels 0).bucketLastSeq y := by
  obtain ⟨hflag, hlast⟩ := attach_sorted hx hy (h.fresh hP hnull hlt).2.1
  rw [hflag] at hs
  rw [hlast]
  have hseq : ∀ i, ((w.attach idx).slots i).seq = (w.slots i).seq :=
    (h.attach_fields hP hnull hx hlt).1.seq
  simp only [hseq]
  by_cases hyx : y = x
  · subst hyx
    rw [if_pos rfl] at hs ⊢
    rw [Function.update_self]
    have hempty := (h.chain y hlt).head_eq_null
    rcases Bool.or_eq_true_iff.mp hs with hf | hf
    · rw [hempty.mp (of_decide_eq_true hf)]
      exact ⟨List.pairwise_singleton _ _, fun i hi => by rw [List.mem_singleton.mp hi]⟩
    · obtain ⟨hsorted, hless⟩ := Bool.and_eq_true_iff.mp hf
      obtain ⟨hpair, hle⟩ := h.sorted y hy hsorted
      have hless' := of_decide_eq_true hless
      refine ⟨List.pairwise_append.mpr ⟨hpair, List.pairwise_singleton _ _, ?_⟩, fun i hi => ?_⟩
      · intro i hi j hj
        rw [List.mem_singleton.mp hj]
        exact Nat.lt_of_le_of_lt (hle i hi) hless'
      · rcases List.mem_append.mp hi with hi | hi
        · exact Nat.le_of_lt (Nat.lt_of_le_of_lt (hle i hi) hless')
        · rw [List.mem_singleton.mp hi]
  · rw [if_neg hyx] at hs ⊢
    rw [Function.update_of_ne hyx]
    exact h.sorted y hy hs

/-- **Attaching** appends to the list of the routed bucket. -/
theorem Chained.attach (h : Chained P w L n) (hP : ¬ P idx) (hnull : idx ≠ kNullIndex)
    (hx : w.routeBucket (w.slots idx).ts = x) (hlt : x < bucketCount) :
    Chained (fun i => P i ∨ i = idx) (w.attach idx) (Function.update L x (L x ++ [idx])) (n + 1)
      ∧ Rechained w (w.attach idx) ∧ ((w.attach idx).slots idx).bucket = x
      ∧ ∀ i, i ≠ idx → ((w.attach idx).slots i).bucket = (w.slots i).bucket := by
  obtain ⟨hre, hselfb, hframe⟩ := h.attach_fields hP hnull hx hlt
  refine ⟨⟨fun y hy => h.attach_chain hP hnull hx hlt hy, fun y hy => ?_, fun i y hy => ?_,
    fun i hi => ?_, fun y hy hs => h.attach_order hP hnull hx hlt hy hs, ?_⟩, hre, hselfb,
    fun i hi => (hframe i hi).1⟩
  · rw [attach_bitOf hx]
    by_cases hyx : y = x
    · subst hyx
      rw [Function.update_self, decide_eq_true rfl, Bool.or_true]
      exact ⟨fun _ => by simp, fun _ => rfl⟩
    · rw [Function.update_of_ne hyx, decide_eq_false hyx, Bool.or_false]
      exact h.occupied y hy
  · by_cases hi : i = idx
    · subst hi
      rw [hselfb]
      by_cases hyx : y = x
      · subst hyx
        rw [Function.update_self]
        simp
      · rw [Function.update_of_ne hyx]
        exact ⟨fun hm => absurd hm (h.fresh hP hnull hy).1, fun hm => absurd hm.2.symm hyx⟩
    · rw [(hframe i hi).1, or_iff_left hi, ← h.mem i y hy]
      by_cases hyx : y = x
      · subst hyx
        rw [Function.update_self, List.mem_append, List.mem_singleton, or_iff_left hi]
      · rw [Function.update_of_ne hyx]
  · by_cases hii : i = idx
    · rw [hii, hselfb]
      exact ⟨hlt, hnull⟩
    · rw [(hframe i hii).1]
      exact h.range i (hi.resolve_right hii)
  · have hsum := sum_update L hlt (L x ++ [idx])
    rw [h.count, List.length_append, List.length_singleton] at hsum
    omega

end

/-! ## Detaching -/

section

variable {idx x : Nat}

/-- The slots other than `idx` after detaching it. -/
theorem detach_slots (w : TimingWheel α) {i : Nat} (hi : i ≠ idx) :
    (w.detach idx).slots i = { w.slots i with
      next := if (w.slots idx).prev ≠ kNullIndex ∧ i = (w.slots idx).prev then (w.slots idx).next
        else (w.slots i).next
      prev := if (w.slots idx).next ≠ kNullIndex ∧ i = (w.slots idx).next then (w.slots idx).prev
        else (w.slots i).prev } := by
  unfold detach
  dsimp only
  rw [Function.update_of_ne hi]
  generalize (w.slots idx).prev = p
  generalize (w.slots idx).next = q
  by_cases hp : p = kNullIndex
  · have hnp : ¬ (p ≠ kNullIndex ∧ i = p) := fun hc => hc.1 hp
    rw [if_neg (not_not.mpr hp), if_neg hnp]
    by_cases hq : q = kNullIndex
    · rw [if_neg (not_not.mpr hq), if_neg (fun hc => hc.1 hq)]
    · rw [if_pos hq, Function.update_apply]
      by_cases hiq : i = q
      · rw [if_pos hiq, if_pos ⟨hq, hiq⟩, hiq]
      · rw [if_neg hiq, if_neg (fun hc => hiq hc.2)]
  · rw [if_pos hp]
    by_cases hq : q = kNullIndex
    · have hno : ¬ (q ≠ kNullIndex ∧ i = q) := fun hc => hc.1 hq
      rw [if_neg (not_not.mpr hq), if_neg hno, Function.update_apply]
      by_cases hip : i = p
      · rw [if_pos hip, if_pos ⟨hp, hip⟩, hip]
      · rw [if_neg hip, if_neg (fun hc => hip hc.2)]
    · rw [if_pos hq, Function.update_apply, Function.update_apply, Function.update_apply]
      by_cases hiq : i = q
      · rw [if_pos hiq, if_pos (show q ≠ kNullIndex ∧ i = q from ⟨hq, hiq⟩), ← hiq]
        by_cases hip : i = p
        · rw [if_pos hip, if_pos ⟨hp, hip⟩, hip]
        · rw [if_neg hip, if_neg (fun hc => hip hc.2)]
      · rw [if_neg hiq, if_neg (show ¬ (q ≠ kNullIndex ∧ i = q) from fun hc => hiq hc.2)]
        by_cases hip : i = p
        · rw [if_pos hip, if_pos ⟨hp, hip⟩, hip]
        · rw [if_neg hip, if_neg (fun hc => hip hc.2)]

theorem detach_rechained (w : TimingWheel α) (idx : Nat) : Rechained w (w.detach idx) := by
  refine ⟨rfl, rfl, rfl, rfl, rfl, rfl, fun i => ?_⟩
  by_cases hi : i = idx
  · subst hi
    unfold detach
    dsimp only
    rw [Function.update_self]
    generalize (w.slots i).prev = p
    generalize (w.slots i).next = q
    have hstep : ∀ (f : Nat → WheelSlot α) (j : Nat) (g : WheelSlot α → WheelSlot α),
        (∀ s, ∃ p n, g s = { s with prev := p, next := n }) →
        (∃ p n, f i = { w.slots i with prev := p, next := n }) →
        ∃ p n, Function.update f j (g (f j)) i = { w.slots i with prev := p, next := n } := by
      intro f j g hg hf
      rw [Function.update_apply]
      split
      · next hij =>
          obtain ⟨p₁, n₁, h₁⟩ := hf
          obtain ⟨p₂, n₂, h₂⟩ := hg (f j)
          exact ⟨p₂, n₂, by rw [h₂, ← hij, h₁]⟩
      · exact hf
    have h₁ : ∃ p' n', (if p ≠ kNullIndex then
          Function.update w.slots p { w.slots p with next := q } else w.slots) i
        = { w.slots i with prev := p', next := n' } := by
      split
      · exact hstep w.slots p (fun s => { s with next := q }) (fun s => ⟨s.prev, q, rfl⟩)
          ⟨(w.slots i).prev, (w.slots i).next, rfl⟩
      · exact ⟨(w.slots i).prev, (w.slots i).next, rfl⟩
    generalize (if p ≠ kNullIndex then
      Function.update w.slots p { w.slots p with next := q } else w.slots) = f at *
    have h₂ : ∃ p' n', (if q ≠ kNullIndex then
          Function.update f q { f q with prev := p } else f) i
        = { w.slots i with prev := p', next := n' } := by
      split
      · exact hstep f q (fun s => { s with prev := p }) (fun s => ⟨p, s.next, rfl⟩) h₁
      · exact h₁
    obtain ⟨p', n', h₂⟩ := h₂
    exact ⟨kNullIndex, p', n', by rw [h₂]⟩
  · exact ⟨_, _, _, detach_slots w hi⟩

/-- The buckets after detaching an event of bucket `x`. -/
theorem detach_headOf (hx : (w.slots idx).bucket = x) (y : Nat) :
    (w.detach idx).headOf y
      = if y = x ∧ (w.slots idx).prev = kNullIndex then (w.slots idx).next else w.headOf y := by
  subst hx
  unfold detach headOf
  dsimp only [kBuckets]
  generalize (w.slots idx).bucket = x
  by_cases hli : y / 64 = x / 64
  · rw [hli, Function.update_self]
    dsimp only
    by_cases hp : (w.slots idx).prev = kNullIndex
    · rw [if_neg (not_not.mpr hp), Function.update_apply]
      by_cases hslot : y % 64 = x % 64
      · rw [if_pos hslot, if_pos ⟨bucket_eq_iff.mpr ⟨hli, hslot⟩, hp⟩]
      · rw [if_neg hslot, if_neg (fun hc => hslot (bucket_eq_iff.mp hc.1).2)]
    · rw [if_pos hp, if_neg (fun hc => hp hc.2)]
  · rw [Function.update_of_ne hli, if_neg (fun hc => hli (bucket_eq_iff.mp hc.1).1)]

theorem detach_tailOf (hx : (w.slots idx).bucket = x) (y : Nat) :
    (w.detach idx).tailOf y
      = if y = x ∧ (w.slots idx).next = kNullIndex then (w.slots idx).prev else w.tailOf y := by
  subst hx
  unfold detach tailOf
  dsimp only [kBuckets]
  generalize (w.slots idx).bucket = x
  by_cases hli : y / 64 = x / 64
  · rw [hli, Function.update_self]
    dsimp only
    by_cases hq : (w.slots idx).next = kNullIndex
    · rw [if_neg (not_not.mpr hq), Function.update_apply]
      by_cases hslot : y % 64 = x % 64
      · rw [if_pos hslot, if_pos ⟨bucket_eq_iff.mpr ⟨hli, hslot⟩, hq⟩]
      · rw [if_neg hslot, if_neg (fun hc => hslot (bucket_eq_iff.mp hc.1).2)]
    · rw [if_pos hq, if_neg (fun hc => hq hc.2)]
  · rw [Function.update_of_ne hli, if_neg (fun hc => hli (bucket_eq_iff.mp hc.1).1)]

/-- The head of the bucket itself. -/
theorem detach_headOf_self (hx : (w.slots idx).bucket = x) :
    (w.detach idx).headOf x
      = (if (w.slots idx).prev ≠ kNullIndex then (w.levels (x / 64)).head
          else Function.update (w.levels (x / 64)).head (x % 64) (w.slots idx).next) (x % 64) := by
  rw [detach_headOf hx]
  by_cases hp : (w.slots idx).prev = kNullIndex
  · rw [if_pos ⟨rfl, hp⟩, if_neg (not_not.mpr hp), Function.update_self]
  · rw [if_neg (fun hc => hp hc.2), if_pos hp]
    rfl

theorem detach_bitOf (hx : (w.slots idx).bucket = x) (y : Nat) :
    (w.detach idx).bitOf y
      = (w.bitOf y && !decide (y = x ∧ (w.detach idx).headOf x = kNullIndex)) := by
  rw [detach_headOf_self hx]
  subst hx
  unfold detach bitOf
  dsimp only [kBuckets]
  generalize (w.slots idx).bucket = x
  generalize (if (w.slots idx).prev ≠ kNullIndex then (w.levels (x / 64)).head
    else Function.update (w.levels (x / 64)).head (x % 64) (w.slots idx).next) = head
  by_cases hli : y / 64 = x / 64
  · rw [hli, Function.update_self]
    dsimp only
    by_cases he : head (x % 64) = kNullIndex
    · rw [if_pos he, getLsbD_clear (Nat.mod_lt _ (by decide))]
      congr 2
      rw [decide_eq_decide, bucket_eq_iff (x := x)]
      exact ⟨fun h => ⟨⟨hli, h⟩, he⟩, fun h => h.1.2⟩
    · rw [if_neg he, decide_eq_false (fun hc => he hc.2), Bool.not_false, Bool.and_true]
  · rw [Function.update_of_ne hli,
      decide_eq_false (fun hc => hli (bucket_eq_iff.mp hc.1).1), Bool.not_false, Bool.and_true]

theorem detach_sorted (hx : (w.slots idx).bucket = x) {y : Nat} (hy : y < 64) :
    ((w.detach idx).levels 0).bucketSorted y
        = (if y = x ∧ (w.detach idx).headOf x = kNullIndex then false
          else (w.levels 0).bucketSorted y)
      ∧ ((w.detach idx).levels 0).bucketLastSeq y = (w.levels 0).bucketLastSeq y := by
  rw [detach_headOf_self hx]
  subst hx
  unfold detach
  dsimp only [kBuckets]
  generalize (w.slots idx).bucket = x
  generalize (if (w.slots idx).prev ≠ kNullIndex then (w.levels (x / 64)).head
    else Function.update (w.levels (x / 64)).head (x % 64) (w.slots idx).next) = head
  by_cases hli : (0 : Nat) = x / 64
  · have hyx : y = x ↔ y = x % 64 := by omega
    rw [← hli, Function.update_self]
    dsimp only
    refine ⟨?_, rfl⟩
    by_cases he : head (x % 64) = kNullIndex
    · rw [if_pos ⟨he, rfl⟩, Function.update_apply]
      by_cases hslot : y = x % 64
      · rw [if_pos hslot, if_pos ⟨hyx.mpr hslot, he⟩]
      · rw [if_neg hslot, if_neg (fun hc => hslot (hyx.mp hc.1))]
    · rw [if_neg (fun hc => he hc.1), if_neg (fun hc => he hc.2)]
  · have hyx : y ≠ x := by
      rintro rfl
      omega
    rw [Function.update_of_ne hli, if_neg (fun hc => hyx hc.1)]
    exact ⟨rfl, rfl⟩

variable {P : Nat → Prop} {L : Nat → List Nat} {n : Nat}

/-- **Detaching** erases from the list of the event's bucket. -/
theorem Chained.detach (h : Chained P w L n) (hP : P idx) (hx : (w.slots idx).bucket = x) :
    Chained (fun i => P i ∧ i ≠ idx) (w.detach idx) (Function.update L x ((L x).erase idx)) (n - 1)
      ∧ ∀ i, i ≠ idx → ((w.detach idx).slots i).bucket = (w.slots i).bucket := by
  have hlt : x < bucketCount := hx ▸ (h.range idx hP).1
  have hin : idx ∈ L x := (h.mem idx x hlt).mpr ⟨hP, hx⟩
  have hcx := h.chain x hlt
  have hre := detach_rechained w idx
  have hslots : ∀ i, i ≠ idx → (w.detach idx).slots i = _ := fun i hi => detach_slots w hi
  have hbucket : ∀ i, i ≠ idx → ((w.detach idx).slots i).bucket = (w.slots i).bucket := by
    intro i hi
    rw [hslots i hi]
  -- The event stands in one list only, and no list holds the null index.
  have hnotin : ∀ y, y < bucketCount → y ≠ x → idx ∉ L y := fun y hy hyx hm =>
    hyx ((h.present hy hm).2.symm.trans hx)
  have hnull : ∀ y, y < bucketCount → ∀ i ∈ L y, i ≠ kNullIndex := fun y hy i hi he =>
    (h.chain y hy).ne_null (he ▸ hi)
  -- Bucket `x` is spliced; every other bucket keeps its ends and its pointers.
  have hchain : ∀ y, y < bucketCount →
      Chain (fun i => ((w.detach idx).slots i).next) (fun i => ((w.detach idx).slots i).prev)
        kNullIndex ((w.detach idx).headOf y) ((w.detach idx).tailOf y)
        (Function.update L x ((L x).erase idx) y) := by
    intro y hy
    rw [detach_headOf hx, detach_tailOf hx]
    by_cases hyx : y = x
    · subst hyx
      rw [Function.update_self]
      have hhead : (if y = y ∧ (w.slots idx).prev = kNullIndex then (w.slots idx).next
          else w.headOf y) = if (w.slots idx).prev = kNullIndex then (w.slots idx).next
            else w.headOf y := by simp
      have htail : (if y = y ∧ (w.slots idx).next = kNullIndex then (w.slots idx).prev
          else w.tailOf y) = if (w.slots idx).next = kNullIndex then (w.slots idx).prev
            else w.tailOf y := by simp
      rw [hhead, htail]
      refine hcx.unlink hin (fun i hi hne => ?_) (fun i hi hne => ?_)
      · rw [hslots i hne]
        dsimp only
        by_cases hip : i = (w.slots idx).prev
        · rw [if_pos hip, if_pos ⟨hip ▸ hnull y hy i hi, hip⟩]
        · rw [if_neg hip, if_neg (fun hc => hip hc.2)]
      · rw [hslots i hne]
        dsimp only
        by_cases hiq : i = (w.slots idx).next
        · rw [if_pos hiq, if_pos ⟨hiq ▸ hnull y hy i hi, hiq⟩]
        · rw [if_neg hiq, if_neg (fun hc => hiq hc.2)]
    · rw [Function.update_of_ne hyx, if_neg (fun hc => hyx hc.1), if_neg (fun hc => hyx hc.1)]
      -- The neighbours of the event stand in its own bucket, so no other list meets them.
      have hfar : ∀ i ∈ L y, i ≠ (w.slots idx).prev ∧ i ≠ (w.slots idx).next := by
        intro i hi
        have hb := (h.present hy hi).2
        constructor
        · intro he
          rcases hcx.prv_mem hin with hp | hp
          · exact hnull y hy i hi (he.trans hp)
          · exact hyx (hb.symm.trans (he ▸ (h.present hlt hp).2))
        · intro he
          rcases hcx.nxt_mem hin with hq | hq
          · exact hnull y hy i hi (he.trans hq)
          · exact hyx (hb.symm.trans (he ▸ (h.present hlt hq).2))
      have hne : ∀ i ∈ L y, i ≠ idx := fun i hi he => hnotin y hy hyx (he ▸ hi)
      refine (h.chain y hy).congr (fun i hi => ?_) (fun i hi => ?_)
      · rw [hslots i (hne i hi)]
        exact if_neg fun hc => (hfar i hi).1 hc.2
      · rw [hslots i (hne i hi)]
        exact if_neg fun hc => (hfar i hi).2 hc.2
  -- The bucket falls empty when its head has become null.
  have hempty : (w.detach idx).headOf x = kNullIndex ↔ (L x).erase idx = [] := by
    have hh := (hchain x hlt).head_eq_null
    rw [Function.update_self] at hh
    exact hh
  refine ⟨⟨hchain, fun y hy => ?_, fun i y hy => ?_, fun i hi => ?_, fun y hy hs => ?_, ?_⟩, hbucket⟩
  -- The bit of an emptied bucket is cleared, and no other one.
  · rw [detach_bitOf hx]
    by_cases hyx : y = x
    · subst hyx
      have hbit : w.bitOf y = true := (h.occupied y hy).mpr (List.ne_nil_of_mem hin)
      rw [Function.update_self, hbit, Bool.true_and, Bool.not_eq_true', decide_eq_false_iff_not]
      exact ⟨fun hc he => hc ⟨rfl, hempty.mpr he⟩, fun hc he => hc (hempty.mp he.2)⟩
    · rw [Function.update_of_ne hyx, decide_eq_false (fun hc => hyx hc.1), Bool.not_false,
        Bool.and_true]
      exact h.occupied y hy
  -- The event's own slot names its bucket still, but is no longer one of the present.
  · by_cases hi : i = idx
    · subst hi
      refine ⟨fun hm => ?_, fun hm => absurd rfl hm.1.2⟩
      by_cases hyx : y = x
      · subst hyx
        rw [Function.update_self] at hm
        exact absurd hm (fun hc => ((h.chain y hy).nodup.mem_erase_iff.mp hc).1 rfl)
      · rw [Function.update_of_ne hyx] at hm
        exact absurd hm (hnotin y hy hyx)
    · rw [hbucket i hi, and_iff_left hi, ← h.mem i y hy]
      by_cases hyx : y = x
      · subst hyx
        rw [Function.update_self, List.mem_erase_of_ne hi]
      · rw [Function.update_of_ne hyx]
  · rw [hbucket i hi.2]
    exact h.range i hi.1
  -- A sublist of a sorted bucket is sorted; an emptied bucket loses the flag.
  · obtain ⟨hflag, hlast⟩ := detach_sorted hx hy
    rw [hflag] at hs
    rw [hlast]
    have hseq : ∀ i, ((w.detach idx).slots i).seq = (w.slots i).seq := hre.seq
    simp only [hseq]
    have hwas : (w.levels 0).bucketSorted y = true := by
      by_cases hc : y = x ∧ (w.detach idx).headOf x = kNullIndex
      · rw [if_pos hc] at hs
        exact Bool.noConfusion hs
      · rw [if_neg hc] at hs
        exact hs
    obtain ⟨hpair, hle⟩ := h.sorted y hy hwas
    by_cases hyx : y = x
    · subst hyx
      rw [Function.update_self]
      exact ⟨hpair.sublist List.erase_sublist, fun i hi => hle i (List.mem_of_mem_erase hi)⟩
    · rw [Function.update_of_ne hyx]
      exact ⟨hpair, hle⟩
  -- One event fewer in all the lists together.
  · have hsum := sum_update L hlt ((L x).erase idx)
    rw [h.count, List.length_erase_of_mem hin] at hsum
    have hpos := List.length_pos_of_mem hin
    omega

end

end TimingWheel

end Mog
