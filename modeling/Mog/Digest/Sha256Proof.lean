import Mathlib.Data.List.GetD
import Mathlib.Tactic.IntervalCases
import Mathlib.Tactic.Ring
import Mog.Digest.Sha256
import Mog.Lib.Fips180

/-!
# The running digest is SHA-256

The compression is that of the standard, word by word and round by round. An object that has
been given `l`, in whatever pieces, has taken the whole blocks of `l` and keeps the rest; so
finishing it takes the blocks of the padded message.

The proof has two halves. Words: the schedule is kept in a window of sixteen, and the rounds
rename their eight variables instead of moving them, so each is matched with the standard's by
induction on the round. Bytes: what has been taken and what is kept back is a stream cut into
blocks, and padding is done where the length is known.
-/

namespace Mog

namespace Sha256

open BlockStream

/-! ## Words -/

/-- The constants of the code are the standard's. -/
theorem kK_eq : ∀ i < 64, kK.getD i 0 = Fips180.K i := by
  decide +kernel

/-- To shift and fill in is to add, where the filler fits. -/
theorem shl_or {x y : Nat} (n : Nat) (h : y < 2 ^ n) : x * 2 ^ n ||| y = x * 2 ^ n + y := by
  rw [Nat.mul_comm, Nat.two_pow_add_eq_or_of_lt h]

/-- A byte in its place within a word. -/
theorem toNat_shl (b : UInt8) {n : Nat} (h : n ≤ 24) :
    (b.toUInt32 <<< UInt32.ofNat n).toNat = b.toNat * 2 ^ n := by
  have hb : b.toNat < 2 ^ 8 := b.toNat_lt
  have hmod : (UInt32.ofNat n).toNat % 32 = n := by
    rw [UInt32.toNat_ofNat']
    omega
  have hlt : b.toNat * 2 ^ n < 2 ^ 32 := calc
    b.toNat * 2 ^ n < 2 ^ 8 * 2 ^ n := Nat.mul_lt_mul_of_pos_right hb (Nat.two_pow_pos n)
    _ = 2 ^ (8 + n) := (Nat.pow_add 2 8 n).symm
    _ ≤ 2 ^ 32 := Nat.pow_le_pow_right (by decide) (by omega)
  rw [UInt32.toNat_shiftLeft, hmod, UInt8.toNat_toUInt32, Nat.shiftLeft_eq, Nat.mod_eq_of_lt hlt]

/-- Four bytes, shifted into place and joined. -/
theorem toNat_join (b0 b1 b2 b3 : UInt8) :
    (b0.toUInt32 <<< 24 ||| b1.toUInt32 <<< 16 ||| b2.toUInt32 <<< 8 ||| b3.toUInt32).toNat
      = b0.toNat * 2 ^ 24 + b1.toNat * 2 ^ 16 + b2.toNat * 2 ^ 8 + b3.toNat := by
  have h1 : b1.toNat < 2 ^ 8 := b1.toNat_lt
  have h2 : b2.toNat < 2 ^ 8 := b2.toNat_lt
  have h3 : b3.toNat < 2 ^ 8 := b3.toNat_lt
  have e0 : (b0.toUInt32 <<< 24).toNat = b0.toNat * 2 ^ 24 := toNat_shl b0 (by decide)
  have e1 : (b1.toUInt32 <<< 16).toNat = b1.toNat * 2 ^ 16 := toNat_shl b1 (by decide)
  have e2 : (b2.toUInt32 <<< 8).toNat = b2.toNat * 2 ^ 8 := toNat_shl b2 (by decide)
  -- each part ends where the next byte begins
  have p1 : b0.toNat * 2 ^ 24 + b1.toNat * 2 ^ 16 = (b0.toNat * 2 ^ 8 + b1.toNat) * 2 ^ 16 := by
    ring
  have p2 : (b0.toNat * 2 ^ 8 + b1.toNat) * 2 ^ 16 + b2.toNat * 2 ^ 8
      = (b0.toNat * 2 ^ 16 + b1.toNat * 2 ^ 8 + b2.toNat) * 2 ^ 8 := by
    ring
  have hor1 := shl_or (x := b0.toNat) 24 (show b1.toNat * 2 ^ 16 < 2 ^ 24 by omega)
  have hor2 := shl_or (x := b0.toNat * 2 ^ 8 + b1.toNat) 16 (show b2.toNat * 2 ^ 8 < 2 ^ 16 by omega)
  rw [UInt32.toNat_or, UInt32.toNat_or, UInt32.toNat_or, e0, e1, e2, UInt8.toNat_toUInt32]
  rw [hor1, p1, hor2, p2, shl_or 8 h3, ← p2, ← p1]

/-- A word is read from four bytes, the most significant first. -/
theorem loadWord_eq (block : List UInt8) (i : Nat) : loadWord block i = Fips180.wordAt block i := by
  apply UInt32.toNat_inj.mp
  rw [loadWord, toNat_join, Fips180.wordAt, UInt32.toNat_ofNat', Nat.mod_eq_of_lt]
  · rfl
  · have h0 := (block.getD (4 * i + 0) 0).toNat_lt
    have h1 := (block.getD (4 * i + 1) 0).toNat_lt
    have h2 := (block.getD (4 * i + 2) 0).toNat_lt
    have h3 := (block.getD (4 * i + 3) 0).toNat_lt
    dsimp only
    omega

/-! ## The message schedule -/

/-- `w` holds the schedule below `n`. -/
def Scheduled (block : List UInt8) (w : List UInt32) (n : Nat) : Prop :=
  w.length = n ∧ ∀ t < n, w.getD t 0 = Fips180.W block t

theorem scheduled_input (block : List UInt8) :
    Scheduled block ((List.range 16).map (loadWord block)) 16 := by
  refine ⟨by rw [List.length_map, List.length_range], fun t ht => ?_⟩
  rw [Fips180.W_input ht, ← loadWord_eq, List.getD_eq_getElem?_getD, List.getElem?_map,
    List.getElem?_range ht]
  rfl

/-- One turn of the extension computes the next word of the schedule. -/
theorem scheduled_extend {block : List UInt8} {w : List UInt32} {n : Nat} (hn : 16 ≤ n)
    (h : Scheduled block w n) : Scheduled block (extend w n) (n + 1) := by
  rcases h with ⟨hlen, hw⟩
  unfold extend
  refine ⟨by rw [List.length_append, hlen]; rfl, fun t ht => ?_⟩
  by_cases hnew : t = n
  · rw [hnew, ← hlen, List.getD_append_right _ _ _ _ (Nat.le_refl _), Nat.sub_self, hlen,
      hw (n - 15) (by omega), hw (n - 2) (by omega), hw (n - 16) (by omega), hw (n - 7) (by omega),
      Fips180.W_recurrence hn]
    show _ + Fips180.smallSigma0 _ + _ + Fips180.smallSigma1 _ = _
    ac_rfl
  · rw [List.getD_append _ _ _ _ (by omega)]
    exact hw t (by omega)

/-- `m` turns compute `m` more words. -/
theorem scheduled_run {block : List UInt8} {w : List UInt32} {n : Nat} (hn : 16 ≤ n)
    (h : Scheduled block w n) (m : Nat) :
    Scheduled block ((List.range' n m).foldl extend w) (n + m) := by
  induction m generalizing w n with
  | zero => exact h
  | succ m ih =>
      rw [List.range'_succ, List.foldl_cons, ← Nat.add_assoc, Nat.add_right_comm]
      exact ih (by omega) (scheduled_extend hn h)

/-- **The schedule is the standard's.** -/
theorem schedule_eq (block : List UInt8) : ∀ t < 64, (schedule block).getD t 0 = Fips180.W block t :=
  (scheduled_run (by decide) (scheduled_input block) 48).2

/-! ## The rounds -/

def Locals.toWorking (v : Locals) : Fips180.Working := ⟨v.a, v.b, v.c, v.d, v.e, v.f, v.g, v.hh⟩

/-- The words of `h_` as a hash value. -/
def toWorking (h : Words8) : Fips180.Working :=
  ⟨h.get 0, h.get 1, h.get 2, h.get 3, h.get 4, h.get 5, h.get 6, h.get 7⟩

/-- One turn of the compression is one round of the standard's. -/
theorem turn_eq {block : List UInt8} {t : Nat} (ht : t < 64) (v : Locals) :
    (turn (schedule block) v t).toWorking = Fips180.round block v.toWorking t := by
  unfold turn
  rw [kK_eq t ht, schedule_eq block t ht]
  rfl

/-- Many turns are as many rounds. -/
theorem rounds_eq (block : List UInt8) {ts : List Nat} (hts : ∀ t ∈ ts, t < 64) (v : Locals) :
    (ts.foldl (turn (schedule block)) v).toWorking
      = ts.foldl (Fips180.round block) v.toWorking := by
  induction ts generalizing v with
  | nil => rfl
  | cons t ts ih =>
      rw [List.forall_mem_cons] at hts
      rw [List.foldl_cons, List.foldl_cons, ih hts.2, turn_eq hts.1]

theorem toWorking_add (h : Words8) (v : Locals) :
    toWorking #v[h.get 0 + v.a, h.get 1 + v.b, h.get 2 + v.c, h.get 3 + v.d, h.get 4 + v.e,
        h.get 5 + v.f, h.get 6 + v.g, h.get 7 + v.hh]
      = { a := v.toWorking.a + (toWorking h).a, b := v.toWorking.b + (toWorking h).b
          c := v.toWorking.c + (toWorking h).c, d := v.toWorking.d + (toWorking h).d
          e := v.toWorking.e + (toWorking h).e, f := v.toWorking.f + (toWorking h).f
          g := v.toWorking.g + (toWorking h).g, h := v.toWorking.h + (toWorking h).h } := by
  show Fips180.Working.mk _ _ _ _ _ _ _ _ = Fips180.Working.mk _ _ _ _ _ _ _ _
  congr 1 <;> exact UInt32.add_comm _ _

/-- **The compression is the standard's.** -/
theorem compress_eq (h : Words8) (block : List UInt8) :
    toWorking (compress h block) = Fips180.compress (toWorking h) block := by
  have hrun := rounds_eq block (fun t (ht : t ∈ List.range 64) => List.mem_range.mp ht)
    ⟨h[0], h[1], h[2], h[3], h[4], h[5], h[6], h[7]⟩
  have hstart : toWorking h = Locals.toWorking ⟨h[0], h[1], h[2], h[3], h[4], h[5], h[6], h[7]⟩ :=
    rfl
  unfold Fips180.compress
  rw [hstart, ← hrun]
  exact toWorking_add h _

theorem initial_eq : toWorking new.h = Fips180.initial := Fips180.initial_words.symm

/-! ## Taking bytes -/

/-- The object has been given `l`: it has taken its whole blocks and keeps the rest. -/
def Taken (s : Sha256) (l : List UInt8) : Prop :=
  Fed compress 64 new.h l s.h (s.buf.take s.buffered)

variable {s : Sha256} {l p : List UInt8}

/-- The buffer holds what it says it does. -/
theorem kept_length (s : Sha256) : (s.buf.take s.buffered).length = s.buffered := by
  have hlt := s.buffered_lt
  rw [List.length_take, s.buf_length]
  omega

theorem taken_new : Taken new [] := Fed.init (by decide)

theorem Taken.buffered (h : s.Taken l) : s.buffered = l.length % 64 := by
  rw [← kept_length s, h.rest_length]

/-- Bytes that fill the block complete it. -/
theorem memcpy_full (hfull : s.buffered + p.length = 64) :
    memcpy s.buf s.buffered p = s.buf.take s.buffered ++ p := by
  have hcopy : (memcpy s.buf s.buffered p).take (s.buffered + p.length)
      = s.buf.take s.buffered ++ p := take_memcpy (by rw [s.buf_length]; omega)
  rw [← hcopy, List.take_of_length_le]
  rw [memcpy_length (by rw [s.buf_length]; omega), s.buf_length, hfull]

/-- One turn of the loop takes its bytes. -/
theorem Taken.fill (h : s.Taken l) (hp : s.buffered + p.length ≤ 64) :
    (s.fill p hp).Taken (l ++ p) := by
  unfold Sha256.fill
  by_cases hfull : s.buffered + p.length = 64
  · rw [dif_pos hfull]
    unfold Taken
    dsimp only
    rw [List.take_zero, memcpy_full hfull]
    exact Fed.fill h (by rw [kept_length]; exact hfull)
  · rw [dif_neg hfull]
    unfold Taken
    dsimp only
    rw [take_memcpy (by rw [s.buf_length]; omega)]
    exact Fed.keep h (by rw [kept_length]; omega)

theorem Taken.updateLoop (h : s.Taken l) (p : List UInt8) : (s.updateLoop p).Taken (l ++ p) := by
  induction s, p using updateLoop.induct generalizing l with
  | case1 s p hlen ih =>
      have hcut := ih (h.fill (s.take_fits p))
      rw [List.append_assoc, List.take_append_drop] at hcut
      rw [Sha256.updateLoop, if_pos hlen]
      exact hcut
  | case2 s p hlen =>
      have hnil : p = [] := List.eq_nil_of_length_eq_zero (by omega)
      rw [Sha256.updateLoop, if_neg hlen, hnil, List.append_nil]
      exact h

/-- Taking in more bytes is taking in the concatenation. -/
theorem Taken.update (h : s.Taken l) (p : List UInt8) : (s.update p).Taken (l ++ p) :=
  Taken.updateLoop (s := { s with totalBits := (s.totalBits + p.length * 8) % 2 ^ 64 }) h p

/-- The loop leaves the bit count to its caller. -/
theorem updateLoop_totalBits (s : Sha256) (p : List UInt8) :
    (s.updateLoop p).totalBits = s.totalBits := by
  induction s, p using updateLoop.induct with
  | case1 s p hlen ih =>
      rw [Sha256.updateLoop, if_pos hlen, ih, Sha256.fill]
      split <;> rfl
  | case2 s p hlen => rw [Sha256.updateLoop, if_neg hlen]

/-- A running digest of `l`. -/
structure Runs (s : Sha256) (l : List UInt8) : Prop where
  taken : s.Taken l
  bits : s.totalBits = 8 * l.length % 2 ^ 64

theorem runs_new : Runs new [] := ⟨taken_new, rfl⟩

/-- The bits are counted with the bytes. -/
theorem Runs.update (h : s.Runs l) (p : List UInt8) : (s.update p).Runs (l ++ p) := by
  refine ⟨h.taken.update p, ?_⟩
  rw [Sha256.update, updateLoop_totalBits, h.bits, List.length_append]
  dsimp only
  omega

/-! ## Finishing -/

/-- The padding zeros reach the place of the length. -/
theorem Taken.padLoop (h : s.Taken l) : s.padLoop.buffered = 56
    ∧ s.padLoop.Taken (l ++ List.replicate ((120 - s.buffered) % 64) 0) := by
  induction s using padLoop.induct generalizing l with
  | case1 s hfull =>
      rw [Sha256.padLoop, if_pos hfull]
      refine ⟨hfull, ?_⟩
      rw [hfull, show (120 - 56) % 64 = 0 from rfl, List.replicate_zero, List.append_nil]
      exact h
  | case2 s hfull ih =>
      have hlt := s.buffered_lt
      have hnext := s.update_buffered [0]
      rw [List.length_singleton] at hnext
      rcases ih (h.update [0]) with ⟨hdone, htaken⟩
      have hcount : (120 - s.buffered) % 64 = (120 - (s.update [0]).buffered) % 64 + 1 := by
        omega
      rw [Sha256.padLoop, if_neg hfull]
      refine ⟨hdone, ?_⟩
      rw [hcount, Nat.add_comm, ← List.replicate_append_replicate, ← List.append_assoc]
      exact htaken

/-- The length is written in eight bytes, the most significant first. -/
theorem lengthTail_eq (bits : Nat) : lengthTail bits = Fips180.bytesBE 8 bits := by
  unfold lengthTail Fips180.bytesBE
  refine List.map_congr_left fun i hi => ?_
  have hlt := List.mem_range.mp hi
  rw [Nat.shiftRight_eq_div_pow, show (256 : Nat) = 2 ^ 8 from rfl, ← Nat.pow_mul]
  congr 3
  omega

theorem toUInt8_shr (x : UInt32) {n : Nat} (h : n < 32) :
    (x >>> UInt32.ofNat n).toUInt8 = UInt8.ofNat (x.toNat / 2 ^ n) := by
  have hmod : (UInt32.ofNat n).toNat % 32 = n := by
    rw [UInt32.toNat_ofNat']
    omega
  apply UInt8.toNat_inj.mp
  rw [UInt32.toNat_toUInt8, UInt32.toNat_shiftRight, hmod, Nat.shiftRight_eq_div_pow,
    UInt8.toNat_ofNat']

/-- A word is written in four bytes, the most significant first. -/
theorem storeWord_eq (x : UInt32) : storeWord x = Fips180.bytesBE 4 x.toNat := by
  have h24 : (x >>> 24).toUInt8 = _ := toUInt8_shr x (n := 24) (by decide)
  have h16 : (x >>> 16).toUInt8 = _ := toUInt8_shr x (n := 16) (by decide)
  have h8 : (x >>> 8).toUInt8 = _ := toUInt8_shr x (n := 8) (by decide)
  have h0 : x.toUInt8 = UInt8.ofNat (x.toNat / 2 ^ 0) := by
    apply UInt8.toNat_inj.mp
    rw [UInt32.toNat_toUInt8, UInt8.toNat_ofNat', Nat.pow_zero, Nat.div_one]
  rw [storeWord, h24, h16, h8, h0]
  rfl

theorem toList_eq (h : Words8) : h.toList = (toWorking h).words := by
  apply List.ext_getElem
  · rw [Vector.length_toList]
    rfl
  · intro i hi hi'
    rw [Vector.length_toList] at hi
    rw [Vector.getElem_toList]
    interval_cases i <;> rfl

/-- **Finishing gives the digest of the standard**, for any message whose length in bits fits
its field. -/
theorem Runs.finish (h : s.Runs l) (hlen : l.length < 2 ^ 61) :
    s.finish.1 = Fips180.sha256 l := by
  rcases (h.taken.update [0x80]).padLoop with ⟨hdone, htaken⟩
  have hbits : s.totalBits = 8 * l.length := by
    rw [h.bits, Nat.mod_eq_of_lt (by omega)]
  have hzeros : (120 - (s.update [0x80]).buffered) % 64 = Fips180.zeroBytes l.length := by
    rw [s.update_buffered, h.taken.buffered, List.length_singleton, Fips180.zeroBytes]
    omega
  have hroom : (s.update [0x80]).padLoop.buffered + (lengthTail s.totalBits).length = 64 := by
    rw [hdone, lengthTail_length]
  have hlast := Fed.fill htaken (p := lengthTail s.totalBits) (by rw [kept_length]; exact hroom)
  rw [hzeros, lengthTail_eq, hbits, ← Fips180.pad] at hlast
  have hblock := memcpy_full hroom
  rw [hdone, lengthTail_eq, hbits] at hblock
  have hwords : toWorking (compress (s.update [0x80]).padLoop.h
      (memcpy (s.update [0x80]).padLoop.buf 56 (Fips180.bytesBE 8 (8 * l.length))))
        = (chunks 64 (Fips180.pad l)).foldl Fips180.compress Fips180.initial := by
    rw [hblock, ← hdone, hlast.foldl_chunks, ← initial_eq]
    exact (List.foldl_hom toWorking fun h block => (compress_eq h block).symm).symm
  have hdigest : s.finish.1 = (compress (s.update [0x80]).padLoop.h
      (memcpy (s.update [0x80]).padLoop.buf 56 (lengthTail s.totalBits))).toList.flatMap
        storeWord := rfl
  rw [hdigest, lengthTail_eq, hbits, toList_eq, hwords, Fips180.sha256]
  exact List.flatMap_congr fun x _ => storeWord_eq x

end Sha256

end Mog
