import Mog.Digest.FastDigest
import Mog.Digest.Sha256Proof

/-!
# Digests depend only on the bytes

Both digests stand, after any cut of a string into pieces, where one update with the whole
string leaves them; the fast one with the direct path for whole blocks. Asking for a digest
leaves the object as it was.

The fast digest buffers like the standard one and has a short way for whole blocks besides. Both
are streams that are folded over blocks, so that where they stand after an input is determined
by the bytes of the input; the pieces of the input are only one way to lay these out. Asking for
the result pads a copy.
-/

namespace Mog

open BlockStream

namespace FastDigest128

/-! ## The fast digest takes blocks -/

/-- The object has been given `l`: it has mixed its whole blocks and keeps the rest. -/
structure Taken (s : FastDigest128) (l : List UInt8) : Prop where
  fed : Fed mix 16 (kPrime0, kPrime1) l (s.h0, s.h1) (s.buf.take s.buffered)
  buf_length : s.buf.length = 16
  buffered_lt : s.buffered < 16

variable {s : FastDigest128} {l p : List UInt8}

theorem Taken.kept_length (h : s.Taken l) : (s.buf.take s.buffered).length = s.buffered := by
  have hlt := h.buffered_lt
  rw [List.length_take, h.buf_length]
  omega

theorem taken_new : Taken new [] := ⟨Fed.init (by decide), rfl, by decide⟩

/-- Bytes kept for a block that they do not fill. -/
theorem Taken.append (h : s.Taken l) (hp : s.buffered + p.length < 16) :
    Taken { s with buf := memcpy s.buf s.buffered p, buffered := s.buffered + p.length }
      (l ++ p) := by
  have hlen := h.buf_length
  refine ⟨?_, ?_, hp⟩
  · dsimp only
    rw [take_memcpy (by omega)]
    exact Fed.keep h.fed (by rw [h.kept_length]; exact hp)
  · dsimp only
    rw [memcpy_length (by omega), hlen]

theorem mixBlock_words (s : FastDigest128) (block : List UInt8) :
    ((s.mixBlock block).h0, (s.mixBlock block).h1) = mix (s.h0, s.h1) block := by
  unfold mixBlock
  exact Prod.mk.eta

@[simp] theorem mixBlock_totalBytes (s : FastDigest128) (block : List UInt8) :
    (s.mixBlock block).totalBytes = s.totalBytes := by
  cases s
  rfl

@[simp] theorem mixBlock_buffered (s : FastDigest128) (block : List UInt8) :
    (s.mixBlock block).buffered = s.buffered := by
  cases s
  rfl

@[simp] theorem mixBlock_buf (s : FastDigest128) (block : List UInt8) :
    (s.mixBlock block).buf = s.buf := by
  cases s
  rfl

/-- Bytes that fill the block under way. -/
theorem Taken.complete (h : s.Taken l) (s' : FastDigest128) (hwords : s'.h0 = s.h0 ∧ s'.h1 = s.h1)
    (hbuf : s'.buf = memcpy s.buf s.buffered p) (hp : s.buffered + p.length = 16) :
    Taken { s'.mixBlock (memcpy s.buf s.buffered p) with buffered := 0 } (l ++ p) := by
  have hlen := h.buf_length
  have hcopy : (memcpy s.buf s.buffered p).length = 16 := by
    rw [memcpy_length (by omega), hlen]
  have hblock : memcpy s.buf s.buffered p = s.buf.take s.buffered ++ p := by
    rw [← take_memcpy (by omega), List.take_of_length_le (by omega)]
  refine ⟨?_, ?_, Nat.succ_pos 15⟩
  · dsimp only
    rw [mixBlock_words, hwords.1, hwords.2, List.take_zero, hblock]
    exact Fed.fill h.fed (by rw [h.kept_length]; exact hp)
  · dsimp only
    rw [mixBlock_buf, hbuf, hcopy]

/-- A block straight from the input. -/
theorem Taken.mixBlock (h : s.Taken l) (hempty : s.buffered = 0) (hp : p.length = 16) :
    (s.mixBlock p).Taken (l ++ p) := by
  have hfed := h.fed
  rw [hempty, List.take_zero] at hfed
  have hnext := Fed.fill hfed (p := p) (by rw [hp]; rfl)
  rw [List.nil_append, ← mixBlock_words] at hnext
  refine ⟨?_, ?_, ?_⟩
  · rw [mixBlock_buffered, hempty, List.take_zero]
    exact hnext
  · rw [mixBlock_buf]
    exact h.buf_length
  · rw [mixBlock_buffered]
    exact h.buffered_lt

/-- `s` with the input `p` has become `r` with what is left of it. -/
structure Took (s : FastDigest128) (l p : List UInt8) (r : FastDigest128 × List UInt8) :
    Prop where
  taken : ∃ q, p = q ++ r.2 ∧ r.1.Taken (l ++ q)
  free : r.2 = [] ∨ r.1.buffered = 0
  total : r.1.totalBytes = s.totalBytes

theorem took_topUp (h : s.Taken l) (p : List UInt8) : Took s l p (s.topUp p) := by
  have hlt := h.buffered_lt
  unfold topUp
  by_cases hbusy : 0 < s.buffered
  · rw [if_pos hbusy]
    dsimp only
    generalize htake : (if p.length < 16 - s.buffered then p.length else 16 - s.buffered) = take
    have hle : take ≤ p.length ∧ s.buffered + take ≤ 16 := by
      rw [← htake]
      split <;> omega
    have hlen : (p.take take).length = take := by
      rw [List.length_take]
      omega
    by_cases hfull : s.buffered + take = 16
    · rw [if_pos hfull]
      generalize hs' : ({ s with
        buf := memcpy s.buf s.buffered (p.take take)
        buffered := s.buffered + take } : FastDigest128) = s'
      have hc := h.complete s' (p := p.take take) (by rw [← hs']; exact ⟨rfl, rfl⟩) (by rw [← hs'])
        (by rw [hlen]; exact hfull)
      refine ⟨⟨p.take take, (List.take_append_drop _ _).symm, hc⟩, .inr rfl, ?_⟩
      dsimp only
      rw [mixBlock_totalBytes, ← hs']
    · rw [if_neg hfull]
      have happ := h.append (p := p.take take) (by rw [hlen]; omega)
      rw [hlen] at happ
      refine ⟨⟨p.take take, (List.take_append_drop _ _).symm, happ⟩, .inl ?_, rfl⟩
      -- a block that is not full has taken everything
      have hall : take = p.length := by
        rw [← htake] at hfull ⊢
        split at hfull
        · rw [if_pos (by assumption)]
        · omega
      exact List.drop_of_length_le (Nat.le_of_eq hall.symm)
  · rw [if_neg hbusy]
    exact ⟨⟨[], rfl, (List.append_nil l).symm ▸ h⟩, .inr (Nat.eq_zero_of_not_pos hbusy), rfl⟩

theorem took_mixLoop (h : s.Taken l) (hfree : p = [] ∨ s.buffered = 0) :
    Took s l p (s.mixLoop p) ∧ (s.mixLoop p).2.length < 16 := by
  induction s, p using mixLoop.induct generalizing l with
  | case1 s p hlen ih =>
      have hempty : s.buffered = 0 := by
        rcases hfree with hnil | hz
        · rw [hnil] at hlen
          exact absurd hlen (by decide)
        · exact hz
      have hblock : (p.take 16).length = 16 := by
        rw [List.length_take]
        omega
      rcases ih (h.mixBlock hempty hblock) (.inr ((s.mixBlock_buffered _).trans hempty)) with
        ⟨⟨⟨q, hq, htaken⟩, hf, ht⟩, hlt⟩
      rw [mixLoop, if_pos hlen]
      refine ⟨⟨⟨p.take 16 ++ q, ?_, ?_⟩, hf, ht.trans (s.mixBlock_totalBytes _)⟩, hlt⟩
      · rw [List.append_assoc, ← hq, List.take_append_drop]
      · rw [← List.append_assoc]
        exact htaken
  | case2 s p hlen =>
      rw [mixLoop, if_neg hlen]
      exact ⟨⟨⟨[], rfl, (List.append_nil l).symm ▸ h⟩, hfree, rfl⟩, Nat.not_le.mp hlen⟩

theorem Taken.keep (h : s.Taken l) (hfree : p = [] ∨ s.buffered = 0) (hp : p.length < 16) :
    (s.keep p).Taken (l ++ p) ∧ (s.keep p).totalBytes = s.totalBytes := by
  unfold FastDigest128.keep
  by_cases hpos : 0 < p.length
  · have hempty : s.buffered = 0 := hfree.resolve_left (List.ne_nil_of_length_pos hpos)
    rw [if_pos hpos]
    exact ⟨h.append (by omega), rfl⟩
  · have hnil : p = [] := List.eq_nil_of_length_eq_zero (by omega)
    rw [if_neg hpos, hnil, List.append_nil]
    exact ⟨h, rfl⟩

/-- A running digest of `l`. -/
structure Runs (s : FastDigest128) (l : List UInt8) : Prop where
  taken : s.Taken l
  total : s.totalBytes = UInt64.ofNat l.length

theorem runs_new : Runs new [] := ⟨taken_new, rfl⟩

/-- **An update takes its bytes**, however they fall on the blocks. -/
theorem Runs.update (h : s.Runs l) (p : List UInt8) : (s.update p).Runs (l ++ p) := by
  have hs : Taken { s with totalBytes := s.totalBytes + UInt64.ofNat p.length } l :=
    ⟨h.taken.fed, h.taken.buf_length, h.taken.buffered_lt⟩
  have htop := took_topUp hs p
  unfold FastDigest128.update
  dsimp only
  generalize topUp { s with totalBytes := s.totalBytes + UInt64.ofNat p.length } p = r at htop ⊢
  rcases htop with ⟨⟨q, hq, htaken⟩, hfree, htotal⟩
  rcases took_mixLoop htaken hfree with ⟨hmix, hlt⟩
  generalize r.1.mixLoop r.2 = r' at hmix hlt ⊢
  rcases hmix with ⟨⟨q', hq', htaken'⟩, hfree', htotal'⟩
  rcases htaken'.keep hfree' hlt with ⟨hkept, htotal''⟩
  refine ⟨?_, ?_⟩
  · rw [List.append_assoc, List.append_assoc, ← hq', ← hq] at hkept
    exact hkept
  · rw [htotal'', htotal', htotal, h.total, List.length_append, UInt64.ofNat_add]

/-- **The result depends on the bytes alone.** -/
theorem Runs.finish_eq {s' : FastDigest128} (h : s.Runs l) (h' : s'.Runs l) :
    s.finish = s'.finish := by
  rcases h.taken.fed.unique h'.taken.fed with ⟨hwords, hkept⟩
  have hbuffered : s.buffered = s'.buffered := by
    rw [← h.taken.kept_length, hkept, h'.taken.kept_length]
  unfold finish
  rw [hwords, hkept, h.total, ← h'.total, hbuffered]

end FastDigest128

/-! ## Any cut -/

theorem Sha256.runs_pieces {s : Sha256} {l : List UInt8} (h : s.Runs l) (ps : List (List UInt8)) :
    (ps.foldl Sha256.update s).Runs (l ++ ps.flatten) := by
  induction ps generalizing s l with
  | nil => exact (List.append_nil l).symm ▸ h
  | cons p ps ih =>
      rw [List.foldl_cons, List.flatten_cons, ← List.append_assoc]
      exact ih (h.update p)

theorem FastDigest128.runs_pieces {s : FastDigest128} {l : List UInt8} (h : s.Runs l)
    (ps : List (List UInt8)) : (ps.foldl FastDigest128.update s).Runs (l ++ ps.flatten) := by
  induction ps generalizing s l with
  | nil => exact (List.append_nil l).symm ▸ h
  | cons p ps ih =>
      rw [List.foldl_cons, List.flatten_cons, ← List.append_assoc]
      exact ih (h.update p)

namespace DeterminismDigest

/-- The bytes that some calls have given. -/
def given : List Call → List UInt8
  | [] => []
  | .update data :: calls => data ++ given calls
  | _ :: calls => given calls

/-- The object has been given `l`; the tier of its mode has taken it, the other nothing. -/
structure Runs (mode : DigestMode) (d : DeterminismDigest) (l : List UInt8) : Prop where
  mode_eq : d.mode = mode
  sha : d.sha.Runs (if mode = .golden then l else [])
  fast : d.fast.Runs (if mode = .fast then l else [])

variable {mode : DigestMode} {d : DeterminismDigest} {l : List UInt8}

theorem runs_new (mode : DigestMode) : Runs mode (new mode) [] := by
  cases mode
  · exact ⟨rfl, Sha256.runs_new, FastDigest128.runs_new⟩
  · exact ⟨rfl, Sha256.runs_new, FastDigest128.runs_new⟩

theorem Runs.update (h : Runs mode d l) (data : List UInt8) :
    Runs mode (d.update data) (l ++ data) := by
  rcases h with ⟨hmode, hsha, hfast⟩
  cases mode
  · unfold DeterminismDigest.update
    rw [hmode]
    exact ⟨rfl, hsha.update data, hfast⟩
  · unfold DeterminismDigest.update
    rw [hmode]
    exact ⟨rfl, hsha, hfast.update data⟩

/-- No call but an update changes what the object stands for. -/
theorem Runs.call (h : Runs mode d l) (c : Call) : Runs mode (d.call c).1 (l ++ given [c]) := by
  cases c with
  | update data =>
      show Runs mode (d.update data) (l ++ (data ++ []))
      rw [List.append_nil]
      exact h.update data
  | finishSha256 => exact (List.append_nil l).symm ▸ h
  | finishFast128 => exact (List.append_nil l).symm ▸ h

theorem given_cons (c : Call) (calls : List Call) : given (c :: calls) = given [c] ++ given calls := by
  cases c with
  | update data =>
      show data ++ given calls = (data ++ []) ++ given calls
      rw [List.append_nil]
  | finishSha256 => rfl
  | finishFast128 => rfl

theorem Runs.after (h : Runs mode d l) (calls : List Call) :
    Runs mode (d.after calls) (l ++ given calls) := by
  induction calls generalizing d l with
  | nil => exact (List.append_nil l).symm ▸ h
  | cons c calls ih =>
      rw [given_cons, ← List.append_assoc]
      exact ih (h.call c)

end DeterminismDigest

/-- **The digests depend only on the bytes.** Of any pieces SHA-256 gives the standard's digest
of the whole, the fast digest what one update with the whole gives; and after any calls, with
digests asked for in between, the object gives the digest of all it has been given. -/
theorem digests_of_bytes :
    (∀ ps : List (List UInt8), ps.flatten.length < 2 ^ 61 →
      (ps.foldl Sha256.update Sha256.new).finish.1 = Fips180.sha256 ps.flatten)
    ∧ (∀ ps : List (List UInt8), (ps.foldl FastDigest128.update FastDigest128.new).finish
      = (FastDigest128.new.update ps.flatten).finish)
    ∧ (∀ calls : List DeterminismDigest.Call, (DeterminismDigest.given calls).length < 2 ^ 61 →
      ((DeterminismDigest.new .golden).after calls).finishSha256
        = Fips180.sha256 (DeterminismDigest.given calls))
    ∧ ∀ calls : List DeterminismDigest.Call,
      ((DeterminismDigest.new .fast).after calls).finishFast128
        = (FastDigest128.new.update (DeterminismDigest.given calls)).finish := by
  refine ⟨fun ps hlen => ?_, fun ps => ?_, fun calls hlen => ?_, fun calls => ?_⟩
  · exact (Sha256.runs_pieces Sha256.runs_new ps).finish hlen
  · exact (FastDigest128.runs_pieces FastDigest128.runs_new ps).finish_eq
      (FastDigest128.runs_new.update ps.flatten)
  · exact ((DeterminismDigest.runs_new .golden).after calls).sha.finish hlen
  · exact ((DeterminismDigest.runs_new .fast).after calls).fast.finish_eq
      (FastDigest128.runs_new.update (DeterminismDigest.given calls))

/-- Three bytes in pieces, one of them empty. -/
theorem digests_of_bytes_abc :
    ([[97], [], [98, 99]].foldl Sha256.update Sha256.new).finish.1 = Fips180.sha256 [97, 98, 99] :=
  digests_of_bytes.1 [[97], [], [98, 99]] (by decide)

end Mog
