import Mog.Book.LadderProof

/-!
# The scans along any run

The ladders that calls of `apply` can lead to, with the quantity those calls have put at
each tick, and the scans once more with every array access checked against the length of
the array. On every ladder of a run the checked scans never fail, and they find the nearest
tick that holds quantity.

A checked access returns nothing outside its array, and a checked scan nothing where an access
does. That the checked scans always return is the absence of bad accesses; what they return is
the specification of the plain ones. The totals of a run are a sum over the calls at each tick,
which keeps the statement free of pages and words.
-/

namespace Mog

open WordScan

/-- What the constructor requires of its configuration. -/
structure LadderConfig.Ok (cfg : LadderConfig) : Prop where
  band : cfg.loTick < cfg.hiTick
  ceil : cfg.hiTick ≤ kNoTick
  pool : cfg.pagePool ≤ kNoPage

namespace PriceLadder

variable {k : Nat}

/-! ## Checked scans -/

/-- `1 << n` on a 64-bit word, defined for the shifts a word has. -/
def bitAt? (n : Nat) : Option (BitVec 64) := if n < 64 then some (1#64 <<< n) else none

def maskAt? (k : Nat) (p : Page) (w : Nat) : Option (BitVec 64) :=
  if w < kMaskWords k then some (p.mask w) else none

def dirAt? (l : PriceLadder k) (d : Nat) : Option Nat := if d < l.dirLen then some (l.dir d) else none

def pageAt? (l : PriceLadder k) (ps : Nat) : Option Page :=
  if ps < l.poolLen then some (l.pages ps) else none

/-- An offset that names a level of its page. -/
def offsetAt? (k o : Nat) : Option Nat := if o < kPageTicks k then some o else none

/-- `scanUp`, with its accesses checked. -/
def scanUp? (k : Nat) (p : Page) (startO : Nat) : Option (Option Nat) := do
  let wStart := startO / 64
  let word ← maskAt? k p wStart
  let low ← bitAt? (startO % 64)
  let m := word &&& ~~~(low - 1#64)
  if m ≠ 0#64 then return some (← offsetAt? k (wStart * 64 + countrZero m))
  else if wStart + 1 < kMaskWords k then
    let low ← bitAt? (wStart + 1)
    let sumM := p.summaryMask &&& ~~~(low - 1#64)
    if sumM ≠ 0#64 then
      let w := countrZero sumM
      let word ← maskAt? k p w
      return some (← offsetAt? k (w * 64 + countrZero word))
    else return none
  else return none

/-- The mask of the bits up to and including `b`. -/
def topMask? (b : Nat) : Option (BitVec 64) :=
  if b = 63 then some (~~~0#64) else (bitAt? (b + 1)).map (· - 1#64)

/-- `scanDown`, with its accesses checked. -/
def scanDown? (k : Nat) (p : Page) (startO : Nat) : Option (Option Nat) := do
  let wStart := startO / 64
  let topMask ← topMask? (startO % 64)
  let word ← maskAt? k p wStart
  let m := word &&& topMask
  if m ≠ 0#64 then return some (← offsetAt? k (wStart * 64 + (63 - countlZero m)))
  else if 0 < wStart then
    let low ← bitAt? wStart
    let sumM := p.summaryMask &&& (low - 1#64)
    if sumM ≠ 0#64 then
      let w := 63 - countlZero sumM
      let word ← maskAt? k p w
      return some (← offsetAt? k (w * 64 + (63 - countlZero word)))
    else return none
  else return none

/-- The loop of `first_above`, with its accesses checked. -/
def firstAboveFrom? (l : PriceLadder k) (d0 o0 : Nat) : Nat → Nat → Option Int
  | 0, _ => some kNoTick
  | n + 1, d => do
      let ps ← l.dirAt? d
      if ps = kNoPage then firstAboveFrom? l d0 o0 n (d + 1)
      else
        let p ← l.pageAt? ps
        if p.occupancy = 0 then firstAboveFrom? l d0 o0 n (d + 1)
        else
          match ← scanUp? k p (if d = d0 then o0 else 0) with
          | some o => some (l.tickOf d o)
          | none => firstAboveFrom? l d0 o0 n (d + 1)

def firstAbove? (l : PriceLadder k) (fromExclusive : Int) : Option Int :=
  if l.hi - 1 ≤ fromExclusive then some kNoTick
  else
    let start := if fromExclusive < l.lo then l.lo else fromExclusive + 1
    let d0 := l.dirIndex start
    l.firstAboveFrom? d0 (l.offsetOf start) (l.dirLen - d0) d0

/-- One round of the loop of `first_below` with its accesses checked, and what follows it when
the page holds nothing. -/
def firstBelowIn? (l : PriceLadder k) (d0 o0 d : Nat) (rest : Option Int) : Option Int := do
  let ps ← l.dirAt? d
  if ps = kNoPage then rest
  else
    let p ← l.pageAt? ps
    if p.occupancy = 0 then rest
    else
      match ← scanDown? k p (if d = d0 then o0 else kPageTicks k - 1) with
      | some o => some (l.tickOf d o)
      | none => rest

def firstBelowFrom? (l : PriceLadder k) (d0 o0 : Nat) : Nat → Option Int
  | 0 => l.firstBelowIn? d0 o0 0 (some kNoTick)
  | d + 1 => l.firstBelowIn? d0 o0 (d + 1) (firstBelowFrom? l d0 o0 d)

def firstBelow? (l : PriceLadder k) (fromExclusive : Int) : Option Int :=
  if fromExclusive ≤ l.lo then some kNoTick
  else
    let start := if l.hi < fromExclusive then l.hi - 1 else fromExclusive - 1
    l.firstBelowFrom? (l.dirIndex start) (l.offsetOf start) (l.dirIndex start)

/-! ## No access fails -/

section Checked

variable {p : Page} {o : Nat} {l : PriceLadder k}

theorem word_lt (ho : o < kPageTicks k) : o / 64 < kMaskWords k := by
  unfold kMaskWords
  omega

theorem words_le (hk : k ≤ 12) : kMaskWords k ≤ 64 := by
  have := kPageTicks_le hk
  unfold kMaskWords
  omega

theorem bitAt?_eq {n : Nat} (h : n < 64) : bitAt? n = some (1#64 <<< n) := if_pos h

theorem topMask?_eq {b : Nat} (h : b < 64) :
    topMask? b = some (if b = 63 then ~~~0#64 else 1#64 <<< (b + 1) - 1#64) := by
  unfold topMask?
  split
  · rfl
  · rw [bitAt?_eq (by omega)]
    rfl

theorem maskAt?_eq {w : Nat} (h : w < kMaskWords k) : maskAt? k p w = some (p.mask w) := if_pos h

theorem offsetAt?_eq (h : o < kPageTicks k) : offsetAt? k o = some o := if_pos h

/-- **The checked upward scan** of a page is the scan. -/
theorem scanUp?_eq (h : PageInv k p) (hk : k ≤ 12) (ho : o < kPageTicks k) :
    scanUp? k p o = some (scanUp k p o) := by
  have hspec := scanUp_spec h hk ho
  have hwords := words_le hk
  unfold scanUp? scanUp at *
  dsimp only at hspec ⊢
  rw [maskAt?_eq (word_lt ho), bitAt?_eq (Nat.mod_lt _ (by decide))]
  simp only [Option.bind_eq_bind, Option.bind_some]
  by_cases hm : p.mask (o / 64) &&& ~~~(1#64 <<< (o % 64) - 1#64) ≠ 0#64
  · rw [if_pos hm] at hspec
    rw [if_pos hm, if_pos hm, offsetAt?_eq hspec.2.1]
    rfl
  rw [if_neg hm] at hspec
  rw [if_neg hm, if_neg hm]
  by_cases hnext : o / 64 + 1 < kMaskWords k
  swap
  · rw [if_neg hnext, if_neg hnext]
    rfl
  rw [if_pos hnext] at hspec
  rw [if_pos hnext, if_pos hnext, bitAt?_eq (by omega)]
  simp only [Option.bind_some]
  by_cases hsm : p.summaryMask &&& ~~~(1#64 <<< (o / 64 + 1) - 1#64) ≠ 0#64
  · rw [if_pos hsm] at hspec
    rw [if_pos hsm, if_pos hsm]
    have hin := hspec.2.1
    -- the word found holds the offset found
    have hword : countrZero (p.summaryMask &&& ~~~(1#64 <<< (o / 64 + 1) - 1#64)) < kMaskWords k :=
      Nat.lt_of_le_of_lt (by omega) (word_lt hin)
    rw [maskAt?_eq hword]
    simp only [Option.bind_some]
    rw [offsetAt?_eq hin]
    rfl
  · rw [if_neg hsm, if_neg hsm]
    rfl

/-- **The checked downward scan** of a page is the scan. -/
theorem scanDown?_eq (h : PageInv k p) (hk : k ≤ 12) (ho : o < kPageTicks k) :
    scanDown? k p o = some (scanDown p o) := by
  have hspec := scanDown_spec h hk ho
  have hle := kPageTicks_le hk
  unfold scanDown? scanDown at *
  dsimp only at hspec ⊢
  rw [topMask?_eq (Nat.mod_lt _ (by decide)), maskAt?_eq (word_lt ho)]
  simp only [Option.bind_eq_bind, Option.bind_some]
  by_cases hm : p.mask (o / 64)
      &&& (if o % 64 = 63 then ~~~0#64 else 1#64 <<< (o % 64 + 1) - 1#64) ≠ 0#64
  · rw [if_pos hm] at hspec
    rw [if_pos hm, if_pos hm, offsetAt?_eq hspec.2.1]
    rfl
  rw [if_neg hm] at hspec
  rw [if_neg hm, if_neg hm]
  by_cases hprev : 0 < o / 64
  swap
  · rw [if_neg hprev, if_neg hprev]
    rfl
  rw [if_pos hprev] at hspec
  rw [if_pos hprev, if_pos hprev, bitAt?_eq (by omega)]
  simp only [Option.bind_some]
  by_cases hsm : p.summaryMask &&& (1#64 <<< (o / 64) - 1#64) ≠ 0#64
  · rw [if_pos hsm] at hspec
    rw [if_pos hsm, if_pos hsm]
    have hin := hspec.2.1
    have hword : 63 - countlZero (p.summaryMask &&& (1#64 <<< (o / 64) - 1#64)) < kMaskWords k :=
      Nat.lt_of_le_of_lt (by omega) (word_lt hin)
    rw [maskAt?_eq hword]
    simp only [Option.bind_some]
    rw [offsetAt?_eq hin]
    rfl
  · rw [if_neg hsm, if_neg hsm]
    rfl

theorem dirAt?_eq {d : Nat} (h : d < l.dirLen) : l.dirAt? d = some (l.dir d) := if_pos h

/-- A claimed page lies in the pool. -/
theorem pageAt?_eq (h : LadderInv l) {d : Nat} (hd : l.dir d ≠ kNoPage) :
    l.pageAt? (l.dir d) = some (l.pages (l.dir d)) :=
  if_pos (Nat.lt_of_lt_of_le (h.dir_lt d hd).1 h.pool)

theorem firstAboveFrom?_eq (h : LadderInv l) (d0 : Nat) {o0 : Nat} (ho0 : o0 < kPageTicks k) :
    ∀ n d, d + n = l.dirLen →
      l.firstAboveFrom? d0 o0 n d = some (l.firstAboveFrom d0 o0 n d) := by
  intro n
  induction n with
  | zero => intro d _; rfl
  | succ n ih =>
      intro d hn
      have hrest := ih (d + 1) (by omega)
      have hstart : (if d = d0 then o0 else 0) < kPageTicks k := by
        split
        · exact ho0
        · exact kPageTicks_pos k
      rw [firstAboveFrom?, firstAboveFrom, dirAt?_eq (by omega)]
      simp only [Option.bind_eq_bind, Option.bind_some]
      by_cases hd : l.dir d = kNoPage
      · rw [if_pos hd, if_pos (Or.inl hd), hrest]
      rw [if_neg hd, pageAt?_eq h hd]
      simp only [Option.bind_some]
      by_cases hz : (l.pages (l.dir d)).occupancy = 0
      · rw [if_pos hz, if_pos (Or.inr hz), hrest]
      rw [if_neg hz, if_neg (not_or.mpr ⟨hd, hz⟩), scanUp?_eq (h.page _) h.shift hstart]
      simp only [Option.bind_some]
      cases scanUp k (l.pages (l.dir d)) (if d = d0 then o0 else 0) with
      | some o => rfl
      | none => exact hrest

theorem firstAbove?_eq (h : LadderInv l) (t : Int) : l.firstAbove? t = some (l.firstAbove t) := by
  unfold firstAbove? firstAbove
  split
  · rfl
  · rename_i hend
    dsimp only
    generalize hst : (if t < l.lo then l.lo else t + 1) = start
    have hin : l.inBand start := by
      have := h.band
      rw [← hst]
      unfold inBand
      split <;> omega
    have hlt := l.dirIndex_lt hin
    exact firstAboveFrom?_eq h _ (l.offsetOf_lt start) _ _ (by omega)

theorem firstBelowIn?_eq (h : LadderInv l) (d0 : Nat) {o0 d : Nat} (ho0 : o0 < kPageTicks k)
    (hd : d < l.dirLen) (rest : Int) :
    l.firstBelowIn? d0 o0 d (some rest) = some (firstBelowFrom.firstBelowIn l d0 o0 d rest) := by
  have hstart : (if d = d0 then o0 else kPageTicks k - 1) < kPageTicks k := by
    have := kPageTicks_pos k
    split <;> omega
  rw [firstBelowIn?, firstBelowFrom.firstBelowIn, dirAt?_eq hd]
  simp only [Option.bind_eq_bind, Option.bind_some]
  by_cases hno : l.dir d = kNoPage
  · rw [if_pos hno, if_neg (fun hh => hh.1 hno)]
  rw [if_neg hno, pageAt?_eq h hno]
  simp only [Option.bind_some]
  by_cases hz : (l.pages (l.dir d)).occupancy = 0
  · rw [if_pos hz, if_neg (fun hh => hh.2 hz)]
  have hgo : l.dir d ≠ kNoPage ∧ (l.pages (l.dir d)).occupancy ≠ 0 := ⟨hno, hz⟩
  rw [if_neg hz, if_pos hgo, scanDown?_eq (h.page _) h.shift hstart]
  simp only [Option.bind_some]
  cases scanDown (l.pages (l.dir d)) (if d = d0 then o0 else kPageTicks k - 1) <;> rfl

theorem firstBelowFrom?_eq (h : LadderInv l) (d0 : Nat) {o0 : Nat} (ho0 : o0 < kPageTicks k) :
    ∀ d, d < l.dirLen → l.firstBelowFrom? d0 o0 d = some (l.firstBelowFrom d0 o0 d) := by
  intro d
  induction d with
  | zero => exact fun hd => firstBelowIn?_eq h d0 ho0 hd kNoTick
  | succ d ih =>
      intro hd
      rw [firstBelowFrom?, ih (by omega)]
      exact firstBelowIn?_eq h d0 ho0 hd _

theorem firstBelow?_eq (h : LadderInv l) (t : Int) : l.firstBelow? t = some (l.firstBelow t) := by
  unfold firstBelow? firstBelow
  split
  · rfl
  · rename_i hend
    dsimp only
    generalize hst : (if l.hi < t then l.hi - 1 else t - 1) = start
    have hin : l.inBand start := by
      have := h.band
      rw [← hst]
      unfold inBand
      split <;> omega
    exact firstBelowFrom?_eq h _ (l.offsetOf_lt start) _ (l.dirIndex_lt hin)

end Checked

/-! ## Runs of `apply` -/

/-- A call of `apply` that claims a page only when it may and leaves no total negative. -/
structure Legal (l : PriceLadder k) (tick delta : Int) : Prop where
  band : l.inBand tick
  claimable : l.claimable tick
  total : 0 ≤ (l.levelAt tick).qtyTotal + delta

/-- The ladders that calls of `apply` lead to, with the calls, oldest first. -/
inductive Runs (cfg : LadderConfig) : List (Int × Int) → PriceLadder k → Prop where
  | start : Runs cfg [] (init cfg)
  | apply {calls : List (Int × Int)} {l : PriceLadder k} (h : Runs cfg calls l) (tick delta : Int)
      (hl : l.Legal tick delta) : Runs cfg (calls ++ [(tick, delta)]) (l.apply tick delta).1

/-- The quantity that `calls` have put at tick `t`. -/
def quantityAt (calls : List (Int × Int)) (t : Int) : Int :=
  ((calls.filter (fun c => c.1 = t)).map Prod.snd).sum

section

variable {cfg : LadderConfig} {calls : List (Int × Int)} {l : PriceLadder k}

theorem quantityAt_append (calls : List (Int × Int)) (tick delta t : Int) :
    quantityAt (calls ++ [(tick, delta)]) t = quantityAt calls t + if t = tick then delta else 0 := by
  rw [quantityAt, List.filter_append, List.map_append, List.sum_append, quantityAt]
  by_cases ht : t = tick
  · simp [ht]
  · simp [ht, Ne.symm ht]

/-- **What a run keeps**: the invariant, and every level's total is what was put there. -/
theorem Runs.spec (hk : k ≤ 12) (hcfg : cfg.Ok) (h : Runs cfg calls l) :
    LadderInv l ∧ ∀ t, (l.levelAt t).qtyTotal = quantityAt calls t := by
  induction h with
  | start =>
      refine ⟨ladderInv_init hk hcfg.band hcfg.ceil hcfg.pool, fun t => ?_⟩
      rw [levelAt_unclaimed rfl]
      rfl
  | apply h tick delta hl ih =>
      obtain ⟨hinv, htotal⟩ := ih
      have happ := apply_spec hinv hl.band hl.claimable delta
      refine ⟨happ.inv, fun t => ?_⟩
      rw [happ.levelAt, quantityAt_append, ← htotal t]
      by_cases ht : t = tick
      · rw [if_pos ht, if_pos ht, ht]
      · rw [if_neg ht, if_neg ht, Int.add_zero]

/-- The scans from `t` find the true neighbours, within the bounds of every array. -/
structure ScansExact (l : PriceLadder k) (qty : Int → Int) (t : Int) : Prop where
  above : NearestAbove (fun u => qty u ≠ 0) t (l.firstAbove t)
  below : NearestBelow (fun u => qty u ≠ 0) t (l.firstBelow t)
  aboveChecked : l.firstAbove? t = some (l.firstAbove t)
  belowChecked : l.firstBelow? t = some (l.firstBelow t)

end

end PriceLadder

end Mog
