import Mathlib.Data.Finset.Card
import Mathlib.Data.Finset.Insert
import Mathlib.Order.Interval.Finset.Nat
import Mog.Book.Ladder

/-!
# The ladder keeps its bitmaps true and its scans find the nearest level

Three layers. A page satisfies `PageInv` when its masks, its summary word and its
occupancy describe its levels. A ladder satisfies `LadderInv` when all its pages
do, the directory is an injection into the claimed pages and no level beyond the
band holds anything. Above that the directory disappears: `levelAt` reads the
level of a tick, and what `apply`, `setLevel`, `firstAbove` and `firstBelow` do is
said in terms of it.

The scans are where the words come in: the first word is masked at the offset, the summary says
which word comes next, and a bit of either is the level. Each scan is proved once, for the page,
and the directory walk around it moves from page to page until one has an answer or the band
ends.
-/

namespace Mog

open WordScan PriceLadder

theorem kPageTicks_pos (k : Nat) : 0 < kPageTicks k := Nat.two_pow_pos k

theorem kPageTicks_le {k : Nat} (hk : k ≤ 12) : kPageTicks k ≤ 4096 :=
  Nat.pow_le_pow_right (by omega) hk

/-! ## One page -/

/-- The page's bitmaps and counter describe its levels. -/
structure PageInv (k : Nat) (p : Page) : Prop where
  mask : ∀ w b, w < 64 → b < 64 →
    ((p.mask w).getLsbD b = true ↔ w * 64 + b < kPageTicks k ∧ (p.levels (w * 64 + b)).qtyTotal ≠ 0)
  summary : ∀ w, w < 64 → (p.summaryMask.getLsbD w = true ↔ p.mask w ≠ 0#64)
  occupancy : p.occupancy
    = ((Finset.range (kPageTicks k)).filter (fun o => (p.levels o).qtyTotal ≠ 0)).card

theorem pageInv_init (k : Nat) : PageInv k {} where
  mask := by intro w b _ _; simp
  summary := by intro w _; simp
  occupancy := by simp

section Page

variable {k : Nat} {p : Page} {o : Nat}

theorem PageInv.bit_iff (h : PageInv k p) (hk : k ≤ 12) (ho : o < kPageTicks k) :
    (p.mask (o / 64)).getLsbD (o % 64) = true ↔ (p.levels o).qtyTotal ≠ 0 := by
  have hle := kPageTicks_le hk
  rw [h.mask (o / 64) (o % 64) (by omega) (by omega), Nat.div_add_mod' o 64]
  exact ⟨fun hh => hh.2, fun hh => ⟨ho, hh⟩⟩

theorem applyPage_levels (p : Page) (o : Nat) (delta : Int) :
    (applyPage p o delta).levels
      = Function.update p.levels o
          { p.levels o with qtyTotal := (p.levels o).qtyTotal + delta } := by
  unfold applyPage
  dsimp only
  split
  · rfl
  · split <;> rfl

/-- The bitmap side of `applyPage`, over the levels it leaves. -/
theorem applyPage_eq (p : Page) (o : Nat) (delta : Int) :
    applyPage p o delta
      = let p' := { p with levels := (applyPage p o delta).levels }
        if (p.levels o).qtyTotal = 0 ∧ (p.levels o).qtyTotal + delta ≠ 0 then markNonzero p' o
        else if (p.levels o).qtyTotal ≠ 0 ∧ (p.levels o).qtyTotal + delta = 0 then markZero p' o
        else p' := by
  rw [applyPage_levels]
  rfl

/-- Writing a level without touching its total. -/
theorem PageInv.setLevel (h : PageInv k p) {lv : Level} (hq : lv.qtyTotal = (p.levels o).qtyTotal) :
    PageInv k { p with levels := Function.update p.levels o lv } := by
  have hsame : ∀ x, (Function.update p.levels o lv x).qtyTotal = (p.levels x).qtyTotal := by
    intro x
    by_cases hx : x = o
    · subst hx; simp [hq]
    · rw [Function.update_of_ne hx]
  exact
    { mask := by intro w b hw hb; simpa only [hsame] using h.mask w b hw hb
      summary := h.summary
      occupancy := by simpa only [hsame] using h.occupancy }

/-- A word is zero exactly when its levels are all empty. -/
theorem PageInv.word_eq_zero (h : PageInv k p) {w : Nat} (hw : w < 64) (hz : p.mask w = 0#64)
    (hx : o < kPageTicks k) (ho : o / 64 = w) : (p.levels o).qtyTotal = 0 := by
  by_contra hne
  have hbit := (h.mask w (o % 64) hw (by omega)).mpr
    (by rw [← ho, Nat.div_add_mod' o 64]; exact ⟨hx, hne⟩)
  rw [hz] at hbit
  simp at hbit

theorem applyPage_qtyTotal (p : Page) (o : Nat) (delta : Int) (x : Nat) :
    ((applyPage p o delta).levels x).qtyTotal
      = if x = o then (p.levels o).qtyTotal + delta else (p.levels x).qtyTotal := by
  rw [applyPage_levels, Function.update_apply]
  split <;> rfl

/-- Away from the changed offset, the same offsets have quantity. -/
theorem mem_occupied_applyPage {x : Nat} (delta : Int) (hx : x ≠ o) :
    x ∈ (Finset.range (kPageTicks k)).filter
        (fun y => ((applyPage p o delta).levels y).qtyTotal ≠ 0)
      ↔ x ∈ (Finset.range (kPageTicks k)).filter (fun y => (p.levels y).qtyTotal ≠ 0) := by
  simp only [Finset.mem_filter, applyPage_qtyTotal, if_neg hx]

/-- Where an offset stands, in word and bit. -/
theorem offset_eq_iff {w b : Nat} (hb : b < 64) : w * 64 + b = o ↔ w = o / 64 ∧ b = o % 64 := by
  omega

/-- The level fills: one bit more. -/
theorem applyPage_fills (h : PageInv k p) (hk : k ≤ 12) (ho : o < kPageTicks k) {delta : Int}
    (hup : (p.levels o).qtyTotal = 0 ∧ (p.levels o).qtyTotal + delta ≠ 0) :
    PageInv k (applyPage p o delta) := by
  have hle := kPageTicks_le hk
  have hw0 : o / 64 < 64 := by omega
  have hb0 : o % 64 < 64 := Nat.mod_lt _ (by omega)
  have hqty := applyPage_qtyTotal p o delta
  have heq := applyPage_eq p o delta
  dsimp only at heq
  rw [if_pos hup] at heq
  have hmask : ∀ w, (applyPage p o delta).mask w
      = if w = o / 64 then p.mask w ||| (1#64 <<< (o % 64)) else p.mask w := by
    intro w
    rw [heq]
    simp only [markNonzero, Function.update_apply]
    split
    · rename_i hw; rw [hw]
    · rfl
  refine ⟨?_, ?_, ?_⟩
  -- The bits of the words, the summary, and the number of levels that hold anything.
  · intro w b hw hb
    rw [hmask, hqty]
    have hold := h.mask w b hw hb
    by_cases hwo : w = o / 64
    · rw [if_pos hwo, getLsbD_set hb0, Bool.or_eq_true, hold, decide_eq_true_iff]
      by_cases hbo : b = o % 64
      · have hxo : w * 64 + b = o := (offset_eq_iff hb).mpr ⟨hwo, hbo⟩
        rw [if_pos hxo, hxo]
        simp [hbo, hup.2, ho]
      · have hxo : w * 64 + b ≠ o := fun he => hbo ((offset_eq_iff hb).mp he).2
        rw [if_neg hxo]
        simp [hbo]
    · have hxo : w * 64 + b ≠ o := fun he => hwo ((offset_eq_iff hb).mp he).1
      rw [if_neg hwo, if_neg hxo]
      exact hold
  · intro w hw
    have hsum : (applyPage p o delta).summaryMask = p.summaryMask ||| (1#64 <<< (o / 64)) := by
      rw [heq]; rfl
    rw [hsum, getLsbD_set hw0, Bool.or_eq_true, h.summary w hw, decide_eq_true_iff, hmask]
    by_cases hwo : w = o / 64
    · rw [if_pos hwo]
      refine ⟨fun _ => ne_zero_iff.mpr ⟨o % 64, hb0, ?_⟩, fun _ => Or.inr hwo⟩
      rw [getLsbD_set hb0]; simp
    · rw [if_neg hwo]
      simp [hwo]
  · have hins : (Finset.range (kPageTicks k)).filter
          (fun x => ((applyPage p o delta).levels x).qtyTotal ≠ 0)
        = insert o ((Finset.range (kPageTicks k)).filter (fun x => (p.levels x).qtyTotal ≠ 0)) := by
      ext x
      by_cases hx : x = o
      · subst hx
        simp [hqty, ho, hup.2]
      · rw [mem_occupied_applyPage delta hx, Finset.mem_insert]
        simp [hx]
    rw [hins, Finset.card_insert_of_notMem (by simp [hup.1]), ← h.occupancy, heq]
    rfl

/-- The level drains: one bit less, and the summary bit with the word's last one. -/
theorem applyPage_drains (h : PageInv k p) (hk : k ≤ 12) (ho : o < kPageTicks k) {delta : Int}
    (hdown : (p.levels o).qtyTotal ≠ 0 ∧ (p.levels o).qtyTotal + delta = 0) :
    PageInv k (applyPage p o delta) := by
  have hle := kPageTicks_le hk
  have hw0 : o / 64 < 64 := by omega
  have hb0 : o % 64 < 64 := Nat.mod_lt _ (by omega)
  have hqty := applyPage_qtyTotal p o delta
  have heq := applyPage_eq p o delta
  dsimp only at heq
  rw [if_neg fun hup => hdown.1 hup.1, if_pos hdown] at heq
  have hmask : ∀ w, (applyPage p o delta).mask w
      = if w = o / 64 then p.mask w &&& ~~~(1#64 <<< (o % 64)) else p.mask w := by
    intro w
    rw [heq]
    simp only [markZero, Function.update_apply]
    split
    · rename_i hw; rw [hw]
    · rfl
  refine ⟨?_, ?_, ?_⟩
  · intro w b hw hb
    rw [hmask, hqty]
    have hold := h.mask w b hw hb
    by_cases hwo : w = o / 64
    · rw [if_pos hwo, getLsbD_clear hb0, Bool.and_eq_true, hold]
      by_cases hbo : b = o % 64
      · have hxo : w * 64 + b = o := (offset_eq_iff hb).mpr ⟨hwo, hbo⟩
        rw [if_pos hxo]
        simp [hbo, hdown.2]
      · have hxo : w * 64 + b ≠ o := fun he => hbo ((offset_eq_iff hb).mp he).2
        rw [if_neg hxo]
        simp [hbo]
    · have hxo : w * 64 + b ≠ o := fun he => hwo ((offset_eq_iff hb).mp he).1
      rw [if_neg hwo, if_neg hxo]
      exact hold
  · intro w hw
    have hsum : (applyPage p o delta).summaryMask
        = if (applyPage p o delta).mask (o / 64) = 0#64
            then p.summaryMask &&& ~~~(1#64 <<< (o / 64)) else p.summaryMask := by
      rw [hmask, if_pos rfl, heq]; rfl
    rw [hsum]
    by_cases hz : (applyPage p o delta).mask (o / 64) = 0#64
    · rw [if_pos hz, getLsbD_clear hw0, Bool.and_eq_true, h.summary w hw]
      by_cases hwo : w = o / 64
      · rw [hwo, hz]; simp
      · rw [hmask, if_neg hwo]; simp [hwo]
    · rw [if_neg hz, h.summary w hw]
      by_cases hwo : w = o / 64
      · -- the word keeps a bit, so that its summary bit was and stays set
        rw [hwo]
        refine ⟨fun _ => hz, fun _ => ?_⟩
        exact ne_zero_iff.mpr ⟨o % 64, hb0, (h.bit_iff hk ho).mpr hdown.1⟩
      · rw [hmask, if_neg hwo]
  · have hers : (Finset.range (kPageTicks k)).filter
          (fun x => ((applyPage p o delta).levels x).qtyTotal ≠ 0)
        = ((Finset.range (kPageTicks k)).filter (fun x => (p.levels x).qtyTotal ≠ 0)).erase o := by
      ext x
      by_cases hx : x = o
      · subst hx
        simp [hqty, hdown.2]
      · rw [mem_occupied_applyPage delta hx, Finset.mem_erase]
        simp [hx]
    rw [hers, Finset.card_erase_of_mem (by simp [ho, hdown.1]), ← h.occupancy, heq]
    rfl

/-- The level keeps its state: nothing but the total changes. -/
theorem applyPage_keeps (h : PageInv k p) {delta : Int}
    (hup : ¬ ((p.levels o).qtyTotal = 0 ∧ (p.levels o).qtyTotal + delta ≠ 0))
    (hdown : ¬ ((p.levels o).qtyTotal ≠ 0 ∧ (p.levels o).qtyTotal + delta = 0)) :
    PageInv k (applyPage p o delta) := by
  have heq := applyPage_eq p o delta
  dsimp only at heq
  rw [if_neg hup, if_neg hdown] at heq
  have hsame : ∀ x, ((applyPage p o delta).levels x).qtyTotal ≠ 0 ↔ (p.levels x).qtyTotal ≠ 0 := by
    intro x
    rw [applyPage_qtyTotal]
    by_cases hx : x = o
    · subst hx; rw [if_pos rfl]; constructor <;> omega
    · rw [if_neg hx]
  refine ⟨?_, ?_, ?_⟩
  · intro w b hw hb
    rw [hsame, heq]
    exact h.mask w b hw hb
  · intro w hw
    rw [heq]
    exact h.summary w hw
  · have hocc : (applyPage p o delta).occupancy = p.occupancy := by rw [heq]
    rw [hocc, h.occupancy]
    simp only [hsame]

/-- **A quantity change keeps the page's bitmaps true.** -/
theorem applyPage_inv (h : PageInv k p) (hk : k ≤ 12) (ho : o < kPageTicks k) (delta : Int) :
    PageInv k (applyPage p o delta) := by
  by_cases hup : (p.levels o).qtyTotal = 0 ∧ (p.levels o).qtyTotal + delta ≠ 0
  · exact applyPage_fills h hk ho hup
  · by_cases hdown : (p.levels o).qtyTotal ≠ 0 ∧ (p.levels o).qtyTotal + delta = 0
    · exact applyPage_drains h hk ho hdown
    · exact applyPage_keeps h hup hdown

/-- `r` is the first offset from `start` up with quantity, if the page has one. -/
def FirstFrom (k : Nat) (p : Page) (start : Nat) : Option Nat → Prop
  | some o => start ≤ o ∧ o < kPageTicks k ∧ (p.levels o).qtyTotal ≠ 0
      ∧ ∀ x, start ≤ x → x < o → (p.levels x).qtyTotal = 0
  | none => ∀ x, start ≤ x → x < kPageTicks k → (p.levels x).qtyTotal = 0

/-- **The upward scan of a page** finds the first nonempty offset. -/
theorem scanUp_spec (h : PageInv k p) (hk : k ≤ 12) (hs : o < kPageTicks k) :
    FirstFrom k p o (scanUp k p o) := by
  have hle := kPageTicks_le hk
  have hwords : kMaskWords k ≤ 64 := by unfold kMaskWords; omega
  have hw0 : o / 64 < 64 := by omega
  have hb0 : o % 64 < 64 := Nat.mod_lt _ (by omega)
  unfold scanUp
  dsimp only
  by_cases hm : p.mask (o / 64) &&& ~~~((1#64 <<< (o % 64)) - 1#64) ≠ 0#64
  · -- the start's own word has a bit from the start up
    rw [if_pos hm]
    obtain ⟨hlt, hbit, hlow⟩ := countrZero_spec hm
    rw [getLsbD_from hb0, Bool.and_eq_true, h.mask _ _ hw0 hlt, decide_eq_true_iff] at hbit
    obtain ⟨⟨hin, hne⟩, hge⟩ := hbit
    refine ⟨by omega, hin, hne, fun x hx1 hx2 => ?_⟩
    have hxw : x / 64 = o / 64 := by omega
    have hz := hlow (x % 64) (by omega)
    rw [getLsbD_from hb0, ← hxw] at hz
    by_contra hnz
    rw [(h.bit_iff hk (by omega)).mpr hnz] at hz
    simp only [Bool.true_and, decide_eq_false_iff_not] at hz
    omega
  · rw [if_neg hm]
    have hown : ∀ x, o ≤ x → x / 64 = o / 64 → x < kPageTicks k → (p.levels x).qtyTotal = 0 := by
      intro x hx hxw hlt
      by_contra hnz
      refine hm (ne_zero_iff.mpr ⟨x % 64, by omega, ?_⟩)
      rw [getLsbD_from hb0, ← hxw, (h.bit_iff hk hlt).mpr hnz]
      simp only [Bool.true_and, decide_eq_true_iff]
      omega
    by_cases hnext : o / 64 + 1 < kMaskWords k
    · rw [if_pos hnext]
      have hw1 : o / 64 + 1 < 64 := by omega
      by_cases hsm : p.summaryMask &&& ~~~((1#64 <<< (o / 64 + 1)) - 1#64) ≠ 0#64
      · -- the summary names the first later word, the word its first bit
        rw [if_pos hsm]
        obtain ⟨hwlt, hwbit, hwlow⟩ := countrZero_spec hsm
        generalize countrZero (p.summaryMask &&& ~~~((1#64 <<< (o / 64 + 1)) - 1#64)) = w at *
        rw [getLsbD_from hw1, Bool.and_eq_true, h.summary w hwlt, decide_eq_true_iff] at hwbit
        obtain ⟨hwne, hwge⟩ := hwbit
        obtain ⟨hlt, hbit, hlow⟩ := countrZero_spec hwne
        obtain ⟨hin, hne⟩ := (h.mask w _ hwlt hlt).mp hbit
        refine ⟨by omega, hin, hne, fun x hx1 hx2 => ?_⟩
        rcases Nat.lt_trichotomy (x / 64) w with hlo | heq | hhi
        · by_cases hxw : x / 64 = o / 64
          · exact hown x hx1 hxw (by omega)
          · have hz := hwlow (x / 64) hlo
            rw [getLsbD_from hw1, show decide (o / 64 + 1 ≤ x / 64) = true from
              decide_eq_true (by omega), Bool.and_true] at hz
            have hword : p.mask (x / 64) = 0#64 := by
              by_contra hnz
              rw [(h.summary (x / 64) (by omega)).mpr hnz] at hz
              exact Bool.noConfusion hz
            exact h.word_eq_zero (by omega) hword (by omega) rfl
        · have hz := hlow (x % 64) (by omega)
          by_contra hnz
          have hb := (h.bit_iff hk (o := x) (by omega)).mpr hnz
          rw [heq, hz] at hb
          exact Bool.noConfusion hb
        · omega
      · rw [if_neg hsm]
        intro x hx hlt
        by_cases hxw : x / 64 = o / 64
        · exact hown x hx hxw hlt
        · have hword : p.mask (x / 64) = 0#64 := by
            by_contra hnz
            refine hsm (ne_zero_iff.mpr ⟨x / 64, by omega, ?_⟩)
            rw [getLsbD_from hw1, (h.summary (x / 64) (by omega)).mpr hnz]
            simp only [Bool.true_and, decide_eq_true_iff]
            omega
          exact h.word_eq_zero (by omega) hword hlt rfl
    · rw [if_neg hnext]
      intro x hx hlt
      refine hown x hx ?_ hlt
      unfold kMaskWords at hnext
      omega

/-- `r` is the last offset from `start` down with quantity, if the page has one. -/
def LastFrom (k : Nat) (p : Page) (start : Nat) : Option Nat → Prop
  | some o => o ≤ start ∧ o < kPageTicks k ∧ (p.levels o).qtyTotal ≠ 0
      ∧ ∀ x, o < x → x ≤ start → (p.levels x).qtyTotal = 0
  | none => ∀ x, x ≤ start → (p.levels x).qtyTotal = 0

/-- The mask that keeps the bits up to and including `b`. -/
theorem getLsbD_upTo {m : BitVec 64} {b i : Nat} (hb : b < 64) :
    (m &&& (if b = 63 then ~~~0#64 else (1#64 <<< (b + 1)) - 1#64)).getLsbD i
      = (m.getLsbD i && decide (i ≤ b)) := by
  by_cases h63 : b = 63
  · rw [if_pos h63, BitVec.getLsbD_and, BitVec.getLsbD_not, BitVec.getLsbD_zero]
    by_cases hi : i < 64
    · simp [hi, show i ≤ b by omega]
    · simp [BitVec.getLsbD_of_ge m i (by omega)]
  · rw [if_neg h63, getLsbD_below (by omega)]
    congr 1
    simp only [decide_eq_decide]
    omega

/-- **The downward scan of a page** finds the last nonempty offset. -/
theorem scanDown_spec (h : PageInv k p) (hk : k ≤ 12) (hs : o < kPageTicks k) :
    LastFrom k p o (scanDown p o) := by
  have hle := kPageTicks_le hk
  have hw0 : o / 64 < 64 := by omega
  have hb0 : o % 64 < 64 := Nat.mod_lt _ (by omega)
  unfold scanDown
  dsimp only
  by_cases hm : p.mask (o / 64) &&&
      (if o % 64 = 63 then ~~~0#64 else (1#64 <<< (o % 64 + 1)) - 1#64) ≠ 0#64
  -- A bit at the offset or below it in its own word: the highest of them is the level.
  · rw [if_pos hm]
    obtain ⟨_, hbit, hhigh⟩ := countlZero_spec hm
    generalize 63 - countlZero _ = b at *
    have hb : b < 64 := by
      by_contra hge
      rw [BitVec.getLsbD_of_ge _ _ (by omega)] at hbit
      exact Bool.noConfusion hbit
    rw [getLsbD_upTo hb0, Bool.and_eq_true, h.mask _ _ hw0 hb, decide_eq_true_iff] at hbit
    obtain ⟨⟨hin, hne⟩, hge⟩ := hbit
    refine ⟨by omega, hin, hne, fun x hx1 hx2 => ?_⟩
    have hxw : x / 64 = o / 64 := by omega
    have hz := hhigh (x % 64) (by omega)
    rw [getLsbD_upTo hb0, ← hxw] at hz
    by_contra hnz
    rw [(h.bit_iff hk (by omega)).mpr hnz] at hz
    simp only [Bool.true_and, decide_eq_false_iff_not] at hz
    omega
  -- The word holds nothing more, and the summary says which word below it is the next.
  · rw [if_neg hm]
    have hown : ∀ x, x ≤ o → x / 64 = o / 64 → (p.levels x).qtyTotal = 0 := by
      intro x hx hxw
      by_contra hnz
      refine hm (ne_zero_iff.mpr ⟨x % 64, by omega, ?_⟩)
      rw [getLsbD_upTo hb0, ← hxw, (h.bit_iff hk (by omega)).mpr hnz]
      simp only [Bool.true_and, decide_eq_true_iff]
      omega
    by_cases hprev : 0 < o / 64
    · rw [if_pos hprev]
      by_cases hsm : p.summaryMask &&& ((1#64 <<< (o / 64)) - 1#64) ≠ 0#64
      -- The highest word in the summary, and the highest bit in it.
      · rw [if_pos hsm]
        obtain ⟨_, hwbit, hwhigh⟩ := countlZero_spec hsm
        generalize 63 - countlZero (p.summaryMask &&& ((1#64 <<< (o / 64)) - 1#64)) = w at *
        have hwlt : w < 64 := by
          by_contra hge
          rw [BitVec.getLsbD_of_ge _ _ (by omega)] at hwbit
          exact Bool.noConfusion hwbit
        rw [getLsbD_below hw0, Bool.and_eq_true, h.summary w hwlt, decide_eq_true_iff] at hwbit
        obtain ⟨hwne, hwge⟩ := hwbit
        obtain ⟨_, hbit, hhigh⟩ := countlZero_spec hwne
        generalize 63 - countlZero (p.mask w) = b at *
        have hb : b < 64 := by
          by_contra hge
          rw [BitVec.getLsbD_of_ge _ _ (by omega)] at hbit
          exact Bool.noConfusion hbit
        obtain ⟨hin, hne⟩ := (h.mask w _ hwlt hb).mp hbit
        refine ⟨by omega, hin, hne, fun x hx1 hx2 => ?_⟩
        rcases Nat.lt_trichotomy w (x / 64) with hlo | heq | hhi
        · by_cases hxw : x / 64 = o / 64
          · exact hown x hx2 hxw
          · have hz := hwhigh (x / 64) hlo
            rw [getLsbD_below hw0, show decide (x / 64 < o / 64) = true from
              decide_eq_true (by omega), Bool.and_true] at hz
            have hword : p.mask (x / 64) = 0#64 := by
              by_contra hnz
              rw [(h.summary (x / 64) (by omega)).mpr hnz] at hz
              exact Bool.noConfusion hz
            exact h.word_eq_zero (by omega) hword (by omega) rfl
        · have hz := hhigh (x % 64) (by omega)
          by_contra hnz
          have hbt := (h.bit_iff hk (o := x) (by omega)).mpr hnz
          rw [← heq, hz] at hbt
          exact Bool.noConfusion hbt
        · omega
      -- No word below has a bit.
      · rw [if_neg hsm]
        intro x hx
        by_cases hxw : x / 64 = o / 64
        · exact hown x hx hxw
        · have hword : p.mask (x / 64) = 0#64 := by
            by_contra hnz
            refine hsm (ne_zero_iff.mpr ⟨x / 64, by omega, ?_⟩)
            rw [getLsbD_below hw0, (h.summary (x / 64) (by omega)).mpr hnz]
            simp only [Bool.true_and, decide_eq_true_iff]
            omega
          exact h.word_eq_zero (by omega) hword (by omega) rfl
    · rw [if_neg hprev]
      intro x hx
      exact hown x hx (by omega)

end Page

/-! ## The directory -/

namespace PriceLadder

variable {k : Nat}

/-- The directory entries claimed so far. -/
def touched (l : PriceLadder k) : Finset Nat :=
  (Finset.range l.dirLen).filter (fun d => l.dir d ≠ kNoPage)

/-- Where the level of a tick is kept, once its page is claimed. -/
def ptr (l : PriceLadder k) (tick : Int) : LevelPtr := ⟨l.dir (l.dirIndex tick), l.offsetOf tick⟩

/-- The level of a tick, empty where none is kept. -/
def levelAt (l : PriceLadder k) (tick : Int) : Level := (l.peek tick).getD {}

/-- The ladder invariant. -/
structure LadderInv (l : PriceLadder k) : Prop where
  shift : k ≤ 12
  band : l.lo < l.hi
  ceil : l.hi ≤ kNoTick
  poolLen : l.poolLen ≤ kNoPage
  pool : l.pagesClaimed ≤ l.poolLen
  page : ∀ n, PageInv k (l.pages n)
  fresh : ∀ n, l.pagesClaimed ≤ n → l.pages n = {}
  dir_lt : ∀ d, l.dir d ≠ kNoPage → l.dir d < l.pagesClaimed ∧ d < l.dirLen
  dir_inj : ∀ d d', l.dir d ≠ kNoPage → l.dir d = l.dir d' → d = d'
  /-- The last page may reach beyond the band, but nothing is kept there. -/
  edge : ∀ d o, l.dir d ≠ kNoPage → o < kPageTicks k → l.hi ≤ l.tickOf d o →
    (l.pages (l.dir d)).levels o = {}
  claimed : l.pagesClaimed = l.touched.card

theorem ladderInv_init {cfg : LadderConfig} (hk : k ≤ 12) (hband : cfg.loTick < cfg.hiTick)
    (hceil : cfg.hiTick ≤ kNoTick) (hpool : cfg.pagePool ≤ kNoPage) :
    LadderInv (init cfg : PriceLadder k) where
  shift := hk
  band := hband
  ceil := hceil
  poolLen := hpool
  pool := Nat.zero_le _
  page := fun _ => pageInv_init k
  fresh := fun _ _ => rfl
  dir_lt := fun _ h => absurd rfl h
  dir_inj := fun _ _ h => absurd rfl h
  edge := fun _ _ h => absurd rfl h
  claimed := by simp [touched, init]

/-! ### Ticks and their place in the directory -/

section Place

variable (l : PriceLadder k) {tick : Int}

theorem offsetOf_lt (tick : Int) : l.offsetOf tick < kPageTicks k :=
  Nat.mod_lt _ (kPageTicks_pos k)

theorem tickOf_place (h : l.lo ≤ tick) : l.tickOf (l.dirIndex tick) (l.offsetOf tick) = tick := by
  have hdiv := Nat.div_add_mod' (tick - l.lo).toNat (kPageTicks k)
  simp only [tickOf, dirIndex, offsetOf]
  omega

theorem dirIndex_tickOf {d o : Nat} (ho : o < kPageTicks k) : l.dirIndex (l.tickOf d o) = d := by
  have hsub : (l.tickOf d o - l.lo).toNat = d * kPageTicks k + o := by simp only [tickOf]; omega
  rw [dirIndex, hsub, Nat.add_comm, Nat.add_mul_div_right _ _ (kPageTicks_pos k),
    Nat.div_eq_of_lt ho, Nat.zero_add]

theorem offsetOf_tickOf {d o : Nat} (ho : o < kPageTicks k) : l.offsetOf (l.tickOf d o) = o := by
  have hsub : (l.tickOf d o - l.lo).toNat = d * kPageTicks k + o := by simp only [tickOf]; omega
  rw [offsetOf, hsub, Nat.add_comm, Nat.add_mul_mod_self_right, Nat.mod_eq_of_lt ho]

theorem lo_le_tickOf (d o : Nat) : l.lo ≤ l.tickOf d o := by simp only [tickOf]; omega

theorem dirIndex_lt (h : l.inBand tick) : l.dirIndex tick < l.dirLen := by
  obtain ⟨h1, h2⟩ := h
  have hpos := kPageTicks_pos k
  rw [dirIndex, dirLen, Nat.div_lt_iff_lt_mul hpos]
  have := Nat.lt_div_mul_add (a := (l.hi - l.lo).toNat + kPageTicks k - 1) hpos
  omega

/-- Ticks come in the order of their places. -/
theorem place_lt_iff {t : Int} (ht : l.lo ≤ t) (htick : l.lo ≤ tick) :
    t < tick ↔ l.dirIndex t < l.dirIndex tick
      ∨ (l.dirIndex t = l.dirIndex tick ∧ l.offsetOf t < l.offsetOf tick) := by
  have hpos := kPageTicks_pos k
  have h1 := Nat.div_add_mod' (t - l.lo).toNat (kPageTicks k)
  have h2 := Nat.div_add_mod' (tick - l.lo).toNat (kPageTicks k)
  have ho1 := Nat.mod_lt (t - l.lo).toNat hpos
  have ho2 := Nat.mod_lt (tick - l.lo).toNat hpos
  simp only [dirIndex, offsetOf]
  generalize (t - l.lo).toNat / kPageTicks k = d1 at *
  generalize (tick - l.lo).toNat / kPageTicks k = d2 at *
  have hstep : ∀ {a b : Nat}, a < b → a * kPageTicks k + kPageTicks k ≤ b * kPageTicks k := by
    intro a b hab
    have := Nat.mul_le_mul_right (kPageTicks k) (Nat.succ_le_of_lt hab)
    rwa [Nat.succ_mul] at this
  constructor
  · intro hlt
    rcases Nat.lt_trichotomy d1 d2 with h | h | h
    · exact Or.inl h
    · subst h; exact Or.inr ⟨rfl, by omega⟩
    · have := hstep h; omega
  · rintro (h | ⟨h, ho⟩)
    · have := hstep h; omega
    · subst h; omega

end Place

/-! ### Reading and writing levels by tick -/

section Levels

variable {l : PriceLadder k} {tick t : Int}

theorem levelAt_out (h : ¬ l.inBand t) : l.levelAt t = {} := by
  rw [levelAt, peek, if_pos h]; rfl

theorem levelAt_claimed (h : l.inBand t) (hd : l.dir (l.dirIndex t) ≠ kNoPage) :
    l.levelAt t = l.level (l.ptr t) := by
  rw [levelAt, peek, if_neg (not_not.mpr h), if_neg hd]; rfl

theorem levelAt_unclaimed (hd : l.dir (l.dirIndex t) = kNoPage) : l.levelAt t = {} := by
  by_cases hin : l.inBand t
  · rw [levelAt, peek, if_neg (not_not.mpr hin), if_pos hd]; rfl
  · exact levelAt_out hin

theorem peek_eq_some {lv : Level} (h : l.peek t = some lv) : l.levelAt t = lv := by
  rw [levelAt, h]; rfl

theorem peek_eq_none (h : l.peek t = none) : l.levelAt t = {} := by rw [levelAt, h]; rfl

/-- Two ticks of the band with one page slot and one offset are one tick. -/
theorem ptr_inj (h : LadderInv l) (ht : l.inBand t) (htick : l.inBand tick)
    (hd : l.dir (l.dirIndex t) ≠ kNoPage) (heq : l.ptr t = l.ptr tick) : t = tick := by
  simp only [ptr, LevelPtr.mk.injEq] at heq
  have hdir := h.dir_inj _ _ hd heq.1
  rw [← l.tickOf_place ht.1, ← l.tickOf_place htick.1, hdir, heq.2]

theorem mem_touched (h : LadderInv l) {d : Nat} : d ∈ l.touched ↔ l.dir d ≠ kNoPage := by
  simp only [touched, Finset.mem_filter, Finset.mem_range]
  exact ⟨fun hh => hh.2, fun hh => ⟨(h.dir_lt d hh).2, hh⟩⟩

theorem level_setLevel (l : PriceLadder k) (p q : LevelPtr) (lv : Level) :
    (l.setLevel p lv).level q = if q = p then lv else l.level q := by
  obtain ⟨pg, o⟩ := p
  obtain ⟨qg, qo⟩ := q
  simp only [level, setLevel, LevelPtr.mk.injEq]
  by_cases hg : qg = pg
  · subst hg
    rw [Function.update_self]
    by_cases ho : qo = o
    · subst ho; simp
    · simp [ho]
  · simp [hg]

@[simp] theorem ptr_setLevel (l : PriceLadder k) (p : LevelPtr) (lv : Level) (t : Int) :
    (l.setLevel p lv).ptr t = l.ptr t := rfl

/-- A price can rest when its page is touched already or the pool has a page left. -/
theorem claimable_iff (h : LadderInv l) :
    l.claimable t ↔ l.dirIndex t ∈ l.touched ∨ l.touched.card < l.poolLen := by
  rw [claimable, mem_touched h, ← h.claimed]

/-- Writing the links of a claimed level changes that level and nothing else. -/
theorem setLevel_levelAt (h : LadderInv l) (htick : l.inBand tick)
    (hd : l.dir (l.dirIndex tick) ≠ kNoPage) (lv : Level) (t : Int) :
    (l.setLevel (l.ptr tick) lv).levelAt t = if t = tick then lv else l.levelAt t := by
  by_cases hin : l.inBand t
  · by_cases hdt : l.dir (l.dirIndex t) = kNoPage
    · have hne : t ≠ tick := fun he => hd (he ▸ hdt)
      rw [levelAt_unclaimed (l := l.setLevel (l.ptr tick) lv) hdt, if_neg hne,
        levelAt_unclaimed hdt]
    · rw [levelAt_claimed (l := l.setLevel (l.ptr tick) lv) hin hdt, levelAt_claimed hin hdt,
        ptr_setLevel, level_setLevel]
      by_cases he : t = tick
      · rw [if_pos he, if_pos (by rw [he])]
      · rw [if_neg he, if_neg (fun hh => he (ptr_inj h hin htick hdt hh))]
  · have hne : t ≠ tick := fun he => hin (he ▸ htick)
    rw [levelAt_out (l := l.setLevel (l.ptr tick) lv) hin, if_neg hne, levelAt_out hin]

theorem setLevel_inv (h : LadderInv l) (htick : l.inBand tick)
    (hd : l.dir (l.dirIndex tick) ≠ kNoPage) {lv : Level}
    (hq : lv.qtyTotal = (l.levelAt tick).qtyTotal) : LadderInv (l.setLevel (l.ptr tick) lv) where
  shift := h.shift
  band := h.band
  ceil := h.ceil
  poolLen := h.poolLen
  pool := h.pool
  page := by
    intro n
    simp only [setLevel, Function.update_apply]
    split
    · rw [levelAt_claimed htick hd] at hq
      exact (h.page _).setLevel hq
    · exact h.page n
  fresh := by
    intro n hn
    have hlt := (h.dir_lt _ hd).1
    have hne : n ≠ (l.ptr tick).page := fun he => by
      have hle : l.pagesClaimed ≤ n := hn
      rw [he] at hle
      exact absurd hlt (Nat.not_lt.mpr hle)
    simp only [setLevel, Function.update_of_ne hne]
    exact h.fresh n hn
  dir_lt := h.dir_lt
  dir_inj := h.dir_inj
  edge := by
    intro d o hd' ho hhi
    have hold := h.edge d o hd' ho hhi
    have hdir : (l.setLevel (l.ptr tick) lv).dir d = l.dir d := rfl
    rw [hdir]
    simp only [setLevel, Function.update_apply]
    split
    · -- the same page: but the written offset lies inside the band
      rename_i hpage
      have hdd : d = l.dirIndex tick := h.dir_inj _ _ hd' hpage
      have hne : o ≠ (l.ptr tick).offset := by
        intro he
        have hto : l.tickOf d o = tick := by rw [he, hdd]; exact l.tickOf_place htick.1
        have hlt := htick.2
        have hge : l.hi ≤ l.tickOf d o := hhi
        omega
      rw [← hpage]
      exact (Function.update_of_ne hne _ _).trans hold
    · exact hold
  claimed := h.claimed

/-! ### Claiming a page and changing a total -/

theorem claim_eq (hd : l.dir (l.dirIndex tick) ≠ kNoPage) :
    l.claim (l.dirIndex tick) = (l, l.dir (l.dirIndex tick)) := by rw [claim, if_neg hd]

/-- Pointing a free directory entry at an unused page shows in no level. -/
theorem fresh_levelAt {l' : PriceLadder k} {d0 : Nat} (h : LadderInv l) (hd0 : l.dir d0 = kNoPage)
    (hlo : l'.lo = l.lo) (hhi : l'.hi = l.hi) (hpages : l'.pages = l.pages)
    (hdir : ∀ d, l'.dir d = if d = d0 then l.pagesClaimed else l.dir d) (t : Int) :
    l'.levelAt t = l.levelAt t := by
  have hdi : l'.dirIndex t = l.dirIndex t := by simp only [dirIndex, hlo]
  have hof : l'.offsetOf t = l.offsetOf t := by simp only [offsetOf, hlo]
  have hbd : l'.inBand t ↔ l.inBand t := by simp only [inBand, hlo, hhi]
  by_cases hin : l.inBand t
  · by_cases hdt : l.dirIndex t = d0
    · have hd1 : l.dir (l.dirIndex t) = kNoPage := by rw [hdt]; exact hd0
      rw [levelAt_unclaimed (l := l) hd1]
      by_cases hd' : l'.dir (l'.dirIndex t) = kNoPage
      · exact levelAt_unclaimed hd'
      · rw [levelAt_claimed (hbd.mpr hin) hd', level, ptr, hdi, hdir, if_pos hdt, hpages,
          h.fresh _ (Nat.le_refl _)]
    · have hsame : l'.dir (l'.dirIndex t) = l.dir (l.dirIndex t) := by rw [hdi, hdir, if_neg hdt]
      by_cases hd' : l.dir (l.dirIndex t) = kNoPage
      · rw [levelAt_unclaimed hd', levelAt_unclaimed (hsame.trans hd')]
      · rw [levelAt_claimed hin hd', levelAt_claimed (hbd.mpr hin) (by rw [hsame]; exact hd'),
          level, level, ptr, ptr, hsame, hof, hpages]
  · rw [levelAt_out hin, levelAt_out (fun hh => hin (hbd.mp hh))]

/-- Claiming a page keeps the invariant and no level notices. -/
theorem claim_spec (h : LadderInv l) (htick : l.inBand tick) (hcl : l.claimable tick) :
    let c := l.claim (l.dirIndex tick)
    LadderInv c.1 ∧ c.2 = c.1.dir (l.dirIndex tick) ∧ c.1.dir (l.dirIndex tick) ≠ kNoPage
      ∧ (∀ t, c.1.levelAt t = l.levelAt t) ∧ c.1.touched = insert (l.dirIndex tick) l.touched
      ∧ c.1.lo = l.lo ∧ c.1.hi = l.hi ∧ c.1.poolLen = l.poolLen := by
  -- A page that is there is left alone; a fresh one is the first page never claimed, and is empty.
  by_cases hd : l.dir (l.dirIndex tick) ≠ kNoPage
  · rw [claim_eq hd]
    refine ⟨h, rfl, hd, fun _ => rfl, ?_, rfl, rfl, rfl⟩
    rw [Finset.insert_eq_of_mem ((mem_touched h).mpr hd)]
  · have hnone : l.dir (l.dirIndex tick) = kNoPage := not_not.mp hd
    have hroom : l.pagesClaimed < l.poolLen := hcl.resolve_left hd
    have hlt : l.pagesClaimed < kNoPage := Nat.lt_of_lt_of_le hroom h.poolLen
    have hpage : l.pagesClaimed ≠ kNoPage := by omega
    unfold claim
    rw [if_pos hnone]
    dsimp only
    have hdir : ∀ d, Function.update l.dir (l.dirIndex tick) l.pagesClaimed d
        = if d = l.dirIndex tick then l.pagesClaimed else l.dir d :=
      fun d => Function.update_apply ..
    have htouched : ∀ d, d < l.dirLen →
        (Function.update l.dir (l.dirIndex tick) l.pagesClaimed d ≠ kNoPage
          ↔ d = l.dirIndex tick ∨ l.dir d ≠ kNoPage) := by
      intro d _
      rw [hdir]
      by_cases hdd : d = l.dirIndex tick
      · rw [if_pos hdd]; simp [hdd, hpage]
      · rw [if_neg hdd]; simp [hdd]
    have hset : (Finset.range l.dirLen).filter
          (fun d => Function.update l.dir (l.dirIndex tick) l.pagesClaimed d ≠ kNoPage)
        = insert (l.dirIndex tick) l.touched := by
      ext d
      simp only [Finset.mem_filter, Finset.mem_range, Finset.mem_insert, touched]
      constructor
      · rintro ⟨h1, h2⟩
        rcases (htouched d h1).mp h2 with h3 | h3
        · exact Or.inl h3
        · exact Or.inr ⟨h1, h3⟩
      · rintro (h1 | ⟨h1, h2⟩)
        · have hdl : d < l.dirLen := h1 ▸ l.dirIndex_lt htick
          exact ⟨hdl, (htouched d hdl).mpr (Or.inl h1)⟩
        · exact ⟨h1, (htouched d h1).mpr (Or.inr h2)⟩
    refine ⟨?_, by rw [hdir, if_pos rfl], by rw [hdir, if_pos rfl]; exact hpage, ?_, hset,
      rfl, rfl, rfl⟩
    · refine
        { shift := h.shift, band := h.band, ceil := h.ceil, poolLen := h.poolLen, pool := hroom,
          page := h.page, fresh := fun n hn => h.fresh n (Nat.le_of_succ_le hn), dir_lt := ?_,
          dir_inj := ?_, edge := ?_, claimed := ?_ }
      · intro d hdne
        dsimp only at hdne ⊢
        rw [hdir] at hdne ⊢
        by_cases hdd : d = l.dirIndex tick
        · rw [if_pos hdd]
          exact ⟨Nat.lt_succ_self _, hdd ▸ l.dirIndex_lt htick⟩
        · rw [if_neg hdd] at hdne ⊢
          exact ⟨Nat.lt_succ_of_lt (h.dir_lt d hdne).1, (h.dir_lt d hdne).2⟩
      -- Two prices share a page only if they share its place: no old place has the fresh page.
      · intro d d' hdne heq
        dsimp only at hdne heq
        rw [hdir] at hdne
        rw [hdir, hdir] at heq
        by_cases hdd : d = l.dirIndex tick <;> by_cases hdd' : d' = l.dirIndex tick
        · rw [hdd, hdd']
        · rw [if_pos hdd, if_neg hdd'] at heq
          have := (h.dir_lt d' (by rw [← heq]; exact hpage)).1
          omega
        · rw [if_neg hdd, if_pos hdd'] at heq
          rw [if_neg hdd] at hdne
          have := (h.dir_lt d hdne).1
          omega
        · rw [if_neg hdd, if_neg hdd'] at heq
          rw [if_neg hdd] at hdne
          exact h.dir_inj d d' hdne heq
      · intro d o hdne ho hhi
        dsimp only at hdne ⊢
        rw [hdir] at hdne ⊢
        by_cases hdd : d = l.dirIndex tick
        · rw [if_pos hdd, h.fresh _ (Nat.le_refl _)]
        · rw [if_neg hdd] at hdne ⊢
          exact h.edge d o hdne ho hhi
      · have hnot : l.dirIndex tick ∉ l.touched := fun hm => hd ((mem_touched h).mp hm)
        have hcard := Finset.card_insert_of_notMem hnot
        rw [← hset] at hcard
        exact ((congrArg (· + 1) h.claimed).trans hcard.symm)
    · exact fresh_levelAt h hnone rfl rfl rfl hdir

/-- Changing a total on a page already claimed. -/
theorem writePage_spec (h : LadderInv l) (htick : l.inBand tick)
    (hd : l.dir (l.dirIndex tick) ≠ kNoPage) (delta : Int) :
    let l' : PriceLadder k :=
      { l with
        pages := Function.update l.pages (l.dir (l.dirIndex tick))
          (applyPage (l.pages (l.dir (l.dirIndex tick))) (l.offsetOf tick) delta) }
    LadderInv l' ∧ ∀ t, l'.levelAt t = if t = tick then
      { l.levelAt tick with qtyTotal := (l.levelAt tick).qtyTotal + delta } else l.levelAt t := by
  intro l'
  have hpages : ∀ n, l'.pages n = if n = l.dir (l.dirIndex tick)
      then applyPage (l.pages (l.dir (l.dirIndex tick))) (l.offsetOf tick) delta
      else l.pages n := fun n => Function.update_apply ..
  refine ⟨?_, ?_⟩
  · refine
      { shift := h.shift, band := h.band, ceil := h.ceil, poolLen := h.poolLen, pool := h.pool,
        page := ?_, fresh := ?_, dir_lt := h.dir_lt, dir_inj := h.dir_inj, edge := ?_, claimed := h.claimed }
    · intro n
      rw [hpages]
      split
      · exact applyPage_inv (h.page _) h.shift (l.offsetOf_lt tick) delta
      · exact h.page n
    · intro n hn
      have hlt := (h.dir_lt _ hd).1
      have hle : l.pagesClaimed ≤ n := hn
      rw [hpages, if_neg (by omega)]
      exact h.fresh n hn
    -- A price past the ceiling is not `tick`, so what stands behind the edge is left empty.
    · intro d o hd' ho hhi
      have hold := h.edge d o hd' ho hhi
      have hdir : l'.dir d = l.dir d := rfl
      rw [hdir, hpages]
      split
      · rename_i hpage
        have hdd : d = l.dirIndex tick := h.dir_inj _ _ hd' hpage
        have hne : o ≠ l.offsetOf tick := by
          intro he
          have hto : l.tickOf d o = tick := by rw [he, hdd]; exact l.tickOf_place htick.1
          have hlt := htick.2
          have hge : l.hi ≤ l.tickOf d o := hhi
          omega
        rw [applyPage_levels, Function.update_of_ne hne, ← hpage]
        exact hold
      · exact hold
  -- A level of another price stands elsewhere, on another page or at another offset.
  · intro t
    have hlevel : ∀ p, l'.level p = if p = l.ptr tick
        then { l.level (l.ptr tick) with qtyTotal := (l.level (l.ptr tick)).qtyTotal + delta }
        else l.level p := by
      intro p
      obtain ⟨pg, o⟩ := p
      simp only [level, hpages, ptr, LevelPtr.mk.injEq]
      by_cases hg : pg = l.dir (l.dirIndex tick)
      · rw [if_pos hg, applyPage_levels, hg]
        by_cases ho : o = l.offsetOf tick
        · rw [ho]; simp
        · rw [Function.update_of_ne ho]; simp [ho]
      · simp [hg]
    by_cases hin : l.inBand t
    · by_cases hdt : l.dir (l.dirIndex t) = kNoPage
      · have hne : t ≠ tick := fun he => hd (he ▸ hdt)
        rw [levelAt_unclaimed (l := l') hdt, if_neg hne, levelAt_unclaimed hdt]
      · have hptr : l'.ptr t = l.ptr t := rfl
        rw [levelAt_claimed (l := l') hin hdt, levelAt_claimed hin hdt, levelAt_claimed htick hd,
          hptr, hlevel]
        by_cases he : t = tick
        · rw [if_pos he, if_pos (by rw [he])]
        · rw [if_neg he, if_neg (fun hh => he (ptr_inj h hin htick hdt hh))]
    · have hne : t ≠ tick := fun he => hin (he ▸ htick)
      rw [levelAt_out (l := l') hin, if_neg hne, levelAt_out hin]

/-- What `apply` has done. -/
structure Applied (l : PriceLadder k) (tick delta : Int) (l' : PriceLadder k) (p : LevelPtr) :
    Prop where
  inv : LadderInv l'
  ptr : p = l'.ptr tick
  claimed : l'.dir (l'.dirIndex tick) ≠ kNoPage
  levelAt : ∀ t, l'.levelAt t = if t = tick
    then { l.levelAt tick with qtyTotal := (l.levelAt tick).qtyTotal + delta } else l.levelAt t
  touched : l'.touched = insert (l.dirIndex tick) l.touched
  lo : l'.lo = l.lo
  hi : l'.hi = l.hi
  poolLen : l'.poolLen = l.poolLen

/-- **`apply` changes one total** and claims the page when it is the page's first touch. -/
theorem apply_spec (h : LadderInv l) (htick : l.inBand tick) (hcl : l.claimable tick)
    (delta : Int) : Applied l tick delta (l.apply tick delta).1 (l.apply tick delta).2 := by
  obtain ⟨hinv, hpg, hne, hlv, htouched, hlo, hhi, hpool⟩ := claim_spec h htick hcl
  unfold apply
  dsimp only
  generalize l.claim (l.dirIndex tick) = c at *
  have hdi : c.1.dirIndex tick = l.dirIndex tick := by simp only [dirIndex, hlo]
  have hof : c.1.offsetOf tick = l.offsetOf tick := by simp only [offsetOf, hlo]
  have hin : c.1.inBand tick := by
    unfold inBand
    rw [hlo, hhi]
    exact htick
  obtain ⟨winv, wlv⟩ := writePage_spec hinv hin (by rw [hdi]; exact hne) delta
  rw [hdi, hof, ← hpg] at winv wlv
  refine
    { inv := winv, ptr := ?_, claimed := ?_, levelAt := ?_, touched := htouched, lo := hlo,
      hi := hhi, poolLen := hpool }
  · show (⟨c.2, l.offsetOf tick⟩ : LevelPtr) = ⟨c.1.dir (c.1.dirIndex tick), c.1.offsetOf tick⟩
    rw [hdi, hof, hpg]
  · show c.1.dir (c.1.dirIndex tick) ≠ kNoPage
    rw [hdi]
    exact hne
  · intro t
    have := wlv t
    rw [hlv, hlv] at this
    exact this

end Levels

/-! ### The scans -/

/-- `r` is the nearest tick above `bound` that `occ` holds of; `kNoTick` when there is none. -/
def NearestAbove (occ : Int → Prop) (bound r : Int) : Prop :=
  (r = kNoTick ∧ ∀ t, bound < t → ¬ occ t)
    ∨ (r ≠ kNoTick ∧ bound < r ∧ occ r ∧ ∀ t, bound < t → t < r → ¬ occ t)

/-- `r` is the nearest tick below `bound` that `occ` holds of; `kNoTick` when there is none. -/
def NearestBelow (occ : Int → Prop) (bound r : Int) : Prop :=
  (r = kNoTick ∧ ∀ t, t < bound → ¬ occ t)
    ∨ (r ≠ kNoTick ∧ r < bound ∧ occ r ∧ ∀ t, t < bound → r < t → ¬ occ t)

/-- The tick has a nonempty level. -/
def occ (l : PriceLadder k) (t : Int) : Prop := (l.levelAt t).qtyTotal ≠ 0

section Scans

variable {l : PriceLadder k} {t : Int}

theorem occ_inBand (h : l.occ t) : l.inBand t := by
  by_contra hin
  exact h (by rw [levelAt_out hin])

/-- The level of a tick on a claimed page. -/
theorem levelAt_page (hin : l.inBand t) (hd : l.dir (l.dirIndex t) ≠ kNoPage) :
    l.levelAt t = (l.pages (l.dir (l.dirIndex t))).levels (l.offsetOf t) :=
  levelAt_claimed hin hd

theorem occ_place (h : l.occ t) :
    l.dir (l.dirIndex t) ≠ kNoPage
      ∧ ((l.pages (l.dir (l.dirIndex t))).levels (l.offsetOf t)).qtyTotal ≠ 0
      ∧ l.lo ≤ t ∧ l.dirIndex t < l.dirLen := by
  have hin := occ_inBand h
  have hd : l.dir (l.dirIndex t) ≠ kNoPage := fun hd => h (by rw [levelAt_unclaimed hd])
  exact ⟨hd, by rw [← levelAt_page hin hd]; exact h, hin.1, l.dirIndex_lt hin⟩

/-- Quantity at a place of a claimed page makes the place's tick occupied, inside the band. -/
theorem occ_tickOf (h : LadderInv l) {d o : Nat} (hd : l.dir d ≠ kNoPage) (ho : o < kPageTicks k)
    (hq : ((l.pages (l.dir d)).levels o).qtyTotal ≠ 0) : l.occ (l.tickOf d o) := by
  have hlt : l.tickOf d o < l.hi := by
    by_contra hge
    exact hq (by rw [h.edge d o hd ho (by omega)])
  have hin : l.inBand (l.tickOf d o) := ⟨l.lo_le_tickOf d o, hlt⟩
  rw [occ, levelAt_page hin (by rw [l.dirIndex_tickOf ho]; exact hd), l.dirIndex_tickOf ho,
    l.offsetOf_tickOf ho]
  exact hq

/-- A page without occupancy has no quantity anywhere. -/
theorem page_empty (h : LadderInv l) {n o : Nat} (hz : (l.pages n).occupancy = 0)
    (ho : o < kPageTicks k) : ((l.pages n).levels o).qtyTotal = 0 := by
  by_contra hne
  have hocc := (h.page n).occupancy
  rw [hz] at hocc
  have hemp := Finset.card_eq_zero.mp hocc.symm
  have hmem : o ∈ (Finset.range (kPageTicks k)).filter
      (fun o => ((l.pages n).levels o).qtyTotal ≠ 0) := by simp [ho, hne]
  rw [hemp] at hmem
  simp at hmem

/-- A tick found by a scan, and nothing between the scan's start and it. -/
theorem firstAboveFrom_spec (h : LadderInv l) (d0 : Nat) {o0 : Nat} (ho0 : o0 < kPageTicks k) :
    ∀ n d, d + n = l.dirLen →
      let r := l.firstAboveFrom d0 o0 n d
      let later := fun t => d ≤ l.dirIndex t ∧ (l.dirIndex t = d0 → o0 ≤ l.offsetOf t)
      (r = kNoTick ∧ ∀ t, later t → ¬ l.occ t)
        ∨ (l.occ r ∧ later r ∧ ∀ t, later t → t < r → ¬ l.occ t) := by
  intro n
  induction n with
  | zero =>
      intro d hn
      refine Or.inl ⟨rfl, fun t ht hocc => ?_⟩
      have := (occ_place hocc).2.2.2
      have := ht.1
      omega
  | succ n ih =>
      intro d hn
      -- what the rest of the loop finds is right for `d` too, once page `d` holds nothing
      have skip : (∀ t, l.dirIndex t = d → (l.dirIndex t = d0 → o0 ≤ l.offsetOf t) → ¬ l.occ t) →
          let r := l.firstAboveFrom d0 o0 n (d + 1)
          let later := fun t => d ≤ l.dirIndex t ∧ (l.dirIndex t = d0 → o0 ≤ l.offsetOf t)
          (r = kNoTick ∧ ∀ t, later t → ¬ l.occ t)
            ∨ (l.occ r ∧ later r ∧ ∀ t, later t → t < r → ¬ l.occ t) := by
        intro hempty
        rcases ih (d + 1) (by omega) with ⟨hr, hall⟩ | ⟨hocc, hl, hall⟩
        · refine Or.inl ⟨hr, fun t ht => ?_⟩
          by_cases hd : l.dirIndex t = d
          · exact hempty t hd ht.2
          · exact hall t ⟨by have := ht.1; omega, ht.2⟩
        · refine Or.inr ⟨hocc, ⟨by have := hl.1; omega, hl.2⟩, fun t ht hlt => ?_⟩
          by_cases hd : l.dirIndex t = d
          · exact hempty t hd ht.2
          · exact hall t ⟨by have := ht.1; omega, ht.2⟩ hlt
      rw [firstAboveFrom]
      dsimp only
      by_cases hskip : l.dir d = kNoPage ∨ (l.pages (l.dir d)).occupancy = 0
      · rw [if_pos hskip]
        refine skip (fun t ht _ hocc => ?_)
        obtain ⟨hd, hq, _⟩ := occ_place hocc
        rw [ht] at hd hq
        rcases hskip with hno | hz
        · exact hd hno
        · exact hq (page_empty h hz (l.offsetOf_lt t))
      · rw [if_neg hskip]
        have hstart : (if d = d0 then o0 else 0) < kPageTicks k := by
          split
          · exact ho0
          · exact kPageTicks_pos k
        have hscan := scanUp_spec (h.page (l.dir d)) h.shift hstart
        cases hs : scanUp k (l.pages (l.dir d)) (if d = d0 then o0 else 0) with
        | none =>
            rw [hs] at hscan
            refine skip (fun t ht hge hocc => ?_)
            obtain ⟨_, hq, _⟩ := occ_place hocc
            rw [ht] at hq
            refine hq (hscan (l.offsetOf t) ?_ (l.offsetOf_lt t))
            split
            · exact hge (by omega)
            · omega
        | some o =>
            rw [hs] at hscan
            obtain ⟨h1, h2, h3, h4⟩ := hscan
            have hdne : l.dir d ≠ kNoPage := fun hh => hskip (Or.inl hh)
            have hdi := l.dirIndex_tickOf (d := d) h2
            have hof := l.offsetOf_tickOf (d := d) h2
            refine Or.inr ⟨occ_tickOf h hdne h2 h3, ⟨by rw [hdi], fun hd0 => ?_⟩,
              fun t ht hlt hocc => ?_⟩
            · rw [hof]
              rw [hdi] at hd0
              rwa [if_pos hd0] at h1
            · -- an occupied tick before the one found would lie on the same page before its offset
              obtain ⟨_, hq, hlo, _⟩ := occ_place hocc
              have hplace := (l.place_lt_iff hlo (l.lo_le_tickOf d o)).mp hlt
              rw [hdi, hof] at hplace
              have hsame : l.dirIndex t = d := by
                rcases hplace with hh | hh
                · have := ht.1; omega
                · exact hh.1
              rw [hsame] at hq
              refine hq (h4 _ ?_ (by omega))
              split
              · exact ht.2 (by omega)
              · omega

/-- **`first_above` finds the nearest occupied tick above.** -/
theorem firstAbove_spec (h : LadderInv l) (bound : Int) :
    NearestAbove l.occ bound (l.firstAbove bound) := by
  unfold firstAbove
  by_cases hend : l.hi - 1 ≤ bound
  · rw [if_pos hend]
    exact Or.inl ⟨rfl, fun t ht hocc => by have := (occ_inBand hocc).2; omega⟩
  · rw [if_neg hend]
    dsimp only
    generalize hst : (if bound < l.lo then l.lo else bound + 1) = start
    have hlo : l.lo ≤ start ∧ start < l.hi := by
      have := h.band
      rw [← hst]
      split <;> omega
    have habove : ∀ t, l.occ t → (bound < t ↔ start ≤ t) := by
      intro t hocc
      have := (occ_inBand hocc).1
      rw [← hst]
      split <;> omega
    have hdl : l.dirIndex start < l.dirLen := l.dirIndex_lt hlo
    -- being at or after the start is being at or after it in the directory's order
    have hlater : ∀ t, l.lo ≤ t → (start ≤ t ↔ l.dirIndex start ≤ l.dirIndex t
        ∧ (l.dirIndex t = l.dirIndex start → l.offsetOf start ≤ l.offsetOf t)) := by
      intro t ht
      have := l.place_lt_iff ht hlo.1
      omega
    have hspec := firstAboveFrom_spec h (l.dirIndex start) (l.offsetOf_lt start)
      (l.dirLen - l.dirIndex start) (l.dirIndex start) (by omega)
    dsimp only at hspec
    rcases hspec with ⟨hr, hall⟩ | ⟨hocc, hl, hall⟩
    · refine Or.inl ⟨hr, fun t ht hocc => hall t ?_ hocc⟩
      exact (hlater t (occ_inBand hocc).1).mp ((habove t hocc).mp ht)
    · have hin := occ_inBand hocc
      refine Or.inr ⟨?_, (habove _ hocc).mpr ((hlater _ hin.1).mpr hl), hocc, fun t ht hlt hoc => ?_⟩
      · have := hin.2
        have := h.ceil
        omega
      · exact hall t ((hlater t (occ_inBand hoc).1).mp ((habove t hoc).mp ht)) hlt hoc

theorem firstBelowFrom_spec (h : LadderInv l) (d0 : Nat) {o0 : Nat} (ho0 : o0 < kPageTicks k) :
    ∀ d,
      let r := l.firstBelowFrom d0 o0 d
      let earlier := fun t => l.dirIndex t ≤ d ∧ (l.dirIndex t = d0 → l.offsetOf t ≤ o0)
      (r = kNoTick ∧ ∀ t, earlier t → ¬ l.occ t)
        ∨ (l.occ r ∧ earlier r ∧ ∀ t, earlier t → r < t → ¬ l.occ t) := by
  -- one round of the loop, over what the rounds for smaller entries find
  have round : ∀ d rest,
      ((rest = kNoTick ∧ ∀ t, l.dirIndex t < d ∧ (l.dirIndex t = d0 → l.offsetOf t ≤ o0) → ¬ l.occ t)
        ∨ (l.occ rest ∧ (l.dirIndex rest < d ∧ (l.dirIndex rest = d0 → l.offsetOf rest ≤ o0))
          ∧ ∀ t, l.dirIndex t < d ∧ (l.dirIndex t = d0 → l.offsetOf t ≤ o0) → rest < t →
            ¬ l.occ t)) →
      let r := firstBelowFrom.firstBelowIn l d0 o0 d rest
      let earlier := fun t => l.dirIndex t ≤ d ∧ (l.dirIndex t = d0 → l.offsetOf t ≤ o0)
      (r = kNoTick ∧ ∀ t, earlier t → ¬ l.occ t)
        ∨ (l.occ r ∧ earlier r ∧ ∀ t, earlier t → r < t → ¬ l.occ t) := by
    intro d rest hrest
    have skip : (∀ t, l.dirIndex t = d → (l.dirIndex t = d0 → l.offsetOf t ≤ o0) → ¬ l.occ t) →
        let earlier := fun t => l.dirIndex t ≤ d ∧ (l.dirIndex t = d0 → l.offsetOf t ≤ o0)
        (rest = kNoTick ∧ ∀ t, earlier t → ¬ l.occ t)
          ∨ (l.occ rest ∧ earlier rest ∧ ∀ t, earlier t → rest < t → ¬ l.occ t) := by
      intro hempty
      rcases hrest with ⟨hr, hall⟩ | ⟨hocc, hl, hall⟩
      · refine Or.inl ⟨hr, fun t ht => ?_⟩
        by_cases hd : l.dirIndex t = d
        · exact hempty t hd ht.2
        · exact hall t ⟨by have := ht.1; omega, ht.2⟩
      · refine Or.inr ⟨hocc, ⟨by have := hl.1; omega, hl.2⟩, fun t ht hlt => ?_⟩
        by_cases hd : l.dirIndex t = d
        · exact hempty t hd ht.2
        · exact hall t ⟨by have := ht.1; omega, ht.2⟩ hlt
    unfold firstBelowFrom.firstBelowIn
    dsimp only
    by_cases hpage : l.dir d ≠ kNoPage ∧ (l.pages (l.dir d)).occupancy ≠ 0
    · rw [if_pos hpage]
      have hstart : (if d = d0 then o0 else kPageTicks k - 1) < kPageTicks k := by
        have := kPageTicks_pos k
        split <;> omega
      have hscan := scanDown_spec (h.page (l.dir d)) h.shift hstart
      cases hs : scanDown (l.pages (l.dir d)) (if d = d0 then o0 else kPageTicks k - 1) with
      | none =>
          rw [hs] at hscan
          refine skip (fun t ht hge hocc => ?_)
          obtain ⟨_, hq, _⟩ := occ_place hocc
          rw [ht] at hq
          refine hq (hscan (l.offsetOf t) ?_)
          have := l.offsetOf_lt t
          split
          · exact hge (by omega)
          · omega
      | some o =>
          rw [hs] at hscan
          obtain ⟨h1, h2, h3, h4⟩ := hscan
          have hdi := l.dirIndex_tickOf (d := d) h2
          have hof := l.offsetOf_tickOf (d := d) h2
          refine Or.inr ⟨occ_tickOf h hpage.1 h2 h3, ⟨by rw [hdi], fun hd0 => ?_⟩,
            fun t ht hlt hocc => ?_⟩
          · rw [hof]
            rw [hdi] at hd0
            rwa [if_pos hd0] at h1
          · obtain ⟨_, hq, hlo, _⟩ := occ_place hocc
            have hplace := (l.place_lt_iff (l.lo_le_tickOf d o) hlo).mp hlt
            rw [hdi, hof] at hplace
            have hsame : l.dirIndex t = d := by
              rcases hplace with hh | hh
              · have := ht.1; omega
              · exact hh.1.symm
            rw [hsame] at hq
            refine hq (h4 _ (by omega) ?_)
            have := l.offsetOf_lt t
            split
            · exact ht.2 (by omega)
            · omega
    · rw [if_neg hpage]
      refine skip (fun t ht _ hocc => ?_)
      obtain ⟨hd, hq, _⟩ := occ_place hocc
      rw [ht] at hd hq
      exact hpage ⟨hd, fun hz => hq (page_empty h hz (l.offsetOf_lt t))⟩
  intro d
  induction d with
  | zero =>
      rw [firstBelowFrom]
      exact round 0 kNoTick (Or.inl ⟨rfl, fun t ht => by omega⟩)
  | succ d ih =>
      rw [firstBelowFrom]
      refine round (d + 1) _ ?_
      simpa only [Nat.lt_succ_iff] using ih

/-- **`first_below` finds the nearest occupied tick below.** -/
theorem firstBelow_spec (h : LadderInv l) (bound : Int) :
    NearestBelow l.occ bound (l.firstBelow bound) := by
  unfold firstBelow
  by_cases hend : bound ≤ l.lo
  · rw [if_pos hend]
    exact Or.inl ⟨rfl, fun t ht hocc => by have := (occ_inBand hocc).1; omega⟩
  · rw [if_neg hend]
    dsimp only
    generalize hst : (if l.hi < bound then l.hi - 1 else bound - 1) = start
    have hlo : l.lo ≤ start ∧ start < l.hi := by
      have := h.band
      rw [← hst]
      split <;> omega
    have hbelow : ∀ t, l.occ t → (t < bound ↔ t ≤ start) := by
      intro t hocc
      have := (occ_inBand hocc).2
      rw [← hst]
      split <;> omega
    have hearlier : ∀ t, l.lo ≤ t → (t ≤ start ↔ l.dirIndex t ≤ l.dirIndex start
        ∧ (l.dirIndex t = l.dirIndex start → l.offsetOf t ≤ l.offsetOf start)) := by
      intro t ht
      have := l.place_lt_iff hlo.1 ht
      omega
    have hspec := firstBelowFrom_spec h (l.dirIndex start) (l.offsetOf_lt start) (l.dirIndex start)
    dsimp only at hspec
    rcases hspec with ⟨hr, hall⟩ | ⟨hocc, hl, hall⟩
    · refine Or.inl ⟨hr, fun t ht hocc => hall t ?_ hocc⟩
      exact (hearlier t (occ_inBand hocc).1).mp ((hbelow t hocc).mp ht)
    · have hin := occ_inBand hocc
      refine Or.inr ⟨?_, (hbelow _ hocc).mpr ((hearlier _ hin.1).mpr hl), hocc, fun t ht hlt hoc => ?_⟩
      · have := hin.2
        have := h.ceil
        omega
      · exact hall t ((hearlier t (occ_inBand hoc).1).mp ((hbelow t hoc).mp ht)) hlt hoc

/-- `for_each_level` visits exactly the occupied ticks. -/
theorem mem_levels (h : LadderInv l) {lv : Level} :
    (t, lv) ∈ l.levels ↔ l.occ t ∧ lv = l.levelAt t := by
  simp only [levels, List.mem_flatMap, List.mem_range]
  constructor
  · rintro ⟨d, _, hm⟩
    by_cases hd : l.dir d = kNoPage
    · rw [if_pos hd] at hm
      exact absurd hm (List.not_mem_nil)
    · rw [if_neg hd] at hm
      obtain ⟨o, ho, heq⟩ := List.mem_filterMap.mp hm
      rw [List.mem_range] at ho
      by_cases hq : ((l.pages (l.dir d)).levels o).qtyTotal ≠ 0
      · rw [if_pos hq] at heq
        simp only [Option.some.injEq, Prod.mk.injEq] at heq
        obtain ⟨ht, hlv⟩ := heq
        have hocc := occ_tickOf h hd ho hq
        rw [ht] at hocc
        refine ⟨hocc, ?_⟩
        have hdi := l.dirIndex_tickOf (d := d) ho
        have hof := l.offsetOf_tickOf (d := d) ho
        rw [ht] at hdi hof
        rw [levelAt_page (occ_inBand hocc) (by rw [hdi]; exact hd), hdi, hof, hlv]
      · rw [if_neg hq] at heq
        exact absurd heq (by simp)
  · rintro ⟨hocc, hlv⟩
    obtain ⟨hd, hq, hlo, hdl⟩ := occ_place hocc
    refine ⟨l.dirIndex t, hdl, ?_⟩
    rw [if_neg hd]
    refine List.mem_filterMap.mpr ⟨l.offsetOf t, List.mem_range.mpr (l.offsetOf_lt t), ?_⟩
    rw [if_pos hq, l.tickOf_place hlo, hlv, levelAt_page (occ_inBand hocc) hd]

end Scans

end PriceLadder

end Mog
