import Mathlib.Algebra.Order.BigOperators.Group.Finset
import Mog.Event.WheelChains

/-!
# Settling

When nothing is due now, `settle` moves the watermark to the near edge of the first
occupied bucket of the lowest occupied level. No event lies before that edge, every
event outside that bucket keeps its position, and the bucket's own events move to lower
levels. So each pass but the last two lowers the lowest occupied level, and settling
ends.
-/

namespace Mog

open LinkedChain WordScan DigitWheel

theorem getLsbD_maskLowBits {n i : Nat} (hi : i < 64) :
    (maskLowBits n).getLsbD i = decide (i < n) := by
  unfold maskLowBits
  by_cases hn : 64 ≤ n
  · rw [if_pos hn, BitVec.getLsbD_not, BitVec.getLsbD_zero, decide_eq_true hi,
      decide_eq_true (Nat.lt_of_lt_of_le hi hn)]
    rfl
  · rw [if_neg hn, getLsbD_low (Nat.lt_of_not_le hn)]

namespace TimingWheel

variable {α : Type} {w : TimingWheel α}

/-- Every pending event lies at its position, and not in the past. -/
def AllPlaced (w : TimingWheel α) : Prop :=
  ∀ i, (w.slots i).live = true →
    w.now ≤ (w.slots i).ts ∧ (w.slots i).ts < 2 ^ 64
      ∧ Placed 64 w.now (w.slots i).ts ((w.slots i).bucket / 64) ((w.slots i).bucket % 64)

/-- The invariant of the wheel. -/
structure WheelInv (w : TimingWheel α) : Prop where
  chained : ∃ L, Chained (fun i => (w.slots i).live = true) w L w.live
  placed : AllPlaced w

section

variable {P : Nat → Prop} {L : Nat → List Nat} {n : Nat}

theorem Chained.length_le (h : Chained P w L n) {x : Nat} (hx : x < bucketCount) :
    (L x).length ≤ n := by
  rw [← h.count]
  exact Finset.single_le_sum (f := fun y => (L y).length) (fun _ _ => Nat.zero_le _)
    (Finset.mem_range.mpr hx)

theorem Chained.iff {Q : Nat → Prop} (h : Chained P w L n) (hPQ : ∀ i, Q i ↔ P i) :
    Chained Q w L n := by
  have heq : Q = P := funext fun i => propext (hPQ i)
  rw [heq]
  exact h

/-- A bit is set exactly when an event is in its bucket. -/
theorem Chained.bit_iff (h : Chained P w L n) {x : Nat} (hx : x < bucketCount) :
    w.bitOf x = true ↔ ∃ i, P i ∧ (w.slots i).bucket = x := by
  rw [h.occupied x hx]
  constructor
  · intro hne
    obtain ⟨i, hi⟩ := List.exists_mem_of_ne_nil _ hne
    exact ⟨i, h.present hx hi⟩
  · rintro ⟨i, hi⟩
    exact List.ne_nil_of_mem ((h.mem i x hx).mpr hi)

/-- The chains do not depend on the watermark. -/
theorem Chained.moveNow (h : Chained P w L n) (t : Nat) :
    Chained P { w with now := t } L n :=
  ⟨h.chain, h.occupied, h.mem, h.range, h.sorted, h.count⟩

end

/-! ## Demoting a bucket -/

/-- A chain without its first cell starts where that cell points. -/
theorem chain_next {nxt prv nxt' prv' : Nat → Nat} {null head tail head' tail' a : Nat}
    {l : List Nat} (h : Chain nxt prv null head tail (a :: l))
    (h' : Chain nxt' prv' null head' tail' l) : nxt a = head' := by
  have hseg := h.seg.2.2
  cases l with
  | nil =>
      have h1 : nxt a = null := hseg
      rw [h1]
      exact (h'.head_eq_null.mpr rfl).symm
  | cons b l =>
      rw [h'.head_cons]
      exact hseg.1

theorem routeBucket_congr {w' : TimingWheel α} (h : w'.now = w.now) (ts : Nat) :
    w'.routeBucket ts = w.routeBucket ts := by
  unfold routeBucket
  rw [h]

/-- **Demoting a chain** routes each of its events anew. -/
theorem demoteChain_spec {P : Nat → Prop} {L : Nat → List Nat} {n x₀ : Nat} {l : List Nat}
    {fuel : Nat} (h : Chained P w L n) (hx₀ : x₀ < bucketCount) (hl : L x₀ = l)
    (hfuel : l.length ≤ fuel)
    (hroute : ∀ i ∈ l, w.routeBucket (w.slots i).ts < bucketCount
      ∧ w.routeBucket (w.slots i).ts ≠ x₀) :
    ∃ w' L', demoteChain fuel (w.headOf x₀) w = some w' ∧ Chained P w' L' n ∧ Rechained w w'
      ∧ (∀ i ∈ l, (w'.slots i).bucket = w.routeBucket (w.slots i).ts)
      ∧ ∀ i, i ∉ l → (w'.slots i).bucket = (w.slots i).bucket := by
  -- By induction on the chain: its head is detached and attached where its time routes it, which is
  -- never back into the bucket it comes from, so the rest of the chain is what remains there.
  induction l generalizing w L fuel with
  | nil =>
      have hhead : w.headOf x₀ = kNullIndex := (h.chain x₀ hx₀).head_eq_null.mpr hl
      have hstop : demoteChain fuel (w.headOf x₀) w = some w := by
        cases fuel with
        | zero => rw [demoteChain, if_pos hhead]
        | succ fuel => rw [demoteChain, if_pos hhead]
      exact ⟨w, L, hstop, h, Rechained.refl w, fun i hi => absurd hi List.not_mem_nil,
        fun _ _ => rfl⟩
  | cons a l ih =>
      cases fuel with
      | zero => exact absurd hfuel (Nat.not_succ_le_zero _)
      | succ fuel =>
          have hchain := h.chain x₀ hx₀
          rw [hl] at hchain
          have hain : a ∈ L x₀ := by
            rw [hl]
            exact List.mem_cons_self
          obtain ⟨hPa, hba⟩ := h.present hx₀ hain
          have hanull := (h.range a hPa).2
          obtain ⟨hrlt, hrne⟩ := hroute a List.mem_cons_self
          obtain ⟨hdet, hdb⟩ := h.detach hPa hba
          have hdre := detach_rechained w a
          have hrt : (w.detach a).routeBucket ((w.detach a).slots a).ts
              = w.routeBucket (w.slots a).ts := by
            rw [routeBucket_congr hdre.now, hdre.ts]
          obtain ⟨hatt, hare, hself, hab⟩ := hdet.attach (fun hc => hc.2 rfl) hanull hrt hrlt
          have hre := hdre.trans hare
          have hcount : n - 1 + 1 = n := by
            have hlen := h.length_le hx₀
            have hpos := List.length_pos_of_mem hain
            omega
          rw [hcount] at hatt
          have hP : ∀ i, P i ↔ (P i ∧ i ≠ a) ∨ i = a := by
            intro i
            by_cases hia : i = a
            · subst hia
              exact ⟨fun _ => Or.inr rfl, fun _ => hPa⟩
            · exact ⟨fun hi => Or.inl ⟨hi, hia⟩, fun hi => (hi.resolve_right hia).1⟩
          have hnew := hatt.iff hP
          have hL : Function.update (Function.update L x₀ ((L x₀).erase a))
              (w.routeBucket (w.slots a).ts)
              (Function.update L x₀ ((L x₀).erase a) (w.routeBucket (w.slots a).ts) ++ [a]) x₀
                = l := by
            rw [Function.update_of_ne (Ne.symm hrne), Function.update_self, hl,
              List.erase_cons_head]
          -- The pass has read the head's link before it moved the head.
          have hnext : (w.slots a).next = ((w.detach a).attach a).headOf x₀ := by
            have hc' := hnew.chain x₀ hx₀
            rw [hL] at hc'
            exact chain_next hchain hc'
          have hstep : demoteChain (fuel + 1) (w.headOf x₀) w
              = demoteChain fuel (((w.detach a).attach a).headOf x₀) ((w.detach a).attach a) := by
            have hhead : w.headOf x₀ = a := hchain.head_cons
            rw [hhead, demoteChain, if_neg hanull, hnext]
          have hroute' : ∀ i ∈ l, ((w.detach a).attach a).routeBucket
                (((w.detach a).attach a).slots i).ts = w.routeBucket (w.slots i).ts := by
            intro i _
            rw [routeBucket_congr hre.now, hre.ts]
          have hnd := (List.nodup_cons.mp hchain.nodup).1
          obtain ⟨w', L', hw', hL', hre', hin, hout⟩ := ih hnew hL (Nat.le_of_succ_le_succ hfuel)
            (fun i hi => by
              rw [hroute' i hi]
              exact hroute i (List.mem_cons_of_mem _ hi))
          rw [hstep]
          have hold : ∀ i, i ≠ a → (((w.detach a).attach a).slots i).bucket
              = (w.slots i).bucket := fun i hi => (hab i hi).trans (hdb i hi)
          refine ⟨w', L', hw', hL', hre.trans hre', fun i hi => ?_, fun i hi => ?_⟩
          · rcases List.mem_cons.mp hi with hia | hil
            · rw [hia, hout a hnd, hself]
            · rw [hin i hil, hroute' i hil]
          · have hia : i ≠ a := fun he => hi (he ▸ List.mem_cons_self)
            rw [hout i (fun hil => hi (List.mem_cons_of_mem _ hil)), hold i hia]

/-! ## Demoting all levels -/

/-- What `demote` does at one level. -/
def demoteStep (w : TimingWheel α) (li : Nat) : Option (TimingWheel α) :=
  demoteLevel li kBuckets ((w.levels li).occupied &&& maskLowBits (digit w.now li + 1)) w

theorem demote_eq (w : TimingWheel α) :
    w.demote = (List.range' 1 (kLevels - 1)).foldlM demoteStep w := rfl

theorem demoteLevel_zero (li fuel : Nat) (w : TimingWheel α) :
    demoteLevel li fuel 0#64 w = some w := by
  cases fuel with
  | zero => rw [demoteLevel, if_pos rfl]
  | succ fuel => rw [demoteLevel, if_pos rfl]

/-- A level whose buckets are all ahead of the watermark stays. -/
theorem demoteStep_idle {li : Nat}
    (h : ∀ b, b < 64 → (w.levels li).occupied.getLsbD b = true → digit w.now li < b) :
    w.demoteStep li = some w := by
  have hzero : (w.levels li).occupied &&& maskLowBits (digit w.now li + 1) = 0#64 := by
    refine BitVec.eq_of_getLsbD_eq fun b hb => ?_
    rw [BitVec.getLsbD_and, getLsbD_maskLowBits hb, BitVec.getLsbD_zero]
    by_cases hbit : (w.levels li).occupied.getLsbD b = true
    · have := h b hb hbit
      rw [decide_eq_false (by omega), Bool.and_false]
    · rw [Bool.not_eq_true _ |>.mp hbit, Bool.false_and]
  unfold demoteStep
  rw [hzero, demoteLevel_zero]

/-- A level whose first occupied bucket is the watermark's demotes that bucket. -/
theorem demoteStep_first {li j : Nat} (hj : j < 64) (hdigit : digit w.now li = j)
    (hbit : (w.levels li).occupied.getLsbD j = true)
    (hlow : ∀ b, b < j → (w.levels li).occupied.getLsbD b = false) :
    w.demoteStep li = demoteChain w.live ((w.levels li).head j) w := by
  have hone : (w.levels li).occupied &&& maskLowBits (digit w.now li + 1) = 1#64 <<< j := by
    refine BitVec.eq_of_getLsbD_eq fun b hb => ?_
    rw [BitVec.getLsbD_and, getLsbD_maskLowBits hb, getLsbD_bit hj, hdigit]
    rcases Nat.lt_trichotomy b j with hlt | heq | hgt
    · rw [hlow b hlt, Bool.false_and, decide_eq_false (Nat.ne_of_lt hlt)]
    · rw [heq, hbit, decide_eq_true (Nat.lt_succ_self j), decide_eq_true rfl, Bool.and_true]
    · rw [decide_eq_false (show ¬ b < j + 1 by omega), Bool.and_false,
        decide_eq_false (Nat.ne_of_gt hgt)]
  obtain ⟨hne, hcount⟩ := countrZero_single hj
  unfold demoteStep
  rw [hone]
  show demoteLevel li (63 + 1) (1#64 <<< j) w = _
  rw [demoteLevel, if_neg hne]
  dsimp only
  rw [clear_single hj, hcount]
  cases demoteChain w.live ((w.levels li).head j) w with
  | none => rfl
  | some w' => exact demoteLevel_zero li 63 w'

theorem foldlM_idle {β : Type} {f : β → Nat → Option β} {s : β} {l : List Nat}
    (h : ∀ x ∈ l, f s x = some s) : l.foldlM f s = some s := by
  induction l with
  | nil => rfl
  | cons x l ih =>
      rw [List.foldlM_cons, h x List.mem_cons_self]
      exact ih (fun y hy => h y (List.mem_cons_of_mem _ hy))

/-! ## The nearest bucket -/

/-- The occupied bucket of the least number: the first of the lowest occupied level. -/
structure Nearest (w : TimingWheel α) (x : Nat) : Prop where
  occupied : ∃ i, (w.slots i).live = true ∧ (w.slots i).bucket = x
  least : ∀ i, (w.slots i).live = true → x ≤ (w.slots i).bucket

theorem WheelInv.bucket_lt (h : WheelInv w) {i : Nat} (hi : (w.slots i).live = true) :
    (w.slots i).bucket < bucketCount := by
  obtain ⟨L, hL⟩ := h.chained
  exact (hL.range i hi).1

theorem WheelInv.live_pos (h : WheelInv w) {i : Nat} (hi : (w.slots i).live = true) :
    0 < w.live := by
  obtain ⟨L, hL⟩ := h.chained
  obtain ⟨hlt, _⟩ := hL.range i hi
  have hmem := (hL.mem i _ hlt).mpr ⟨hi, rfl⟩
  exact Nat.lt_of_lt_of_le (List.length_pos_of_mem hmem) (hL.length_le hlt)

theorem WheelInv.exists_live (h : WheelInv w) (hpos : 0 < w.live) :
    ∃ i, (w.slots i).live = true := by
  obtain ⟨L, hL⟩ := h.chained
  by_contra hnone
  push Not at hnone
  have hzero : ∑ x ∈ Finset.range bucketCount, (L x).length = 0 := by
    refine Finset.sum_eq_zero fun x hx => ?_
    rw [List.length_eq_zero_iff, List.eq_nil_iff_forall_not_mem]
    intro i hi
    exact hnone i (hL.present (Finset.mem_range.mp hx) hi).1
  rw [hL.count] at hzero
  omega

theorem WheelInv.exists_nearest (h : WheelInv w) (hpos : 0 < w.live) : ∃ x, Nearest w x := by
  classical
  obtain ⟨i, hi⟩ := h.exists_live hpos
  have hex : ∃ x, ∃ i, (w.slots i).live = true ∧ (w.slots i).bucket = x := ⟨_, i, hi, rfl⟩
  exact ⟨Nat.find hex, Nat.find_spec hex, fun j hj => Nat.find_min' hex ⟨j, hj, rfl⟩⟩

/-- The bits of a level are those of its buckets. -/
theorem WheelInv.bit_iff (h : WheelInv w) {li b : Nat} (hli : li < kLevels) (hb : b < 64) :
    (w.levels li).occupied.getLsbD b = true
      ↔ ∃ i, (w.slots i).live = true ∧ (w.slots i).bucket = li * 64 + b := by
  obtain ⟨L, hL⟩ := h.chained
  unfold kLevels at hli
  have hx : li * 64 + b < bucketCount := by
    unfold bucketCount
    omega
  have hbit := hL.bit_iff hx
  unfold bitOf at hbit
  rw [show (li * 64 + b) / 64 = li by omega, show (li * 64 + b) % 64 = b by omega] at hbit
  exact hbit

/-- No event lies in a bucket before the watermark's. -/
theorem WheelInv.slot0_le (h : WheelInv w) {i : Nat} (hi : (w.slots i).live = true) :
    digit w.now 0 ≤ (w.slots i).bucket := by
  obtain ⟨hle, _, hplaced⟩ := h.placed i hi
  have hd := digit_lt w.now 0
  by_cases hli : (w.slots i).bucket / 64 = 0
  · rw [hli] at hplaced
    have habove := hplaced.above
    have hown := hplaced.own
    rw [Nat.zero_add, Nat.pow_one] at habove
    rw [Nat.pow_zero, Nat.div_one] at hown
    rw [digit_eq, Nat.pow_zero, Nat.div_one]
    omega
  · omega

section

variable {x : Nat}

theorem Nearest.slot_lt (x : Nat) : x % 64 < 64 := Nat.mod_lt x (Nat.zero_lt_succ 63)

theorem Nearest.lt (hx : Nearest w x) (h : WheelInv w) : x < bucketCount := by
  obtain ⟨i, hi, rfl⟩ := hx.occupied
  exact h.bucket_lt hi

/-- The bits at and before the nearest bucket. -/
theorem Nearest.bits (hx : Nearest w x) (h : WheelInv w) :
    (w.levels (x / 64)).occupied.getLsbD (x % 64) = true
      ∧ (∀ b, b < x % 64 → (w.levels (x / 64)).occupied.getLsbD b = false)
      ∧ ∀ li, li < x / 64 → (w.levels li).occupied = 0#64 := by
  have hlt := hx.lt h
  unfold bucketCount at hlt
  have hslot := Nearest.slot_lt x
  refine ⟨?_, fun b hb => ?_, fun li hli => ?_⟩
  · obtain ⟨i, hi, hbx⟩ := hx.occupied
    refine (h.bit_iff (by unfold kLevels; omega) hslot).mpr ⟨i, hi, ?_⟩
    omega
  · rw [Bool.eq_false_iff]
    intro hbit
    obtain ⟨i, hi, hbi⟩ := (h.bit_iff (by unfold kLevels; omega) (by omega)).mp hbit
    have := hx.least i hi
    omega
  · by_contra hne
    obtain ⟨b, hb, hbit⟩ := ne_zero_iff.mp hne
    obtain ⟨i, hi, hbi⟩ := (h.bit_iff (by unfold kLevels; omega) hb).mp hbit
    have := hx.least i hi
    omega

/-- The near edge of the nearest bucket. -/
def edgeOf (w : TimingWheel α) (x : Nat) : Nat := edge 64 w.now (x / 64) (x % 64)

/-- **Nothing is due before the nearest bucket's edge**, and at that edge every other event has
kept its position. -/
theorem Nearest.advance (hx : Nearest w x) (h : WheelInv w) {i : Nat}
    (hi : (w.slots i).live = true) :
    w.edgeOf x ≤ (w.slots i).ts ∧ (w.slots i).ts < 2 ^ 64
      ∧ (x / 64 = 0 ∨ (w.slots i).bucket ≠ x →
        Placed 64 (w.edgeOf x) (w.slots i).ts ((w.slots i).bucket / 64)
          ((w.slots i).bucket % 64)) := by
  obtain ⟨hle, hts, hplaced⟩ := h.placed i hi
  have hj := Nearest.slot_lt x
  have hleast := hx.least i hi
  unfold edgeOf
  by_cases hlevel : x / 64 < (w.slots i).bucket / 64
  · exact ⟨Nat.le_of_lt (hplaced.edge_lt hlevel hj), hts, fun _ => hplaced.move_edge hlevel hj⟩
  · have hsame : (w.slots i).bucket / 64 = x / 64 := by omega
    rw [hsame] at hplaced ⊢
    refine ⟨hplaced.edge_le hj (by omega), hts, fun hother => ?_⟩
    by_cases hzero : x / 64 = 0
    · exact hplaced.move (edge_above hj) fun hpos => absurd hzero (Nat.ne_of_gt hpos)
    · exact hplaced.move_edge_same hj (by have := hother.resolve_left hzero; omega)

/-- The watermark does not move back. -/
theorem Nearest.now_le (hx : Nearest w x) (h : WheelInv w) : w.now ≤ w.edgeOf x := by
  have hj := Nearest.slot_lt x
  obtain ⟨i, hi, hbx⟩ := hx.occupied
  unfold edgeOf
  by_cases hzero : x / 64 = 0
  · have hslot := h.slot0_le hi
    rw [digit_eq, Nat.pow_zero, Nat.div_one] at hslot
    rw [hzero]
    unfold edge
    rw [Nat.zero_add, Nat.pow_one, Nat.pow_zero, Nat.mul_one]
    omega
  · have hplaced := (h.placed i hi).2.2
    rw [hbx] at hplaced
    exact Nat.le_of_lt (now_lt_edge hj (hplaced.ahead (Nat.pos_of_ne_zero hzero)))

/-! ## One pass -/

/-- The wheel with the watermark at the edge of bucket `x`. -/
def atEdge (w : TimingWheel α) (x : Nat) : TimingWheel α := { w with now := w.edgeOf x }

/-- **Within the window** of level 0 the watermark moves and nothing else does. -/
theorem Nearest.window (hx : Nearest w x) (h : WheelInv w) (hlevel : x / 64 = 0) :
    WheelInv (w.atEdge x) := by
  obtain ⟨L, hL⟩ := h.chained
  refine ⟨⟨L, hL.moveNow _⟩, fun i hi => ?_⟩
  obtain ⟨hle, hts, hplaced⟩ := hx.advance h hi
  exact ⟨hle, hts, hplaced (Or.inl hlevel)⟩

/-- What `demote` leaves alone at the edge of the nearest bucket: the levels below it, and
those above it. -/
theorem demote_split {w' : TimingWheel α} {li : Nat} (hpos : 0 < li) (hli : li < kLevels)
    (hbelow : ∀ m, m < li → w.demoteStep m = some w) (hstep : w.demoteStep li = some w')
    (habove : ∀ m, li < m → m < kLevels → w'.demoteStep m = some w') : w.demote = some w' := by
  unfold kLevels at hli habove
  have hsplit : List.range' 1 (kLevels - 1)
      = List.range' 1 (li - 1) ++ li :: List.range' (li + 1) (10 - li) := by
    have htail : li :: List.range' (li + 1) (10 - li) = List.range' (1 + (li - 1)) (11 - li) := by
      rw [show 1 + (li - 1) = li by omega, show 11 - li = (10 - li) + 1 by omega,
        List.range'_succ]
    rw [htail, List.range'_append_1]
    unfold kLevels
    congr 1
    omega
  have hfirst : (List.range' 1 (li - 1)).foldlM demoteStep w = some w := by
    refine foldlM_idle fun m hm => hbelow m ?_
    have := List.mem_range'_1.mp hm
    omega
  have hlast : (List.range' (li + 1) (10 - li)).foldlM demoteStep w' = some w' := by
    refine foldlM_idle fun m hm => ?_
    have := List.mem_range'_1.mp hm
    exact habove m (by omega) (by omega)
  rw [demote_eq, hsplit, List.foldlM_append, hfirst]
  show (List.foldlM demoteStep w (li :: _)) = some w'
  rw [List.foldlM_cons, hstep]
  exact hlast

/-- At a coarse edge the events of the nearest bucket are routed to lower levels. -/
theorem Nearest.route (hx : Nearest w x) (h : WheelInv w) (hlevel : 0 < x / 64) {i : Nat}
    (hi : (w.slots i).live = true) (hb : (w.slots i).bucket = x) :
    (w.atEdge x).routeBucket (w.slots i).ts < bucketCount
      ∧ Placed 64 (w.edgeOf x) (w.slots i).ts ((w.atEdge x).routeBucket (w.slots i).ts / 64)
          ((w.atEdge x).routeBucket (w.slots i).ts % 64)
      ∧ (w.atEdge x).routeBucket (w.slots i).ts / 64 < x / 64 := by
  obtain ⟨hle, hts, _⟩ := hx.advance h hi
  have hedge : (w.atEdge x).now ≤ (w.slots i).ts := hle
  obtain ⟨hlt, hplaced⟩ := routeBucket_spec hedge hts
  have hold := (h.placed i hi).2.2
  rw [hb] at hold
  exact ⟨hlt, hplaced, hold.demoted (Nearest.slot_lt x) hplaced hlevel⟩

/-- **The nearest bucket's chain** leaves it for lower levels, and no other event moves. -/
theorem Nearest.rechain (hx : Nearest w x) (h : WheelInv w) (hlevel : 0 < x / 64) :
    ∃ w', demoteChain w.live (w.headOf x) (w.atEdge x) = some w' ∧ WheelInv w'
      ∧ Rechained (w.atEdge x) w'
      ∧ ∃ i, (w'.slots i).live = true ∧ (w'.slots i).bucket / 64 < x / 64 := by
  obtain ⟨L, hL⟩ := h.chained
  have hlt := hx.lt h
  have hmem : ∀ i, i ∈ L x ↔ (w.slots i).live = true ∧ (w.slots i).bucket = x := fun i =>
    hL.mem i x hlt
  have hroute : ∀ i ∈ L x, _ := fun i hi => hx.route h hlevel ((hmem i).mp hi).1 ((hmem i).mp hi).2
  have hL₁ : Chained (fun i => (w.slots i).live = true) (w.atEdge x) L w.live := hL.moveNow _
  obtain ⟨w', L', hw', hL', hre, hin, hout⟩ := demoteChain_spec hL₁ hlt rfl (hL.length_le hlt)
    (fun i hi => by
      obtain ⟨hrlt, _, hdown⟩ := hroute i hi
      refine ⟨hrlt, fun he => ?_⟩
      rw [show (w.atEdge x).routeBucket (w.slots i).ts = x from he] at hdown
      exact Nat.lt_irrefl _ hdown)
  have hlive : ∀ i, (w'.slots i).live = (w.slots i).live := hre.slotLive
  have hts : ∀ i, (w'.slots i).ts = (w.slots i).ts := hre.ts
  have hnow : w'.now = w.edgeOf x := hre.now
  refine ⟨w', hw', ⟨⟨L', ?_⟩, fun i hi => ?_⟩, hre, ?_⟩
  · rw [show w'.live = w.live from hre.live]
    exact hL'.iff fun i => by rw [hlive]
  · rw [hlive] at hi
    obtain ⟨hle, hmax, hkeep⟩ := hx.advance h hi
    rw [hnow, hts]
    refine ⟨hle, hmax, ?_⟩
    by_cases hix : i ∈ L x
    · rw [hin i hix]
      exact (hroute i hix).2.1
    · rw [hout i hix]
      exact hkeep (Or.inr fun hbx => hix ((hmem i).mpr ⟨hi, hbx⟩))
  · obtain ⟨i, hi, hbx⟩ := hx.occupied
    have hix := (hmem i).mpr ⟨hi, hbx⟩
    refine ⟨i, by rw [hlive]; exact hi, ?_⟩
    rw [hin i hix]
    exact (hroute i hix).2.2

/-- **At a coarse edge** `demote` empties the nearest bucket and ends. -/
theorem Nearest.demote (hx : Nearest w x) (h : WheelInv w) (hlevel : 0 < x / 64) :
    ∃ w', (w.atEdge x).demote = some w' ∧ WheelInv w' ∧ Rechained (w.atEdge x) w'
      ∧ ∃ y, Nearest w' y ∧ y / 64 < x / 64 := by
  have hlt := hx.lt h
  have hj := Nearest.slot_lt x
  have hlevels : x / 64 < kLevels := by
    unfold bucketCount at hlt
    unfold kLevels
    omega
  obtain ⟨hbit, hlow, hbelow⟩ := hx.bits h
  obtain ⟨w', hw', hinv, hre, i, hi, hdown⟩ := hx.rechain h hlevel
  have hdigit : digit (w.atEdge x).now (x / 64) = x % 64 := by
    rw [digit_eq]
    exact edge_digit hj
  have hstep : (w.atEdge x).demoteStep (x / 64) = some w' := by
    rw [← hw']
    exact demoteStep_first hj hdigit hbit hlow
  have hdemote : (w.atEdge x).demote = some w' := by
    refine demote_split hlevel hlevels (fun m hm => demoteStep_idle fun b hb hset => ?_) hstep
      (fun m hm hmlt => demoteStep_idle fun b hb hset => ?_)
    · have hzero : ((w.atEdge x).levels m).occupied = 0#64 := hbelow m hm
      rw [hzero, BitVec.getLsbD_zero] at hset
      exact Bool.noConfusion hset
    · -- the buckets of a higher level are ahead of the watermark
      obtain ⟨k, hk, hbk⟩ := (hinv.bit_iff hmlt hb).mp hset
      have hp := (hinv.placed k hk).2.2
      rw [hbk, show (m * 64 + b) / 64 = m by omega, show (m * 64 + b) % 64 = b by omega] at hp
      rw [digit_eq]
      exact hp.ahead (by omega)
  obtain ⟨y, hy⟩ := hinv.exists_nearest (hinv.live_pos hi)
  refine ⟨w', hdemote, hinv, hre, y, hy, ?_⟩
  have hle := hy.least i hi
  omega

/-- A minimum over the members of a list that a test lets through. -/
theorem foldl_min_eq {skip : Nat → Prop} [DecidablePred skip] {f : Nat → Nat} {l : List Nat}
    {e top : Nat} (hle : ∀ k ∈ l, ¬ skip k → e ≤ f k) (htop : e ≤ top)
    (hmem : top = e ∨ ∃ k ∈ l, ¬ skip k ∧ f k = e) :
    l.foldl (fun best k => if skip k then best else min best (f k)) top = e := by
  induction l generalizing top with
  | nil =>
      rcases hmem with heq | ⟨k, hk, _⟩
      · exact heq
      · exact absurd hk List.not_mem_nil
  | cons k l ih =>
      rw [List.foldl_cons]
      have hrest : ∀ m ∈ l, ¬ skip m → e ≤ f m := fun m hm => hle m (List.mem_cons_of_mem _ hm)
      by_cases hskip : skip k
      · rw [if_pos hskip]
        refine ih hrest htop (hmem.imp_right ?_)
        rintro ⟨m, hm, hgood, heq⟩
        rcases List.mem_cons.mp hm with hmk | hm
        · exact absurd (hmk ▸ hskip) hgood
        · exact ⟨m, hm, hgood, heq⟩
      · rw [if_neg hskip]
        have hk := hle k List.mem_cons_self hskip
        refine ih hrest (Nat.le_min.mpr ⟨htop, hk⟩) ?_
        rcases hmem with heq | ⟨m, hm, hgood, heq⟩
        · exact Or.inl (by omega)
        · rcases List.mem_cons.mp hm with hmk | hm
          · rw [hmk] at heq
            exact Or.inl (by omega)
          · exact Or.inr ⟨m, hm, hgood, heq⟩

theorem bound_eq (w : TimingWheel α) (li : Nat) :
    w.bound li = edge 64 w.now li (countrZero (w.levels li).occupied) := by
  have hpow : ∀ m, 2 ^ (6 * m) = 64 ^ m := fun m => by rw [Nat.pow_mul]
  unfold bound edge
  rw [hpow, hpow]

/-- **The nearest boundary** is the edge of the nearest bucket. -/
theorem Nearest.nearest (hx : Nearest w x) (h : WheelInv w) (hlevel : 0 < x / 64) :
    w.nearest = w.edgeOf x ∧ w.edgeOf x ≠ 2 ^ 64 - 1 := by
  have hlt := hx.lt h
  unfold bucketCount at hlt
  have hj := Nearest.slot_lt x
  obtain ⟨hbit, hlow, hbelow⟩ := hx.bits h
  obtain ⟨hne, hcount⟩ := countrZero_eq hj hbit hlow
  obtain ⟨i, hi, hbx⟩ := hx.occupied
  obtain ⟨hle, hts, _⟩ := hx.advance h hi
  constructor
  · refine foldl_min_eq (fun k hk hskip => ?_) (by omega) (Or.inr ⟨x / 64, ?_, hne, ?_⟩)
    · have hk' := List.mem_range'_1.mp hk
      unfold kLevels at hk'
      rw [bound_eq]
      rcases Nat.lt_trichotomy k (x / 64) with hlt' | heq | hgt
      · exact absurd (hbelow k hlt') hskip
      · rw [heq, hcount]
        exact Nat.le_refl _
      · -- the edge of a higher level is itself a timestamp of that level
        obtain ⟨hc, hset, _⟩ := countrZero_spec hskip
        obtain ⟨j, hlive, hbj⟩ := (h.bit_iff (by unfold kLevels; omega) hc).mp hset
        have hp := (h.placed j hlive).2.2
        rw [hbj] at hp
        rw [show (k * 64 + countrZero (w.levels k).occupied) / 64 = k by omega,
          show (k * 64 + countrZero (w.levels k).occupied) % 64
            = countrZero (w.levels k).occupied by omega] at hp
        have hedge : Placed 64 w.now (edge 64 w.now k (countrZero (w.levels k).occupied)) k
            (countrZero (w.levels k).occupied) := ⟨edge_above hc, edge_digit hc, hp.ahead⟩
        exact Nat.le_of_lt (hedge.edge_lt hgt hj)
    · rw [List.mem_range'_1]
      unfold kLevels
      omega
    · rw [bound_eq, hcount]
      rfl
  · have hmod : w.edgeOf x % 64 ^ (x / 64) = 0 := (edge_div hj).2
    obtain ⟨m, hm⟩ := Nat.exists_eq_succ_of_ne_zero (Nat.ne_of_gt hlevel)
    rw [hm, Nat.pow_succ, Nat.mul_comm] at hmod
    have hdvd := Nat.dvd_of_mod_eq_zero hmod
    have hsixty := Nat.mod_eq_zero_of_dvd (Nat.dvd_trans (Nat.dvd_mul_right 64 _) hdvd)
    omega

/-! ## The loop -/

/-- The occupied slots after the watermark's, when the nearest bucket is after it. -/
theorem Nearest.later (hx : Nearest w x) (h : WheelInv w) (hafter : digit w.now 0 < x) :
    (x / 64 = 0 → (w.levels 0).occupied &&& ~~~ maskLowBits (digit w.now 0 + 1) ≠ 0#64
        ∧ countrZero ((w.levels 0).occupied &&& ~~~ maskLowBits (digit w.now 0 + 1)) = x)
      ∧ (0 < x / 64 → (w.levels 0).occupied &&& ~~~ maskLowBits (digit w.now 0 + 1) = 0#64) := by
  obtain ⟨hbit, hlow, hbelow⟩ := hx.bits h
  have hget : ∀ b, b < 64 →
      ((w.levels 0).occupied &&& ~~~ maskLowBits (digit w.now 0 + 1)).getLsbD b
        = ((w.levels 0).occupied.getLsbD b && !decide (b < digit w.now 0 + 1)) := by
    intro b hb
    rw [BitVec.getLsbD_and, BitVec.getLsbD_not, getLsbD_maskLowBits hb, decide_eq_true hb,
      Bool.true_and]
  constructor
  · intro hzero
    have hmod : x % 64 = x := by omega
    rw [hzero, hmod] at hbit hlow
    refine countrZero_eq (by omega) ?_ fun b hb => ?_
    · rw [hget x (by omega), hbit, decide_eq_false (by omega)]
      rfl
    · rw [hget b (by omega), hlow b hb, Bool.false_and]
  · intro hpos
    rw [hbelow 0 hpos]
    exact BitVec.zero_and

/-- **Settling ends** with the nearest bucket at the watermark: the passes before the last two
each lower its level. -/
theorem settleLoop_spec {n fuel : Nat} (h : WheelInv w) (hx : Nearest w x) (hn : x / 64 ≤ n)
    (hfuel : n + 2 ≤ fuel) : ∃ w', settleLoop fuel w = some w' ∧ WheelInv w'
      ∧ w'.table = w.table ∧ w.now ≤ w'.now ∧ Nearest w' (digit w'.now 0) := by
  induction fuel generalizing w x n with
  | zero => exact absurd hfuel (by omega)
  | succ fuel ih =>
      obtain ⟨i, hi, hbx⟩ := hx.occupied
      have hlive : w.live ≠ 0 := Nat.ne_of_gt (h.live_pos hi)
      have hd := digit_lt w.now 0
      have hslot := h.slot0_le hi
      rw [hbx] at hslot
      rw [settleLoop, if_neg hlive]
      dsimp only
      by_cases hdue : (w.levels 0).occupied.getLsbD (digit w.now 0) = true
      -- Something is due at the watermark: the nearest bucket is the one there.
      · rw [if_pos hdue]
        obtain ⟨j, hj, hbj⟩ := (h.bit_iff (Nat.zero_lt_succ 10) hd).mp hdue
        have hleast := hx.least j hj
        have heq : x = digit w.now 0 := by omega
        exact ⟨w, rfl, h, rfl, Nat.le_refl _, heq ▸ hx⟩
      · rw [if_neg hdue]
        have hafter : digit w.now 0 < x := by
          refine Nat.lt_of_le_of_ne hslot fun heq => hdue ?_
          exact (h.bit_iff (Nat.zero_lt_succ 10) hd).mpr ⟨i, hi, by omega⟩
        obtain ⟨hwindow, hcoarse⟩ := hx.later h hafter
        -- The nearest bucket lies ahead. On the lowest level the watermark moves straight to it; on
        -- a coarser one it moves to the bucket's edge, and the bucket's events are routed anew.
        by_cases hlevel : x / 64 = 0
        · obtain ⟨hne, hcount⟩ := hwindow hlevel
          have hmod : x % 64 = x := by omega
          have hedge : w.now - w.now % 64 + x = w.edgeOf x := by
            unfold edgeOf edge
            rw [hlevel, hmod, Nat.zero_add, Nat.pow_one, Nat.pow_zero, Nat.mul_one]
          rw [if_pos hne, hcount, hedge]
          have hinv := hx.window h hlevel
          have hslot0 : digit (w.edgeOf x) 0 = x := by
            have hdig : w.edgeOf x / 64 ^ (x / 64) % 64 = x % 64 := edge_digit (Nearest.slot_lt x)
            rw [hlevel, hmod] at hdig
            rw [digit_eq]
            exact hdig
          have hset : (w.levels 0).occupied.getLsbD (digit (w.edgeOf x) 0) = true := by
            rw [hslot0]
            exact (h.bit_iff (Nat.zero_lt_succ 10) (by omega)).mpr ⟨i, hi, by omega⟩
          cases fuel with
          | zero => exact absurd hfuel (by omega)
          | succ fuel =>
              rw [settleLoop, if_neg hlive, if_pos hset]
              refine ⟨_, rfl, hinv, rfl, hx.now_le h, ?_⟩
              rw [hslot0]
              exact ⟨hx.occupied, hx.least⟩
        · have hpos := Nat.pos_of_ne_zero hlevel
          obtain ⟨hbest, hmax⟩ := hx.nearest h hpos
          rw [if_neg (not_not.mpr (hcoarse hpos)), hbest, if_neg hmax]
          obtain ⟨w₂, hdemote, hinv, hre, y, hy, hlower⟩ := hx.demote h hpos
          rw [show ({ w with now := w.edgeOf x } : TimingWheel α).demote = some w₂ from hdemote]
          obtain ⟨w', hw', hinv', htable, hnow, hnear⟩ :=
            ih hinv hy (show y / 64 ≤ n - 1 by omega) (by omega)
          refine ⟨w', hw', hinv', ?_, ?_, hnear⟩
          · rw [htable, hre.table]
            rfl
          · have hmove : w.now ≤ w.edgeOf x := hx.now_le h
            have hsame := hre.now
            rw [hsame] at hnow
            exact Nat.le_trans hmove hnow

/-- **`settle` ends** within its passes, and the earliest events are then due. -/
theorem settle_spec (h : WheelInv w) (hpos : 0 < w.live) :
    settleLoop settleFuel w = some w.settle ∧ WheelInv w.settle ∧ w.settle.table = w.table
      ∧ w.now ≤ w.settle.now ∧ Nearest w.settle (digit w.settle.now 0) := by
  obtain ⟨x, hx⟩ := h.exists_nearest hpos
  have hlt := hx.lt h
  unfold bucketCount at hlt
  have hfuel : 10 + 2 ≤ settleFuel := Nat.le_refl _
  obtain ⟨w', hw', hrest⟩ := settleLoop_spec h hx (by omega) hfuel
  have hsettle : w.settle = w' := by
    unfold settle
    rw [hw']
    rfl
  rw [hsettle]
  exact ⟨hw', hrest⟩

/-- An empty wheel settles at once. -/
theorem settle_empty (hempty : w.live = 0) : settleLoop settleFuel w = some w := by
  show settleLoop (11 + 1) w = some w
  rw [settleLoop, if_pos hempty]

end

end TimingWheel

end Mog
