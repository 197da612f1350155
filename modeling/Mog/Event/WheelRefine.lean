import Mog.Event.Heap
import Mog.Event.WheelSettle

/-!
# The wheel's calls

Every call of the wheel changes its slot table as the table's own operation does, and
after settling the first event of the current tick is the least recorded one. The
invariant is all that the audit checks.

The wheel keeps more than the table shows: the watermark, the levels with their bits, and the
sorted flag of a bucket. Of these the table operations say nothing, so each call has two parts,
its effect on the table and the wheel's own invariant afterwards. An event is placed where its
timestamp routes it, never below the watermark.
-/

namespace Mog

open LinkedChain WordScan DigitWheel TicketQueue

namespace TimingWheel

variable {α : Type} {w : TimingWheel α}

theorem record_of_live {i : Nat} (hi : (w.slots i).live = true) :
    w.table.record i = some (w.recordOf i) := if_pos hi

theorem live_of_record {i : Nat} {r : SlotRecord α} (h : w.table.record i = some r) :
    (w.slots i).live = true ∧ r = w.recordOf i := by
  have hi : (if (w.slots i).live then some (w.recordOf i) else none) = some r := h
  by_cases hlive : (w.slots i).live = true
  · rw [if_pos hlive, Option.some_inj] at hi
    exact ⟨hlive, hi.symm⟩
  · rw [if_neg hlive] at hi
    cases hi

theorem live_of_record_none {i : Nat} (h : w.table.record i = none) : (w.slots i).live = false := by
  have hi : (if (w.slots i).live then some (w.recordOf i) else none) = none := h
  by_cases hlive : (w.slots i).live = true
  · rw [if_pos hlive] at hi
    cases hi
  · exact Bool.not_eq_true _ |>.mp hlive

theorem record_isSome (i : Nat) : (w.table.record i).isSome = (w.slots i).live := by
  show (if (w.slots i).live then some (w.recordOf i) else none).isSome = _
  cases (w.slots i).live <;> rfl

/-! ## The front of the tick -/

/-- **The scan** finds the least sequence number of what it has and what it meets. -/
theorem scanFront_spec {prv : Nat → Nat} {p it best fuel : Nat} {l : List Nat}
    (h : Seg (fun i => (w.slots i).next) prv p it kNullIndex l) (hnull : kNullIndex ∉ l)
    (hfuel : l.length ≤ fuel) :
    w.scanFront fuel it best ∈ best :: l
      ∧ ∀ i ∈ best :: l, (w.slots (w.scanFront fuel it best)).seq ≤ (w.slots i).seq := by
  induction l generalizing p it best fuel with
  | nil =>
      have hit : it = kNullIndex := h
      have hstop : w.scanFront fuel it best = best := by
        cases fuel with
        | zero => rfl
        | succ fuel => rw [scanFront, if_pos hit]
      rw [hstop]
      refine ⟨List.mem_cons_self, fun i hi => ?_⟩
      rw [List.mem_singleton.mp hi]
  | cons a l ih =>
      obtain ⟨hit, _, hrest⟩ := h
      subst hit
      cases fuel with
      | zero => exact absurd hfuel (Nat.not_succ_le_zero _)
      | succ fuel =>
          have hne : it ≠ kNullIndex := fun he => hnull (he ▸ List.mem_cons_self)
          rw [scanFront, if_neg hne]
          have hstep := fun best' => @ih _ _ best' _ hrest
            (fun hm => hnull (List.mem_cons_of_mem _ hm)) (Nat.le_of_succ_le_succ hfuel)
          obtain ⟨hmem, hmin⟩ :=
            hstep (if (w.slots it).seq < (w.slots best).seq then it else best)
          generalize w.scanFront fuel (w.slots it).next
            (if (w.slots it).seq < (w.slots best).seq then it else best) = front at *
          by_cases hless : (w.slots it).seq < (w.slots best).seq
          · rw [if_pos hless] at hmem hmin
            refine ⟨List.mem_cons_of_mem _ hmem, fun i hi => ?_⟩
            rcases List.mem_cons.mp hi with hib | hi
            · have := hmin it List.mem_cons_self
              rw [hib]
              omega
            · exact hmin i hi
          · rw [if_neg hless] at hmem hmin
            have hbest := hmin best List.mem_cons_self
            refine ⟨?_, fun i hi => ?_⟩
            · rcases List.mem_cons.mp hmem with hf | hf
              · exact hf ▸ List.mem_cons_self
              · exact List.mem_cons_of_mem _ (List.mem_cons_of_mem _ hf)
            · rcases List.mem_cons.mp hi with hib | hi
              · exact hib ▸ hbest
              · rcases List.mem_cons.mp hi with hit | hi
                · rw [hit]
                  omega
                · exact hmin i (List.mem_cons_of_mem _ hi)

/-- **The front of the tick** is the least of its bucket. -/
theorem frontOfTick_spec {P : Nat → Prop} {L : Nat → List Nat} {n : Nat} (h : Chained P w L n)
    (hlen : n ≤ w.live) (hne : L (digit w.now 0) ≠ []) :
    w.frontOfTick ∈ L (digit w.now 0)
      ∧ ∀ i ∈ L (digit w.now 0), (w.slots w.frontOfTick).seq ≤ (w.slots i).seq := by
  have hd := digit_lt w.now 0
  have hlt : digit w.now 0 < bucketCount := Nat.lt_trans hd (by unfold bucketCount; omega)
  have hchain := h.chain _ hlt
  have hsorted := h.sorted _ hd
  have hlength := Nat.le_trans (h.length_le hlt) hlen
  have hhead : w.headOf (digit w.now 0) = (w.levels 0).head (digit w.now 0) := by
    unfold headOf
    rw [Nat.div_eq_of_lt hd, Nat.mod_eq_of_lt hd]
  unfold frontOfTick
  dsimp only
  rw [← hhead]
  generalize digit w.now 0 = x at *
  cases hl : L x with
  | nil => exact absurd hl hne
  | cons a l =>
      rw [hl] at hchain hsorted hlength
      rw [hchain.head_cons]
      by_cases hflag : (w.levels 0).bucketSorted x = true
      · rw [if_pos hflag]
        refine ⟨List.mem_cons_self, fun i hi => ?_⟩
        rcases List.mem_cons.mp hi with hia | hi
        · exact hia ▸ Nat.le_refl _
        · exact Nat.le_of_lt (List.rel_of_pairwise_cons (hsorted hflag).1 hi)
      · rw [if_neg hflag]
        exact scanFront_spec hchain.seg.2.2 (fun hm => hchain.ne_null (List.mem_cons_of_mem _ hm))
          (Nat.le_of_lt hlength)

/-- **After settling** the front of the tick is the least recorded event, and due now. -/
theorem front_least (h : WheelInv w) (hx : Nearest w (digit w.now 0)) :
    (w.slots w.frontOfTick).live = true ∧ (w.slots w.frontOfTick).ts = w.now
      ∧ w.table.Least w.frontOfTick (w.recordOf w.frontOfTick) := by
  obtain ⟨L, hL⟩ := h.chained
  have hd := digit_lt w.now 0
  have hlt : digit w.now 0 < bucketCount := Nat.lt_trans hd (by unfold bucketCount; omega)
  obtain ⟨k, hk, hbk⟩ := hx.occupied
  have hkmem := (hL.mem k _ hlt).mpr ⟨hk, hbk⟩
  obtain ⟨hmem, hmin⟩ := frontOfTick_spec hL (Nat.le_refl _) (List.ne_nil_of_mem hkmem)
  obtain ⟨hlive, hbucket⟩ := hL.present hlt hmem
  have hdigit : digit w.now 0 = w.now % 64 := by rw [digit_eq, Nat.pow_zero, Nat.div_one]
  have hts : (w.slots w.frontOfTick).ts = w.now := by
    have hp := (h.placed _ hlive).2.2
    rw [hbucket, Nat.div_eq_of_lt hd, Nat.mod_eq_of_lt hd] at hp
    exact (hp.eq_of_zero rfl hdigit.symm).symm
  refine ⟨hlive, hts, record_of_live hlive, fun j r' hj => ?_⟩
  obtain ⟨hlivej, rfl⟩ := live_of_record hj
  obtain ⟨hle, _, hp⟩ := h.placed j hlivej
  show (w.slots w.frontOfTick).ts < (w.slots j).ts ∨ ((w.slots w.frontOfTick).ts = (w.slots j).ts
    ∧ (w.slots w.frontOfTick).seq ≤ (w.slots j).seq)
  rw [hts]
  rcases Nat.lt_or_eq_of_le hle with hlater | hnow
  · exact Or.inl hlater
  · -- what is due now lies in the bucket of the tick
    rw [← hnow] at hp
    obtain ⟨hli, hb⟩ := hp.zero_of_now
    exact Or.inr ⟨hnow, hmin j ((hL.mem j _ hlt).mpr ⟨hlivej, by omega⟩)⟩

/-! ## Removing -/

section

variable {P : Nat → Prop} {L : Nat → List Nat} {n : Nat}

/-- The chains depend on the levels and on the slots of their events. -/
theorem Chained.congr {w' : TimingWheel α} (h : Chained P w L n) (hlevels : w'.levels = w.levels)
    (hslots : ∀ i, P i → w'.slots i = w.slots i) : Chained P w' L n where
  chain x hx := by
    unfold headOf tailOf
    rw [hlevels]
    refine (h.chain x hx).congr (fun i hi => ?_) (fun i hi => ?_)
    · rw [hslots i (h.present hx hi).1]
    · rw [hslots i (h.present hx hi).1]
  occupied x hx := by
    unfold bitOf
    rw [hlevels]
    exact h.occupied x hx
  mem i x hx := by
    rw [h.mem i x hx]
    refine and_congr_right fun hi => ?_
    rw [hslots i hi]
  range i hi := by
    rw [hslots i hi]
    exact h.range i hi
  sorted x hx hs := by
    have hlt : x < bucketCount := Nat.lt_trans hx (by unfold bucketCount; omega)
    rw [hlevels] at hs ⊢
    obtain ⟨hpair, hle⟩ := h.sorted x hx hs
    refine ⟨hpair.imp_of_mem fun hi hj hij => ?_, fun i hi => ?_⟩
    · rw [hslots _ (h.present hlt hi).1, hslots _ (h.present hlt hj).1]
      exact hij
    · rw [hslots i (h.present hlt hi).1]
      exact hle i hi
  count := h.count

end

/-- The wheel without the event in slot `x`. -/
def removed (w : TimingWheel α) (x : Nat) : TimingWheel α :=
  { (w.detach x).freeSlot x with live := w.live - 1 }

/-- **Removing an event** releases its slot in the table. -/
theorem removed_spec (h : WheelInv w) {x : Nat} (hx : (w.slots x).live = true) :
    (w.removed x).table = w.table.release x ∧ WheelInv (w.removed x) := by
  obtain ⟨L, hL⟩ := h.chained
  obtain ⟨hdetach, hbucket⟩ := hL.detach hx rfl
  have hre := detach_rechained w x
  -- The slot that is freed changes its own fields; detaching has changed links of other slots only.
  have hself : (w.removed x).slots x = { (w.detach x).slots x with
      live := false, generation := (((w.detach x).slots x).generation + 1) % 2 ^ 32
      freeNext := (w.detach x).freeHead } := Function.update_self ..
  have hother : ∀ i, i ≠ x → (w.removed x).slots i = (w.detach x).slots i := fun i hi =>
    Function.update_of_ne hi _ _
  have hlive : ∀ i, ((w.removed x).slots i).live = true ↔ (w.slots i).live = true ∧ i ≠ x := by
    intro i
    by_cases hi : i = x
    · rw [hi, hself]
      exact ⟨fun hc => Bool.noConfusion hc, fun hc => absurd rfl hc.2⟩
    · rw [hother i hi, hre.slotLive, and_iff_left hi]
  constructor
  · have hfields : ∀ {β : Type} (f : WheelSlot α → β), (∀ i, f ((w.detach x).slots i) = f (w.slots i)) →
        (fun i => f ((w.removed x).slots i))
          = Function.update (fun i => f (w.slots i)) x (f ((w.removed x).slots x)) := by
      intro β f hf
      funext i
      by_cases hi : i = x
      · rw [hi, Function.update_self]
      · rw [Function.update_of_ne hi, hother i hi, hf]
    ext1
    · exact hre.capacity
    · exact hre.watermark
    · rfl
    · show (fun i => ((w.removed x).slots i).freeNext) = _
      rw [hfields WheelSlot.freeNext hre.freeNext, hself, hre.freeHead]
      rfl
    · show (fun i => ((w.removed x).slots i).generation) = _
      rw [hfields WheelSlot.generation hre.generation, hself, hre.generation]
      rfl
    · funext i
      show (if ((w.removed x).slots i).live then some ((w.removed x).recordOf i) else none)
        = Function.update w.table.record x none i
      by_cases hi : i = x
      · rw [hi, Function.update_self, hself]
        exact if_neg Bool.false_ne_true
      · have hrec : (w.removed x).recordOf i = w.recordOf i := by
          rw [← hre.recordOf i]
          unfold recordOf
          rw [hother i hi]
        rw [Function.update_of_ne hi, hother i hi, hre.slotLive, hrec]
        rfl
    · rfl
    · exact hre.nextSeq
  -- The other events stay where the detached wheel has them.
  · have hkept : Chained (fun i => (w.slots i).live = true ∧ i ≠ x) (w.removed x) _ _ :=
      hdetach.congr rfl fun i hi => hother i hi.2
    refine ⟨⟨_, hkept.iff hlive⟩, fun i hi => ?_⟩
    obtain ⟨hi, hne⟩ := (hlive i).mp hi
    rw [hother i hne, hbucket i hne, hre.ts]
    have hnow : (w.removed x).now = w.now := hre.now
    rw [hnow]
    exact h.placed i hi

/-- **A cancel** is a cancel on the slot table. -/
theorem cancel_spec (h : WheelInv w) (g : GenHandle) :
    (w.cancel g).1 = (w.table.cancel g).1 ∧ (w.cancel g).2.table = (w.table.cancel g).2
      ∧ WheelInv (w.cancel g).2 := by
  have hcancel : w.cancel g
      = if w.table.Names g then (true, w.removed g.index) else (false, w) :=
    w.table.cancel_branches (record_isSome g.index) w (w.removed g.index)
  rw [hcancel, SlotTable.cancel]
  by_cases hnames : w.table.Names g
  · rw [if_pos hnames, if_pos hnames]
    obtain ⟨htable, hinv⟩ := removed_spec h ((record_isSome g.index).symm.trans hnames.2.1)
    exact ⟨rfl, htable, hinv⟩
  · rw [if_neg hnames, if_neg hnames]
    exact ⟨rfl, rfl, h⟩

/-! ## Pushing -/

/-- The slots in use stay as they are. -/
theorem WheelInv.congr {w' : TimingWheel α} (h : WheelInv w) (hlevels : w'.levels = w.levels)
    (hlive : ∀ i, (w'.slots i).live = (w.slots i).live)
    (hslots : ∀ i, (w.slots i).live = true → w'.slots i = w.slots i) (hcount : w'.live = w.live)
    (hnow : w'.now = w.now) : WheelInv w' := by
  obtain ⟨L, hL⟩ := h.chained
  refine ⟨⟨L, ?_⟩, fun i hi => ?_⟩
  · rw [hcount]
    exact (hL.congr hlevels hslots).iff fun i => by rw [hlive]
  · rw [hlive] at hi
    rw [hslots i hi, hnow]
    exact h.placed i hi

/-- The wheel with a new event in slot `idx`. -/
def place (w : TimingWheel α) (idx ts : Nat) (value : α) : TimingWheel α :=
  { (w.modifySlot idx fun s => { s with value, ts, seq := w.nextSeq, live := true }).attach idx with
    live := w.live + 1, nextSeq := w.nextSeq + 1 }

/-- **Placing an event** in a free slot. -/
theorem place_spec (h : WheelInv w) {idx : Nat} (hfree : (w.slots idx).live = false)
    (hnull : idx ≠ kNullIndex) {ts : Nat} (hnow : w.now ≤ ts) (hmax : ts < 2 ^ 64) (v : α) :
    WheelInv (w.place idx ts v)
      ∧ (w.place idx ts v).table = w.table.put idx { ts, seq := w.nextSeq, value := v } := by
  obtain ⟨L, hL⟩ := h.chained
  let w₁ := w.modifySlot idx fun s => { s with value := v, ts, seq := w.nextSeq, live := true }
  have hself₁ : w₁.slots idx
      = { w.slots idx with value := v, ts, seq := w.nextSeq, live := true } :=
    Function.update_self ..
  have hother₁ : ∀ i, i ≠ idx → w₁.slots i = w.slots i := fun i hi => Function.update_of_ne hi _ _
  have hts₁ : (w₁.slots idx).ts = ts := by rw [hself₁]
  have hne : ∀ i, (w.slots i).live = true → i ≠ idx := by
    intro i hi he
    rw [he, hfree] at hi
    exact Bool.noConfusion hi
  -- Writing the event into its slot is seen by no chain, since a free slot stands in none.
  have hL₁ : Chained (fun i => (w.slots i).live = true) w₁ L w.live :=
    hL.congr rfl fun i hi => hother₁ i (hne i hi)
  obtain ⟨hroute, hplaced⟩ := routeBucket_spec (w := w) hnow hmax
  have hx : w₁.routeBucket (w₁.slots idx).ts = w.routeBucket ts := by
    rw [hts₁]
    exact routeBucket_congr rfl ts
  obtain ⟨hatt, hre, hself, hother⟩ :=
    hL₁.attach (fun hc => hne idx hc rfl) hnull hx hroute
  have hslots : (w.place idx ts v).slots = (w₁.attach idx).slots := rfl
  have hlive : ∀ i, ((w.place idx ts v).slots i).live = true
      ↔ (w.slots i).live = true ∨ i = idx := by
    intro i
    rw [hslots, hre.slotLive]
    by_cases hi : i = idx
    · rw [hi, hself₁]
      exact ⟨fun _ => Or.inr rfl, fun _ => rfl⟩
    · rw [hother₁ i hi, or_iff_left hi]
  constructor
  · have hkept : Chained (fun i => (w.slots i).live = true ∨ i = idx) (w.place idx ts v) _ _ :=
      hatt.congr rfl fun i _ => rfl
    refine ⟨⟨_, hkept.iff hlive⟩, fun i hi => ?_⟩
    have hstay : (w.place idx ts v).now = w.now := hre.now
    rw [hstay, hslots, hre.ts]
    by_cases hi' : i = idx
    · rw [hi', hself, hts₁]
      exact ⟨hnow, hmax, hplaced⟩
    · rw [hother i hi', hother₁ i hi']
      exact h.placed i (((hlive i).mp hi).resolve_right hi')
  · have hfields : ∀ {β : Type} (f : WheelSlot α → β),
        (∀ i, f ((w₁.attach idx).slots i) = f (w₁.slots i)) →
        f (w₁.slots idx) = f (w.slots idx) →
        (fun i => f ((w.place idx ts v).slots i)) = fun i => f (w.slots i) := by
      intro β f hf hsame
      funext i
      rw [hslots, hf]
      by_cases hi : i = idx
      · rw [hi, hsame]
      · rw [hother₁ i hi]
    ext1
    · exact hre.capacity
    · exact hre.watermark
    · exact hre.freeHead
    · exact hfields WheelSlot.freeNext hre.freeNext (by rw [hself₁])
    · exact hfields WheelSlot.generation hre.generation (by rw [hself₁])
    · funext i
      show (if ((w.place idx ts v).slots i).live then some ((w.place idx ts v).recordOf i) else none)
        = Function.update w.table.record idx (some { ts, seq := w.nextSeq, value := v }) i
      have hrec : (w.place idx ts v).recordOf i = w₁.recordOf i := hre.recordOf i
      rw [hrec, hslots, hre.slotLive]
      by_cases hi : i = idx
      · rw [hi, Function.update_self]
        unfold recordOf
        rw [hself₁]
        exact if_pos rfl
      · rw [Function.update_of_ne hi]
        unfold recordOf
        rw [hother₁ i hi]
        rfl
    · rfl
    · rfl

/-- The wheel after its next slot has been acquired. -/
def acquired [Inhabited α] (w : TimingWheel α) : TimingWheel α :=
  if w.freeHead = kNullIndex then
    { w with
      watermark := w.watermark + 1
      slots := Function.update w.slots w.table.nextSlot { value := default } }
  else { w with freeHead := (w.slots w.table.nextSlot).freeNext }

theorem push_eq [Inhabited α] (w : TimingWheel α) (ts : Nat) (v : α) :
    w.push ts v = if w.table.full then ({}, w)
      else ({ index := w.table.nextSlot
              generation := (w.acquired.slots w.table.nextSlot).generation },
        w.acquired.place w.table.nextSlot ts v) := rfl

/-- **Acquiring a slot** acquires it in the table. -/
theorem acquired_spec [Inhabited α] (h : WheelInv w) {l : List Nat}
    (hl : SlotTable.Free w.table l) (hroom : ¬ w.table.full) :
    w.acquired.table = w.table.acquire ∧ WheelInv w.acquired
      ∧ (w.acquired.slots w.table.nextSlot).live = false := by
  have hnone := live_of_record_none (hl.nextSlot hroom).2.1
  unfold acquired SlotTable.acquire
  have hheads : w.table.freeHead = w.freeHead := rfl
  rw [hheads]
  -- With no slot on the free list one that was never used is built, in its first generation.
  by_cases hhead : w.freeHead = kNullIndex
  · have hslot : w.table.nextSlot = w.watermark := if_pos hhead
    rw [hslot] at hnone ⊢
    rw [if_pos hhead, if_pos hhead]
    let w₁ : TimingWheel α :=
      { w with
        watermark := w.watermark + 1
        slots := Function.update w.slots w.watermark { value := default } }
    have hself : w₁.slots w.watermark = { value := default } := Function.update_self ..
    have hother : ∀ i, i ≠ w.watermark → w₁.slots i = w.slots i := fun i hi =>
      Function.update_of_ne hi _ _
    have hlive : ∀ i, (w₁.slots i).live = (w.slots i).live := by
      intro i
      by_cases hi : i = w.watermark
      · rw [hi, hself, hnone]
      · rw [hother i hi]
    have hslots : ∀ i, (w.slots i).live = true → w₁.slots i = w.slots i := by
      intro i hi
      refine hother i fun he => ?_
      rw [he, hnone] at hi
      exact Bool.noConfusion hi
    have hfield : ∀ {β : Type} (f : WheelSlot α → β), (fun i => f (w₁.slots i))
        = Function.update (fun i => f (w.slots i)) w.watermark (f { value := default }) := by
      intro β f
      funext i
      by_cases hi : i = w.watermark
      · rw [hi, hself, Function.update_self]
      · rw [hother i hi, Function.update_of_ne hi]
    refine ⟨?_, h.congr rfl hlive hslots rfl rfl, ?_⟩
    rotate_left
    · show (w₁.slots w.watermark).live = false
      rw [hself]
    ext1
    · rfl
    · rfl
    · rfl
    · exact hfield WheelSlot.freeNext
    · exact hfield WheelSlot.generation
    · funext i
      show (if (w₁.slots i).live then some (w₁.recordOf i) else none)
        = if (w.slots i).live then some (w.recordOf i) else none
      rw [hlive]
      by_cases hi : (w.slots i).live = true
      · rw [if_pos hi, if_pos hi]
        unfold recordOf
        rw [hslots i hi]
      · rw [if_neg hi, if_neg hi]
    · rfl
    · rfl
  · have hslot : w.table.nextSlot = w.freeHead := if_neg hhead
    rw [hslot] at hnone ⊢
    rw [if_neg hhead, if_neg hhead]
    exact ⟨rfl, h.congr rfl (fun _ => rfl) (fun _ _ => rfl) rfl rfl, hnone⟩

/-- **A push** is a push on the slot table. -/
theorem push_spec [Inhabited α] (h : WheelInv w) {l : List Nat} (hl : SlotTable.Free w.table l)
    {ts : Nat} (hnow : w.now ≤ ts) (hmax : ts < 2 ^ 64) (hroom : w.live < w.capacity) (v : α) :
    (w.push ts v).1 = (w.table.push ts v).1 ∧ (w.push ts v).2.table = (w.table.push ts v).2
      ∧ WheelInv (w.push ts v).2 := by
  have hfull : ¬ w.table.full := fun hc => Nat.not_lt.mpr (hl.full_iff.mp hc) hroom
  have hlt : w.table.nextSlot < w.capacity := (hl.nextSlot hfull).1
  have hcap : w.capacity < kNullIndex := hl.cap
  obtain ⟨htable, hinv, hfree⟩ := acquired_spec h hl hfull
  have hkeep : w.acquired.now = w.now ∧ w.acquired.nextSeq = w.nextSeq := by
    unfold acquired
    split <;> exact ⟨rfl, rfl⟩
  obtain ⟨hplaced, hput⟩ := place_spec hinv hfree (by omega) (by rw [hkeep.1]; exact hnow) hmax v
  rw [push_eq, SlotTable.push, if_neg hfull, if_neg hfull, ← htable]
  refine ⟨rfl, ?_, hplaced⟩
  rw [hput, hkeep.2]
  rfl

/-! ## Looking and popping -/

/-- **The front after settling** is the least recorded event. -/
theorem settle_front (h : WheelInv w) (hpos : 0 < w.live) :
    WheelInv w.settle ∧ w.settle.table = w.table
      ∧ (w.settle.slots w.settle.frontOfTick).live = true
      ∧ (w.settle.slots w.settle.frontOfTick).ts = w.settle.now
      ∧ w.table.Least w.settle.frontOfTick (w.settle.recordOf w.settle.frontOfTick) := by
  obtain ⟨_, hinv, htable, _, hnear⟩ := settle_spec h hpos
  obtain ⟨hlive, hts, hleast⟩ := front_least hinv hnear
  rw [htable] at hleast
  exact ⟨hinv, htable, hlive, hts, hleast⟩

/-- **A pop** releases the slot of the least recorded event. -/
theorem popMin_spec (h : WheelInv w) (hpos : 0 < w.live) :
    w.popMin.1 = (w.settle.recordOf w.settle.frontOfTick).value
      ∧ w.popMin.2.table = w.table.release w.settle.frontOfTick ∧ WheelInv w.popMin.2 := by
  obtain ⟨hinv, htable, hlive, _, _⟩ := settle_front h hpos
  have hre := detach_rechained w.settle w.settle.frontOfTick
  have hpop : w.popMin.2 = w.settle.removed w.settle.frontOfTick := rfl
  obtain ⟨hreleased, hkept⟩ := removed_spec hinv hlive
  rw [hpop]
  refine ⟨congrArg SlotRecord.value (hre.recordOf _), ?_, hkept⟩
  rw [hreleased, htable]

/-! ## Clearing -/

/-- **A clear** is a clear of the slot table. -/
theorem clear_spec [Inhabited α] {l : List Nat} (hl : SlotTable.Free w.table l) :
    w.clear.table = w.table.clear ∧ WheelInv w.clear := by
  have hmark : w.watermark ≤ w.capacity := hl.mark
  have hin : ∀ i, i < w.capacity → (w.clear.slots i).live = false
      ∧ (w.clear.slots i).generation = (if w.watermark ≤ i then 0
        else if (w.slots i).live then ((w.slots i).generation + 1) % 2 ^ 32
        else (w.slots i).generation)
      ∧ (w.clear.slots i).freeNext = if i + 1 < w.capacity then i + 1 else kNullIndex := by
    intro i hi
    unfold clear
    dsimp only
    rw [if_pos hi]
    by_cases hw : w.watermark ≤ i
    · rw [if_pos hw, if_pos hw]
      exact ⟨rfl, rfl, rfl⟩
    · rw [if_neg hw, if_neg hw]
      exact ⟨rfl, rfl, rfl⟩
  have hout : ∀ i, w.capacity ≤ i → w.clear.slots i = w.slots i := fun i hi =>
    if_neg (Nat.not_lt.mpr hi)
  have hdead : ∀ i, (w.clear.slots i).live = false := by
    intro i
    by_cases hi : i < w.capacity
    · exact (hin i hi).1
    · rw [hout i (Nat.not_lt.mp hi)]
      exact live_of_record_none (hl.fresh i (by show w.watermark ≤ i; omega)).1
  constructor
  · refine hl.clear_eq rfl rfl rfl rfl rfl (fun i => ?_) (fun i hi => ?_) (fun i hi => ?_)
    · show (if (w.clear.slots i).live then some (w.clear.recordOf i) else none) = none
      rw [hdead]
      exact if_neg Bool.false_ne_true
    · rw [record_isSome]
      exact (hin i hi).2
    · show (w.clear.slots i).generation = (w.slots i).generation
        ∧ (w.clear.slots i).freeNext = (w.slots i).freeNext
      rw [hout i hi]
      exact ⟨rfl, rfl⟩
  · refine ⟨⟨fun _ => [], ?_⟩, fun i hi => absurd hi (by rw [hdead]; exact Bool.false_ne_true)⟩
    exact
      { chain := fun x _ => chain_nil
        occupied := fun x _ => by
          unfold bitOf
          rw [show (w.clear.levels (x / 64)).occupied = 0#64 from rfl, BitVec.getLsbD_zero]
          exact ⟨fun hc => Bool.noConfusion hc, fun hc => absurd rfl hc⟩
        mem := fun i x _ => by
          rw [hdead]
          exact ⟨fun hm => absurd hm List.not_mem_nil, fun hm => Bool.noConfusion hm.1⟩
        range := fun i hi => absurd hi (by rw [hdead]; exact Bool.false_ne_true)
        sorted := fun x _ _ => ⟨List.Pairwise.nil, fun i hi => absurd hi List.not_mem_nil⟩
        count := Finset.sum_eq_zero fun x _ => rfl }

/-! ## The audit -/

/-- An event at its position passes. -/
theorem auditEvent_placed (h : AllPlaced w) {x p idx : Nat} (hlive : (w.slots idx).live = true)
    (hbucket : (w.slots idx).bucket = x) (hprev : (w.slots idx).prev = p) :
    w.auditEvent (x / 64) (x % 64) p idx := by
  obtain ⟨hnow, _, hp⟩ := h idx hlive
  rw [hbucket] at hp
  have hpow : ∀ m, 2 ^ (6 * m) = 64 ^ m := fun m => by rw [Nat.pow_mul]
  refine ⟨hlive, ?_, hprev, hnow, ?_⟩
  · rw [hbucket]
    unfold kBuckets
    omega
  · by_cases hli : 0 < x / 64
    · rw [if_pos hli, digit_eq, digit_eq, shiftRight_xor_eq_zero, hpow]
      exact ⟨fun _ => hp.above, hp.own, hp.ahead hli⟩
    · rw [if_neg hli, Nat.shiftRight_eq_div_pow, Nat.shiftRight_eq_div_pow]
      have habove := hp.above
      rw [Nat.eq_zero_of_not_pos hli, Nat.zero_add, Nat.pow_one] at habove
      exact habove

/-- **The walk along a chain** counts its events and ends at its tail. -/
theorem auditChain_spec {li b p idx chain fuel : Nat} {l : List Nat}
    (h : Seg (fun i => (w.slots i).next) (fun i => (w.slots i).prev) p idx kNullIndex l)
    (hnull : kNullIndex ∉ l) (hfuel : l.length < fuel) (hlen : chain + l.length ≤ w.capacity)
    (hpass : ∀ i ∈ l, w.auditEvent li b (w.slots i).prev i) :
    w.auditChain li b fuel chain p idx = some (chain + l.length, l.getLastD p) := by
  induction l generalizing p idx chain fuel with
  | nil =>
      have hidx : idx = kNullIndex := h
      cases fuel with
      | zero => exact absurd hfuel (Nat.not_lt_zero _)
      | succ fuel => rw [auditChain, if_pos hidx]; rfl
  | cons a l ih =>
      obtain ⟨hidx, hprev, hrest⟩ := h
      subst hidx
      cases fuel with
      | zero => exact absurd hfuel (Nat.not_lt_zero _)
      | succ fuel =>
          have hne : idx ≠ kNullIndex := fun he => hnull (he ▸ List.mem_cons_self)
          rw [List.length_cons] at hfuel hlen ⊢
          have hevent := hpass idx List.mem_cons_self
          rw [show (w.slots idx).prev = p from hprev] at hevent
          rw [auditChain, if_neg hne, if_neg (by omega), if_pos hevent,
            ih hrest (fun hm => hnull (List.mem_cons_of_mem _ hm)) (by omega) (by omega)
              (fun i hi => hpass i (List.mem_cons_of_mem _ hi)), List.getLastD_cons]
          congr 2
          omega

/-- **Every bucket passes**, and its length is counted. -/
theorem auditBucket_spec {L : Nat → List Nat}
    (h : Chained (fun i => (w.slots i).live = true) w L w.live) (hplaced : AllPlaced w)
    (hcap : w.live ≤ w.capacity) {x : Nat} (hx : x < bucketCount) :
    w.auditBucket (x / 64) (x % 64) = some (L x).length := by
  have hchain := h.chain x hx
  have hlen := Nat.le_trans (h.length_le hx) hcap
  have hbit := h.occupied x hx
  have hhead := hchain.head_eq_null
  have htail := hchain.tail_eq_null
  have hwalk : w.auditChain (x / 64) (x % 64) (w.capacity + 1) 0 kNullIndex (w.headOf x)
      = some (0 + (L x).length, (L x).getLastD kNullIndex) := by
    refine auditChain_spec hchain.seg hchain.ne_null (Nat.lt_succ_of_le hlen) (by omega)
      fun i hi => ?_
    obtain ⟨hlive, hb⟩ := h.present hx hi
    exact auditEvent_placed hplaced hlive hb rfl
  have hlast := hchain.tail
  unfold auditBucket
  dsimp only
  unfold bitOf at hbit
  unfold headOf at hwalk hhead
  unfold tailOf at htail hlast
  rw [hwalk]
  generalize (w.levels (x / 64)).occupied.getLsbD (x % 64) = hasBit at *
  have hmark : hasBit = decide ((w.levels (x / 64)).head (x % 64) ≠ kNullIndex) := by
    rw [Bool.eq_iff_iff, decide_eq_true_iff, hbit, Ne, Ne, hhead]
  rw [if_neg (not_not.mpr hmark), if_neg (fun hc => hbit.mp hc.1 (htail.mp hc.2))]
  dsimp only
  rw [if_neg (fun hc => hc.2 hlast), Nat.zero_add]

theorem foldl_count {f : Nat → Option Nat} {g : Nat → Nat} {n : Nat}
    (h : ∀ x, x < n → f x = some (g x)) :
    (List.range n).foldl (fun seen x => seen.bind fun m => (f x).map (m + ·)) (some 0)
      = some (∑ x ∈ Finset.range n, g x) := by
  induction n with
  | zero => rfl
  | succ n ih =>
      rw [List.range_succ, List.foldl_append, ih fun x hx => h x (Nat.lt_succ_of_lt hx),
        List.foldl_cons, List.foldl_nil, h n (Nat.lt_succ_self n), Finset.sum_range_succ]
      rfl

/-- **The audit passes** while the invariant holds. -/
theorem audit_true (h : WheelInv w) {l : List Nat} (hl : SlotTable.Free w.table l) :
    w.audit = true := by
  obtain ⟨L, hL⟩ := h.chained
  have hcount : w.live + l.length = w.watermark := hl.count
  have hmark : w.watermark ≤ w.capacity := hl.mark
  have hseen : w.auditSeen = some w.live := by
    rw [← hL.count]
    exact foldl_count fun x hx => auditBucket_spec hL h.placed (by omega) hx
  have hwalk : SlotTable.freeLength w.capacity (fun i => (w.slots i).live)
      (fun i => (w.slots i).freeNext) (w.capacity + 1) w.freeHead = some l.length := by
    refine SlotTable.freeLength_chain hl.cap hl.chain (fun i hi => ?_)
      (Nat.lt_succ_of_le hl.length_le)
    obtain ⟨hlt, hnone⟩ := (hl.mem i).mp hi
    exact ⟨Nat.lt_of_lt_of_le hlt hmark, live_of_record_none hnone⟩
  unfold audit
  rw [hseen, hwalk]
  dsimp only [Option.map_some]
  rw [Bool.and_eq_true, decide_eq_true_iff, decide_eq_true_iff]
  have hfree : l.length + (w.capacity - w.watermark) + w.live = w.capacity := by omega
  exact ⟨rfl, congrArg some hfree⟩

/-! ## Runs -/

def engine (α : Type) [Inhabited α] : Engine (TimingWheel α) GenHandle α where
  push w ts v := w.push ts v
  cancel := cancel
  peekMin := peekMin
  peekMinTs := peekMinTs
  popMin := popMin
  clear w := w.clear

/-- The contract of the calls: no event in the past or beyond the capacity, and nothing is looked
for in an empty wheel. -/
def Contract (w : TimingWheel α) : Op α → Prop
  | .push ts _ => w.now ≤ ts ∧ ts < 2 ^ 64 ∧ w.size < w.capacity
  | .peekMin | .peekMinTs | .popMin => 0 < w.size
  | .cancel _ | .clear => True

/-- **The wheel is an engine over its slot table.** -/
theorem slotEngine [Inhabited α] : SlotEngine (engine α) WheelInv table Contract where
  push _ _ _ v h hl hok := push_spec h hl hok.1 hok.2.1 hok.2.2 v
  flag _ _ g h _ := (cancel_spec h g).1
  cancel _ _ _ g h _ _ := (cancel_spec h g).2
  peekMin _ _ h _ hpos := by
    obtain ⟨hinv, htable, _, _, hleast⟩ := settle_front h hpos
    exact ⟨_, _, hleast, rfl, htable, hinv⟩
  peekMinTs _ _ h _ hpos := by
    obtain ⟨hinv, htable, _, hts, hleast⟩ := settle_front h hpos
    exact ⟨_, _, hleast, hts.symm, htable, hinv⟩
  popMin _ _ h _ hpos := by
    obtain ⟨_, _, _, _, hleast⟩ := settle_front h hpos
    exact ⟨_, _, hleast, popMin_spec h hpos⟩
  clear _ _ _ hl _ := clear_spec hl

/-- A wheel that has not been used. -/
theorem init_inv [Inhabited α] (cap : Nat) : WheelInv (init cap : TimingWheel α) := by
  refine ⟨⟨fun _ => [], ?_⟩, fun i hi => Bool.noConfusion hi⟩
  exact
    { chain := fun x _ => chain_nil
      occupied := fun x _ => by
        unfold bitOf
        rw [show ((init cap : TimingWheel α).levels (x / 64)).occupied = 0#64 from rfl,
          BitVec.getLsbD_zero]
        exact ⟨fun hc => Bool.noConfusion hc, fun hc => absurd rfl hc⟩
      mem := fun i x _ => ⟨fun hm => absurd hm List.not_mem_nil, fun hm => Bool.noConfusion hm.1⟩
      range := fun i hi => Bool.noConfusion hi
      sorted := fun x _ hs => Bool.noConfusion hs
      count := Finset.sum_eq_zero fun x _ => rfl }

end TimingWheel

end Mog
