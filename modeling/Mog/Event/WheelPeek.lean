import Mog.Event.WheelAnswers

/-!
# Peeking at the wheel

A peek settles the wheel: the watermark moves on to the next pending event, and the
next push is checked against the watermark. The slot table is searched without a
change, so its run tells what is pending, what was popped and what a peek has shown,
and the wheel's run is compared with it.
-/

namespace Mog

open TicketQueue

namespace TimingWheel

variable {α : Type} {w : TimingWheel α}

/-! ## The watermark -/

theorem cancel_now (w : TimingWheel α) (g : GenHandle) : (w.cancel g).2.now = w.now := by
  unfold cancel
  by_cases hrange : w.capacity ≤ g.index
  · rw [if_pos hrange]
  · rw [if_neg hrange]
    by_cases hstale : (w.slots g.index).live = false ∨ (w.slots g.index).generation ≠ g.generation
    · rw [if_pos hstale]
    · rw [if_neg hstale]
      exact (detach_rechained w g.index).now

theorem popMin_now (w : TimingWheel α) : w.popMin.2.now = w.settle.now :=
  (detach_rechained w.settle w.settle.frontOfTick).now

/-- **Settling moves the watermark** to the timestamp of the least recorded event. -/
theorem settle_now [Inhabited α] {t : SlotTable α}
    (h : Alike WheelInv table (fun _ => True) (fun t => t) w t) (hpos : 0 < t.size) :
    w.now ≤ w.settle.now ∧ w.settle.now = t.peekMinTs := by
  have hsize : w.size = t.size := congrArg SlotTable.size h.tables
  have hlive : 0 < w.live := Nat.lt_of_lt_of_eq hpos hsize.symm
  obtain ⟨_, _, _, hmove, _⟩ := settle_spec h.inv hlive
  obtain ⟨_, _, _, hts, hleast⟩ := settle_front h.inv hlive
  obtain ⟨l, hl⟩ := h.sequenced.free
  rw [h.tables] at hl hleast
  obtain ⟨r, hshown, _, hmin⟩ := hl.least_shown hpos
  obtain ⟨_, hrec⟩ := (h.tables ▸ h.sequenced).least_unique hleast hshown
  refine ⟨hmove, ?_⟩
  calc w.settle.now = (w.settle.recordOf w.settle.frontOfTick).ts := hts.symm
    _ = r.ts := congrArg SlotRecord.ts hrec
    _ = t.peekMinTs := hmin.symm

end TimingWheel

/-! ## Runs with peeks -/

/-- The calls that only look. -/
def isPeek {α : Type} : Op α → Bool
  | .peekMin | .peekMinTs => true
  | _ => false

/-- The replies to the calls that do more than look. -/
def answers {α : Type} : List (Op α) → List (Reply α) → List (Reply α)
  | op :: ops, r :: rs => if isPeek op then answers ops rs else r :: answers ops rs
  | _, _ => []

namespace SlotTable

variable {α : Type}

/-- A peek at the table leaves it as it is. -/
theorem step_peek [Inhabited α] {op : Op α} (hop : isPeek op = true) (t : SlotTable α)
    (H : List GenHandle) : ((engine α).step t H op).2 = (t, H) := by
  cases op <;> first | rfl | exact Bool.noConfusion hop

/-- **The table answers the same** with peeks and without. -/
theorem answers_without_peeks [Inhabited α] (ops : List (Op α)) (t : SlotTable α)
    (H : List GenHandle) : answers ops ((engine α).run ops t H).1
      = ((engine α).run (ops.filter fun op => !isPeek op) t H).1 := by
  induction ops generalizing t H with
  | nil => rfl
  | cons op ops ih =>
      rw [Engine.run, answers, List.filter_cons]
      by_cases hop : isPeek op = true
      · rw [if_pos hop, if_neg (by rw [hop]; exact Bool.false_ne_true), step_peek hop, ih]
      · rw [if_neg hop, if_pos (by rw [Bool.not_eq_true] at hop; rw [hop]; rfl), Engine.run, ih]

end SlotTable

namespace TimingWheel

variable {α : Type}

/-- What the discrete-event contract lets a client call, when `last` is the timestamp last
popped: nothing is pushed before it, and nothing is looked for in an empty queue. -/
def Due (t : SlotTable α) (last : Nat) : Op α → Prop
  | .push ts _ => last ≤ ts ∧ ts < 2 ^ 64 ∧ t.size < t.capacity
  | .peekMin | .peekMinTs | .popMin => 0 < t.size
  | .cancel _ => True
  | .clear => False

/-- The timestamp last popped, after one more call. -/
def lastPopped (t : SlotTable α) (last : Nat) : Op α → Nat
  | .popMin => t.peekMinTs
  | _ => last

/-- The timestamp last peeked at, after one more call. -/
def lastPeeked (t : SlotTable α) (shown : Nat) : Op α → Nat
  | .peekMin | .peekMinTs => t.peekMinTs
  | _ => shown

/-- A push does not come before what was peeked at. -/
def NotBefore (shown : Nat) : Op α → Prop
  | .push ts _ => shown ≤ ts
  | _ => True

/-- The watermark admits a push. -/
def Admits (w : TimingWheel α) : Op α → Prop
  | .push ts _ => w.now ≤ ts
  | _ => True

/-- The contract of the wheel is the client's together with what the watermark admits. -/
theorem contract_iff {w : TimingWheel α} {t : SlotTable α} {last : Nat} {op : Op α}
    (hsize : w.size = t.size) (hcap : w.capacity = t.capacity) (hdue : Due t last op) :
    Contract w op ↔ Admits w op := by
  cases op with
  | push ts v => exact ⟨fun h => h.1, fun h => ⟨h, hdue.2.1, by rw [hsize, hcap]; exact hdue.2.2⟩⟩
  | cancel n => exact Iff.rfl
  | clear => exact Iff.rfl
  | peekMin => exact iff_of_true (Nat.lt_of_lt_of_eq hdue hsize.symm) trivial
  | peekMinTs => exact iff_of_true (Nat.lt_of_lt_of_eq hdue hsize.symm) trivial
  | popMin => exact iff_of_true (Nat.lt_of_lt_of_eq hdue hsize.symm) trivial

variable [Inhabited α]

/-- The calls are those of a discrete-event client, as the slot table sees them. -/
def DiscreteEvent : List (Op α) → SlotTable α → List GenHandle → Nat → Prop
  | [], _, _, _ => True
  | op :: ops, t, H, last =>
      Due t last op
        ∧ DiscreteEvent ops ((SlotTable.engine α).step t H op).2.1
            ((SlotTable.engine α).step t H op).2.2 (lastPopped t last op)

/-- No push comes before an event that an earlier peek has shown. -/
def HeedsPeeks : List (Op α) → SlotTable α → List GenHandle → Nat → Prop
  | [], _, _, _ => True
  | op :: ops, t, H, shown =>
      NotBefore shown op
        ∧ HeedsPeeks ops ((SlotTable.engine α).step t H op).2.1
            ((SlotTable.engine α).step t H op).2.2 (lastPeeked t shown op)

/-- The peeks of a run make no push inadmissible, and the other calls are answered as they are
without them. -/
structure PeeksTransparent (cap : Nat) (ops : List (Op α)) : Prop where
  admits : (engine α).Obeys Admits ops (init cap) []
  answers : answers ops ((engine α).run ops (init cap) []).1
    = ((engine α).run (ops.filter fun op => !isPeek op) (init cap) []).1

section

variable {w : TimingWheel α} {t : SlotTable α}

/-- **The watermark** stands at the later of what was popped and what was peeked at. -/
theorem step_now (h : Alike WheelInv table (fun _ => True) (fun t => t) w t)
    {last shown : Nat} (hnow : w.now = max last shown) {op : Op α} (hdue : Due t last op)
    (H : List GenHandle) :
    ((engine α).step w H op).2.1.now = max (lastPopped t last op) (lastPeeked t shown op) := by
  cases op with
  | push ts v => exact (push_now w ts v).trans hnow
  | cancel n =>
      show ((engine α).step w H (.cancel n)).2.1.now = max last shown
      rw [Engine.step]
      split
      · exact hnow
      · exact (cancel_now w _).trans hnow
  | clear => exact absurd hdue id
  | peekMin =>
      obtain ⟨hmove, hts⟩ := settle_now h hdue
      show w.settle.now = max last t.peekMinTs
      omega
  | peekMinTs =>
      obtain ⟨hmove, hts⟩ := settle_now h hdue
      show w.settle.now = max last t.peekMinTs
      omega
  | popMin =>
      obtain ⟨hmove, hts⟩ := settle_now h hdue
      show w.popMin.2.now = max t.peekMinTs shown
      rw [popMin_now]
      omega

/-- **A run is admitted** exactly when its pushes heed its peeks, and then it obeys the
contract of the wheel. -/
theorem admits_iff (h : Alike WheelInv table (fun _ => True) (fun t => t) w t)
    {last shown : Nat} (hnow : w.now = max last shown) {ops : List (Op α)} {H : List GenHandle}
    (hdue : DiscreteEvent ops t H last) :
    ((engine α).Obeys Admits ops w H ↔ HeedsPeeks ops t H shown)
      ∧ (HeedsPeeks ops t H shown → (engine α).Obeys Contract ops w H) := by
  induction ops generalizing w t H last shown with
  | nil => exact ⟨Iff.rfl, id⟩
  | cons op ops ih =>
      obtain ⟨hop, hrest⟩ := hdue
      have hhead : Admits w op ↔ NotBefore shown op := by
        cases op with
        | push ts v =>
            have hlast : last ≤ ts := hop.1
            show w.now ≤ ts ↔ shown ≤ ts
            omega
        | _ => exact Iff.rfl
      have hcontract := contract_iff (congrArg SlotTable.size h.tables)
        (congrArg SlotTable.capacity h.tables) hop
      by_cases hok : NotBefore shown op
      · have hnowok := hcontract.mpr (hhead.mpr hok)
        obtain ⟨_, hhandles, halike⟩ := matches_table w t H op h hnowok
        obtain ⟨hiff, hobeys⟩ := ih halike (step_now h hnow hop H) hrest
        have hsame : ∀ ok, (engine α).Obeys ok ops ((engine α).step w H op).2.1
            ((engine α).step w H op).2.2 ↔ (engine α).Obeys ok ops ((engine α).step w H op).2.1
              ((SlotTable.engine α).step t H op).2.2 := fun ok => by rw [hhandles]
        exact ⟨and_congr hhead ((hsame _).trans hiff),
          fun hheeds => ⟨hnowok, (hsame _).mpr (hobeys hheeds.2)⟩⟩
      · exact ⟨iff_of_false (fun hc => hok (hhead.mp hc.1)) (fun hc => hok hc.1),
          fun hc => absurd hc.1 hok⟩

/-- Without its peeks a run is a discrete-event run as well, and there is nothing to heed. -/
theorem discreteEvent_filter {ops : List (Op α)} {t : SlotTable α} {H : List GenHandle} {last : Nat}
    (h : DiscreteEvent ops t H last) :
    DiscreteEvent (ops.filter fun op => !isPeek op) t H last
      ∧ HeedsPeeks (ops.filter fun op => !isPeek op) t H 0 := by
  induction ops generalizing t H last with
  | nil => exact ⟨trivial, trivial⟩
  | cons op ops ih =>
      obtain ⟨hop, hrest⟩ := h
      rw [List.filter_cons]
      by_cases hpeek : isPeek op = true
      · rw [if_neg (by rw [hpeek]; exact Bool.false_ne_true)]
        have hsame := SlotTable.step_peek hpeek t H
        have hlast : lastPopped t last op = last := by
          cases op <;> first | rfl | exact Bool.noConfusion hpeek
        rw [hsame, hlast] at hrest
        exact ih hrest
      · rw [if_pos (by rw [Bool.not_eq_true] at hpeek; rw [hpeek]; rfl)]
        obtain ⟨hdue, hheeds⟩ := ih hrest
        have hshown : lastPeeked t 0 op = 0 := by
          cases op <;> first | rfl | exact absurd rfl hpeek
        have hzero : NotBefore 0 op := by
          cases op <;> first | trivial | exact Nat.zero_le _
        rw [← hshown] at hheeds
        exact ⟨⟨hop, hdue⟩, ⟨hzero, hheeds⟩⟩

end

/--
**When peeking at the wheel is transparent.**

In every run of a discrete-event client with peeks wherever something is pending, the
peeks make no push inadmissible and change no answer exactly when no push comes before
an event that an earlier peek has shown. Such a push is one that the heap scheduler takes.
-/
theorem peeks_transparent_iff {cap : Nat} (hpos : 0 < cap) (hcap : cap < kNullIndex)
    {ops : List (Op α)} (hdue : DiscreteEvent ops (SlotTable.init cap) [] 0) :
    PeeksTransparent cap ops ↔ HeedsPeeks ops (SlotTable.init cap) [] 0 := by
  have halike := init_alike (α := α) hpos hcap
  obtain ⟨hiff, hobeys⟩ := admits_iff halike (Nat.max_self 0).symm hdue
  refine ⟨fun h => hiff.mp h.admits, fun hheeds => ⟨hiff.mpr hheeds, ?_⟩⟩
  obtain ⟨hdue', hheeds'⟩ := discreteEvent_filter hdue
  have hobeys' := (admits_iff halike (Nat.max_self 0).symm hdue').2 hheeds'
  -- the table answers both runs alike, and the wheel answers each as the table does
  calc answers ops ((engine α).run ops (init cap) []).1
      = answers ops ((SlotTable.engine α).run ops (SlotTable.init cap) []).1 := by
        rw [(matches_table.run halike (hobeys hheeds)).1]
    _ = ((SlotTable.engine α).run (ops.filter fun op => !isPeek op) (SlotTable.init cap) []).1 :=
        SlotTable.answers_without_peeks ops _ _
    _ = ((engine α).run (ops.filter fun op => !isPeek op) (init cap) []).1 :=
        (matches_table.run halike hobeys').1.symm

/-- A peek at 100, then a push at 100, a pop and a later push. -/
theorem peeks_transparent_iff_later :
    PeeksTransparent 3 ([.push 100 1, .peekMinTs, .push 100 2, .popMin, .push 120 3, .peekMin]
      : List (Op Nat)) := by
  have hdue : DiscreteEvent ([.push 100 1, .peekMinTs, .push 100 2, .popMin, .push 120 3, .peekMin]
      : List (Op Nat)) (SlotTable.init 3) [] 0 :=
    ⟨⟨by decide, by decide, by decide⟩, show 0 < 1 by decide, ⟨by decide, by decide, by decide⟩,
      show 0 < 2 by decide, ⟨by decide, by decide, by decide⟩, show 0 < 2 by decide, trivial⟩
  exact (peeks_transparent_iff (by omega) (by decide) hdue).mpr
    ⟨Nat.zero_le _, trivial, Nat.le_refl 100, trivial, show 100 ≤ 120 by decide, trivial, trivial⟩

/-- **A peek shuts out an admissible push.** Nothing has been popped when 50 is pushed, yet the
peek at 100 has moved the watermark past it. -/
theorem peek_shuts_out :
    DiscreteEvent ([.push 100 1, .peekMinTs, .push 50 2] : List (Op Nat)) (SlotTable.init 2) [] 0
      ∧ ¬ PeeksTransparent 2 ([.push 100 1, .peekMinTs, .push 50 2] : List (Op Nat)) := by
  refine ⟨⟨⟨by decide, by decide, by decide⟩, show 0 < 1 by decide,
    ⟨by decide, by decide, by decide⟩, trivial⟩, fun h => ?_⟩
  have hpush : 100 ≤ 50 := h.admits.2.2.1
  omega

end TimingWheel

end Mog
