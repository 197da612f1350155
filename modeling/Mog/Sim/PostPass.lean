import Mog.Sim.Owed

/-!
# What a sweep notes

A sweep notes what it takes level by level and subtracts it once at the end: eight levels
have a place in the buffer, all further ones share a slot. A level that takes the slot over
has the one in it settled first, but starts from the units that the slot held, so these are
subtracted from it as well.

The buffer and the slot are read as one function from prices to noted units, and the debt as the
units that a level has inherited from another. A take at a price adds to its note; a level that
is displaced is settled. At the end every noted level is settled by what is noted for it.
-/

namespace Mog

open QueueSum TrackTable

/-! ## Totals of a buffer -/

/-- What the entries of level `p` hold together. -/
def notedAt (l : List (Int × Int)) (p : Int) : Int := ((l.filter (fun x => x.1 = p)).map Prod.snd).sum

theorem notedAt_cons (x : Int × Int) (l : List (Int × Int)) (p : Int) :
    notedAt (x :: l) p = (if x.1 = p then x.2 else 0) + notedAt l p := by
  unfold notedAt
  rw [List.filter_cons]
  by_cases hx : x.1 = p
  · rw [if_pos (decide_eq_true hx), if_pos hx]
    rfl
  · rw [if_neg (by simpa using hx), if_neg hx, Int.zero_add]

theorem notedAt_append (l l' : List (Int × Int)) (p : Int) :
    notedAt (l ++ l') p = notedAt l p + notedAt l' p := by
  unfold notedAt
  rw [List.filter_append, List.map_append, List.sum_append]

theorem notedAt_absent {l : List (Int × Int)} {p : Int} (h : p ∉ l.map Prod.fst) :
    notedAt l p = 0 := by
  induction l with
  | nil => rfl
  | cons x l ih =>
      rw [List.map_cons, List.mem_cons, not_or] at h
      rw [notedAt_cons, if_neg (fun he => h.1 he.symm), ih h.2]
      rfl

theorem addTake_keys (p qty : Int) (l : List (Int × Int)) :
    (addTake p qty l).map Prod.fst = l.map Prod.fst := by
  induction l with
  | nil => rfl
  | cons x l ih =>
      rw [addTake]
      split
      · rfl
      · rw [List.map_cons, List.map_cons, ih]

theorem addTake_length (p qty : Int) (l : List (Int × Int)) : (addTake p qty l).length = l.length := by
  have h := congrArg List.length (addTake_keys p qty l)
  rwa [List.length_map, List.length_map] at h

/-- What is noted for a level grows, and no other note changes. -/
theorem notedAt_addTake {p : Int} (qty : Int) {l : List (Int × Int)} (h : p ∈ l.map Prod.fst)
    (q : Int) : notedAt (addTake p qty l) q = notedAt l q + if q = p then qty else 0 := by
  induction l with
  | nil => exact absurd h List.not_mem_nil
  | cons x l ih =>
      rw [addTake]
      by_cases hx : x.1 = p
      · rw [if_pos hx, notedAt_cons, notedAt_cons]
        by_cases hq : q = p
        · rw [if_pos (hx.trans hq.symm), if_pos (hx.trans hq.symm), if_pos hq]
          dsimp only
          omega
        · rw [if_neg (fun he => hq (he.symm.trans hx)), if_neg (fun he => hq (he.symm.trans hx)),
            if_neg hq, Int.add_zero]
      · have hl : p ∈ l.map Prod.fst :=
          (List.mem_cons.mp h).resolve_left (fun he => hx he.symm)
        rw [if_neg hx, notedAt_cons, notedAt_cons, ih hl, Int.add_assoc]

namespace Sweep

variable {k : Nat} {cfg : SimConfig} {w w' : Sweep k} {order : SimInbound} {opp : Side}
  {due due' mid debt : Int → Int} {ent : Int → Prop} {p qty : Int}

/-! ## The notes of a sweep -/

/-- Level `p` has a place in the buffer. -/
def Buffered (w : Sweep k) (p : Int) : Prop := p ∈ w.touched.map Prod.fst

instance (w : Sweep k) (p : Int) : Decidable (w.Buffered p) := inferInstanceAs (Decidable (_ ∈ _))

/-- The overflow slot holds level `p`. -/
def InSlot (w : Sweep k) (p : Int) : Prop := w.hasPendingOverflow = true ∧ w.pendingOverflow = p

instance (w : Sweep k) (p : Int) : Decidable (w.InSlot p) := inferInstanceAs (Decidable (_ ∧ _))

/-- What the post-pass is to subtract from level `p`. -/
def noted (w : Sweep k) (p : Int) : Int :=
  notedAt w.touched p + if w.InSlot p then w.pendingOverflowTake else 0

/-- A take at `p` displaces another level from the overflow slot. -/
def Displaces (w : Sweep k) (p : Int) : Prop :=
  ¬ w.Buffered p ∧ 8 ≤ w.touched.length ∧ w.hasPendingOverflow = true ∧ w.pendingOverflow ≠ p

instance (w : Sweep k) (p : Int) : Decidable (w.Displaces p) := inferInstanceAs (Decidable (_ ∧ _))

/-- What a take at `p` has the slot keep of the level it displaces. -/
def carried (w : Sweep k) (p : Int) : Int := if w.Displaces p then w.pendingOverflowTake else 0

/-- The slot is used only once the buffer is full, for a level that has no place there. -/
def Slotted (w : Sweep k) : Prop :=
  w.hasPendingOverflow = true → 8 ≤ w.touched.length ∧ ¬ w.Buffered w.pendingOverflow

/-- Two sweeps have noted the same. -/
structure SameNotes (w w' : Sweep k) : Prop where
  touched : w'.touched = w.touched
  pendingOverflow : w'.pendingOverflow = w.pendingOverflow
  pendingOverflowTake : w'.pendingOverflowTake = w.pendingOverflowTake
  hasPendingOverflow : w'.hasPendingOverflow = w.hasPendingOverflow

theorem SameNotes.inSlot (h : SameNotes w w') (p : Int) : w'.InSlot p ↔ w.InSlot p := by
  rw [InSlot, InSlot, h.hasPendingOverflow, h.pendingOverflow]

theorem SameNotes.displaces (h : SameNotes w w') (p : Int) : w'.Displaces p ↔ w.Displaces p := by
  rw [Displaces, Displaces, Buffered, Buffered, h.touched, h.hasPendingOverflow, h.pendingOverflow]

theorem SameNotes.noted (h : SameNotes w w') (p : Int) : w'.noted p = w.noted p := by
  unfold Sweep.noted
  rw [h.touched, h.pendingOverflowTake]
  simp only [h.inSlot]

theorem SameNotes.carried (h : SameNotes w w') (p : Int) : w'.carried p = w.carried p := by
  unfold Sweep.carried
  rw [h.pendingOverflowTake]
  simp only [h.displaces]

theorem SameNotes.slotted (h : SameNotes w w') (hs : w.Slotted) : w'.Slotted := by
  unfold Slotted Buffered
  rw [h.touched, h.pendingOverflow, h.hasPendingOverflow]
  exact hs

theorem any_touched (w : Sweep k) (p : Int) :
    w.touched.any (fun x => x.1 = p) = true ↔ w.Buffered p := by
  unfold Buffered
  rw [List.any_eq_true, List.mem_map]
  exact ⟨fun ⟨x, hx, he⟩ => ⟨x, hx, of_decide_eq_true he⟩,
    fun ⟨x, hx, he⟩ => ⟨x, hx, decide_eq_true he⟩⟩

/-- Where a take at `p` is noted. -/
inductive NoteCase (w : Sweep k) (s : Side) (p qty : Int) : Sweep k → Prop where
  | place (hbuf : w.Buffered p) :
      NoteCase w s p qty { w with touched := addTake p qty w.touched }
  | room (hbuf : ¬ w.Buffered p) (hroom : w.touched.length < 8) :
      NoteCase w s p qty { w with touched := w.touched ++ [(p, qty)] }
  | slot (u : Sweep k) (hbuf : ¬ w.Buffered p) (hfull : 8 ≤ w.touched.length)
      (hsim : u.sim = if w.Displaces p then
        { w.sim with
          track := w.sim.track.subtractLevel w.sim.book s w.pendingOverflow
            w.pendingOverflowTake true }
        else w.sim)
      (htouched : u.touched = w.touched) (hslot : u.InSlot p)
      (htake : u.pendingOverflowTake
        = (if w.hasPendingOverflow = true then w.pendingOverflowTake else 0) + qty) :
      NoteCase w s p qty u

theorem noteTake_cases (w : Sweep k) (s : Side) (p qty : Int) :
    NoteCase w s p qty (w.noteTake s p qty) := by
  unfold noteTake
  by_cases hbuf : w.Buffered p
  · rw [if_pos ((w.any_touched p).mpr hbuf)]
    exact .place hbuf
  rw [if_neg (fun hh => hbuf ((w.any_touched p).mp hh))]
  by_cases hroom : w.touched.length < 8
  · rw [if_pos hroom]
    exact .room hbuf hroom
  rw [if_neg hroom]
  refine .slot _ hbuf (by omega) ?_ rfl ⟨rfl, rfl⟩ ?_
  · by_cases hd : w.hasPendingOverflow = true ∧ w.pendingOverflow ≠ p
    · exact (if_pos hd).trans (if_pos ⟨hbuf, by omega, hd⟩).symm
    · exact (if_neg hd).trans (if_neg (fun hh => hd hh.2.2)).symm
  · -- the slot's level is compared with itself
    by_cases hp : w.hasPendingOverflow = true
    · rw [if_pos hp]
      exact if_pos ⟨hp, rfl⟩
    · rw [if_neg hp, Int.zero_add]
      exact if_neg (fun hh => hp hh.1)

/-- **What a take changes in the notes.** -/
theorem noteTake_noted (hw : w.Slotted) (s : Side) (p qty q : Int) :
    (w.noteTake s p qty).noted q = if q = p then w.noted p + qty + w.carried p
      else if w.Displaces p ∧ q = w.pendingOverflow then 0 else w.noted q := by
  have hcase := noteTake_cases w s p qty
  generalize w.noteTake s p qty = u at *
  cases hcase with
  -- The price is in the buffer: its sum grows there.
  | place hbuf =>
      have hno : ¬ w.Displaces p := fun hd => hd.1 hbuf
      have hskip : ¬ (w.Displaces p ∧ q = w.pendingOverflow) := fun hh => hno hh.1
      have hsame : ({ w with touched := addTake p qty w.touched } : Sweep k).noted q
          = notedAt (addTake p qty w.touched) q + if w.InSlot q then w.pendingOverflowTake else 0 := rfl
      rw [hsame, notedAt_addTake qty hbuf, if_neg hskip, carried, if_neg hno]
      unfold noted
      by_cases hq : q = p
      · rw [if_pos hq, if_pos hq, hq]
        omega
      · rw [if_neg hq, if_neg hq, Int.add_zero]
  -- The price is new, and the buffer has room for it.
  | room hbuf hroom =>
      have hno : ¬ w.Displaces p := fun hd => absurd hd.2.1 (by omega)
      have hskip : ¬ (w.Displaces p ∧ q = w.pendingOverflow) := fun hh => hno hh.1
      have hsame : ({ w with touched := w.touched ++ [(p, qty)] } : Sweep k).noted q
          = notedAt (w.touched ++ [(p, qty)]) q + if w.InSlot q then w.pendingOverflowTake else 0 := rfl
      rw [hsame, notedAt_append, notedAt_cons, if_neg hskip, carried, if_neg hno]
      unfold noted
      by_cases hq : q = p
      · rw [if_pos hq, if_pos hq.symm, hq]
        simp only [notedAt, List.filter_nil, List.map_nil, List.sum_nil]
        omega
      · rw [if_neg hq, if_neg (fun he => hq he.symm)]
        simp only [notedAt, List.filter_nil, List.map_nil, List.sum_nil]
        omega
  -- The buffer is full: the price takes the overflow slot, and what another price had noted there
  -- is subtracted at once and lost from the notes.
  | slot u hbuf hfull hsim htouched hslot htake =>
      have hzero : notedAt w.touched p = 0 := notedAt_absent hbuf
      have hin : u.InSlot q ↔ q = p := ⟨fun hh => hh.2.symm.trans hslot.2, fun he => he ▸ hslot⟩
      unfold noted carried
      rw [htouched]
      simp only [hin]
      by_cases hq : q = p
      · rw [if_pos hq, if_pos hq, htake, hq, hzero]
        by_cases hp : w.hasPendingOverflow = true
        · rw [if_pos hp]
          by_cases hpp : w.pendingOverflow = p
          · rw [if_pos ⟨hp, hpp⟩, if_neg (fun hd => hd.2.2.2 hpp)]
            omega
          · rw [if_neg (fun hh => hpp hh.2), if_pos ⟨hbuf, hfull, hp, hpp⟩]
            omega
        · rw [if_neg hp, if_neg (fun hh => hp hh.1), if_neg (fun hd => hp hd.2.2.1)]
          omega
      · rw [if_neg hq, if_neg hq]
        by_cases hs : w.InSlot q
        · have hd : w.Displaces p := ⟨hbuf, hfull, hs.1, fun he => hq (hs.2.symm.trans he)⟩
          have hnob : notedAt w.touched q = 0 :=
            notedAt_absent (hs.2 ▸ (hw hs.1).2)
          rw [if_pos ⟨hd, hs.2.symm⟩, hnob]
          rfl
        · rw [if_neg hs, if_neg (fun hh => hs ⟨hh.1.2.2.1, hh.2.symm⟩)]

theorem noteTake_slotted (hw : w.Slotted) (s : Side) (p qty : Int) :
    (w.noteTake s p qty).Slotted := by
  have hcase := noteTake_cases w s p qty
  generalize w.noteTake s p qty = u at *
  cases hcase with
  | place hbuf =>
      intro hp
      obtain ⟨h1, h2⟩ := hw hp
      refine ⟨(addTake_length p qty w.touched).symm ▸ h1, ?_⟩
      rw [Buffered, addTake_keys]
      exact h2
  | room hbuf hroom =>
      intro hp
      exact absurd (hw hp).1 (by omega)
  | slot u hbuf hfull hsim htouched hslot htake =>
      intro _
      rw [Buffered, htouched, hslot.2]
      exact ⟨hfull, hbuf⟩

theorem noted_slot (hw : w.Slotted) (hp : w.hasPendingOverflow = true) :
    w.noted w.pendingOverflow = w.pendingOverflowTake := by
  rw [noted, notedAt_absent (hw hp).2, if_pos ⟨hp, rfl⟩, Int.zero_add]

/-! ## Notes and debts -/

/-- What levels owe after a take of `qty` at `p`; those with a list are `ent`. A level that the
take displaces from the slot is settled for what the slot held. -/
structure Owing (ent : Int → Prop) (w : Sweep k) (p qty : Int) (due due' : Int → Int) : Prop where
  taken : due' p = due p + qty
  other : ∀ q, q ≠ p → ¬ (w.Displaces p ∧ q = w.pendingOverflow) → due' q = due q
  entry : w.Displaces p → ent w.pendingOverflow →
    due' w.pendingOverflow = due w.pendingOverflow - w.pendingOverflowTake
  vacant : w.Displaces p → ¬ ent w.pendingOverflow → due' w.pendingOverflow = 0

/-- **The notes say what levels owe**, but for the units `debt` that the slot has carried over
from one level to the next. -/
structure Notes (ent : Int → Prop) (w : Sweep k) (due debt : Int → Int) : Prop where
  slotted : w.Slotted
  nonneg : ∀ p, 0 ≤ w.noted p
  entry : ∀ p, ent p → due p = w.noted p - debt p
  /-- A level without a list is walked, so what is carried over to it does no harm. -/
  vacant : ∀ p, ¬ ent p → 0 ≤ due p ∧ (due p = 0 ↔ w.noted p = 0)

theorem Notes.same (h : Notes ent w due debt) (hs : SameNotes w w') : Notes ent w' due debt where
  slotted := hs.slotted h.slotted
  nonneg p := by rw [hs.noted]; exact h.nonneg p
  entry p he := by rw [hs.noted]; exact h.entry p he
  vacant p he := by rw [hs.noted]; exact h.vacant p he

/-- Nothing has been noted. -/
theorem Notes.start (ent : Int → Prop) (sim : ExecutionSimulator k) (remaining : Int) :
    Notes ent (sim.crossStart remaining) (fun _ => 0) (fun _ => 0) where
  slotted hp := Bool.noConfusion hp
  nonneg _ := Int.le_refl 0
  entry _ _ := rfl
  vacant _ _ := ⟨Int.le_refl 0, Iff.rfl⟩

theorem Notes.carried_nonneg (h : Notes ent w due debt) (p : Int) : 0 ≤ w.carried p := by
  unfold carried
  split
  · rename_i hd
    rw [← noted_slot h.slotted hd.2.2.1]
    exact h.nonneg _
  · exact Int.le_refl 0

/-- **A take is noted.** -/
theorem Notes.taken (h : Notes ent w due debt) (ho : Owing ent w p qty due due') (hq : 0 < qty)
    (s : Side) :
    Notes ent (w.noteTake s p qty) due' (fun q => debt q + if q = p then w.carried p else 0) := by
  have hcarried := h.carried_nonneg p
  refine { slotted := noteTake_slotted h.slotted s p qty, nonneg := fun q => ?_,
           entry := fun q he => ?_, vacant := fun q he => ?_ }
  · have := h.nonneg p
    rw [noteTake_noted h.slotted]
    split_ifs
    · omega
    · exact Int.le_refl 0
    · exact h.nonneg q
  · rw [noteTake_noted h.slotted]
    by_cases hqp : q = p
    · subst hqp
      have := h.entry q he
      rw [if_pos rfl, if_pos rfl, ho.taken]
      omega
    rw [if_neg hqp, if_neg hqp, Int.add_zero]
    by_cases hd : w.Displaces p ∧ q = w.pendingOverflow
    · obtain ⟨hd, rfl⟩ := hd
      have := h.entry _ he
      rw [noted_slot h.slotted hd.2.2.1] at this
      rw [if_pos ⟨hd, rfl⟩, ho.entry hd he]
      omega
    · rw [if_neg hd, ho.other q hqp hd]
      exact h.entry q he
  · rw [noteTake_noted h.slotted]
    by_cases hqp : q = p
    · subst hqp
      have hdue := (h.vacant q he).1
      have hnoted := h.nonneg q
      rw [if_pos rfl, ho.taken]
      exact ⟨by omega, by omega⟩
    rw [if_neg hqp]
    by_cases hd : w.Displaces p ∧ q = w.pendingOverflow
    · obtain ⟨hd, rfl⟩ := hd
      rw [if_pos ⟨hd, rfl⟩, ho.vacant hd he]
      exact ⟨Int.le_refl 0, Iff.rfl⟩
    · rw [if_neg hd, ho.other q hqp hd]
      exact h.vacant q he

/-- What is owed once the displaced level has been settled. -/
structure Displaced (ent : Int → Prop) (w : Sweep k) (p : Int) (due mid : Int → Int) : Prop where
  other : ∀ q, ¬ (w.Displaces p ∧ q = w.pendingOverflow) → mid q = due q
  entry : w.Displaces p → ent w.pendingOverflow →
    mid w.pendingOverflow = due w.pendingOverflow - w.pendingOverflowTake
  vacant : w.Displaces p → ¬ ent w.pendingOverflow → mid w.pendingOverflow = 0

/-- The take is owed after it has been noted. -/
theorem Displaced.then_taken (h : Displaced ent w p due mid) (qty : Int) :
    Owing ent w p qty due (bump mid p qty) where
  taken := by rw [bump_self, h.other p (fun hh => hh.1.2.2.2 hh.2.symm)]
  other q hq hd := by rw [bump_other mid qty hq, h.other q hd]
  entry hd he := by rw [bump_other mid qty hd.2.2.2, h.entry hd he]
  vacant hd he := by rw [bump_other mid qty hd.2.2.2, h.vacant hd he]

/-- The take is owed before it is noted. -/
theorem Displaced.of_taken (h : Displaced ent w p (bump due p qty) mid) :
    Owing ent w p qty due mid where
  taken := by rw [h.other p (fun hh => hh.1.2.2.2 hh.2.symm), bump_self]
  other q hq hd := by rw [h.other q hd, bump_other due qty hq]
  entry hd he := by rw [h.entry hd he, bump_other due qty hd.2.2.2]
  vacant hd he := h.vacant hd he

/-- **Noting a take** settles the level that it displaces, and no other. -/
theorem noteTake_owes (h : SimInv cfg w.sim) (ho : w.sim.Owes opp due) (p qty : Int) :
    ∃ mid, Displaced (w.sim.track.HasEntry opp) w p due mid
      ∧ (w.noteTake opp p qty).sim.Owes opp mid := by
  have hcase := noteTake_cases w opp p qty
  generalize w.noteTake opp p qty = u at *
  have hstay : ¬ w.Displaces p → Displaced (w.sim.track.HasEntry opp) w p due due := fun hno =>
    ⟨fun _ _ => rfl, fun hd => absurd hd hno, fun hd => absurd hd hno⟩
  cases hcase with
  | place hbuf => exact ⟨due, hstay (fun hd => hd.1 hbuf), ho⟩
  | room hbuf hroom => exact ⟨due, hstay (fun hd => absurd hd.2.1 (by omega)), ho⟩
  | slot u hbuf hfull hsim htouched hslot htake =>
      rw [hsim]
      by_cases hd : w.Displaces p
      · obtain ⟨mid, hc, t, rfl, _, _, howes⟩ := ho.clear h w.pendingOverflow w.pendingOverflowTake
        rw [if_pos hd]
        exact ⟨mid, ⟨fun q hq => hc.other q (fun he => hq ⟨hd, he⟩), fun _ => hc.entry,
          fun _ => hc.vacant⟩, howes⟩
      · rw [if_neg hd]
        exact ⟨due, hstay hd, ho⟩

end Sweep

end Mog
