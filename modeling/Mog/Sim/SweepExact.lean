import Mog.Sim.PostPass

/-!
# Positions across a sweep

A pass takes from one level and notes it, so the notes keep saying what is owed. A sweep
that runs to its end settles them and leaves a level wrong where units were carried over
to it. A sweep that self-trade prevention stops settles nothing.

The tally combines what levels owe and what the sweep has noted, and every kind of pass keeps
it. An order that prevention decrements or removes is noted like one that is filled. From the
tally at the end of the loop the positions after the decision are computed, price by price, and
they are exact where nothing was carried over and the sweep was not stopped.
-/

namespace Mog

open QueueSum TrackTable

namespace ExecutionSimulator

variable {k : Nat} {cfg : SimConfig} {sim sim' : ExecutionSimulator k} {i : Nat} {take : Int}

/-- A take that leaves nothing of its order leaves nothing to sync. -/
theorem Taken.unsynced (ht : Taken cfg sim sim' i take) (h' : SimInv cfg sim')
    (hun : Unsynced cfg sim) (hall : sim.book.rem i = take) : Unsynced cfg sim' := by
  intro j hj
  rcases ht.hit j hj with ⟨rfl, _, hrem⟩ | ⟨_, hsync, _⟩
  · have := h'.book.pos j hj.1
    omega
  · exact fun hs => hun j (ht.own j hj).1 (hsync.mp hs)

end ExecutionSimulator

namespace Sweep

open ExecutionSimulator

variable {k : Nat} {cfg : SimConfig} {w w' : Sweep k} {order : SimInbound} {opp : Side}
  {due debt : Int → Int} {p take : Int} {i : Nat} {l : List Nat}

/-- What levels owe is what the notes say, but for the units that have been carried over. -/
structure Tally (opp : Side) (w : Sweep k) (due debt : Int → Int) : Prop where
  notes : Notes (w.sim.track.HasEntry opp) w due debt
  owes : w.sim.Owes opp due

theorem Noted.unsynced (hn : Noted cfg w w') (h : Unsynced cfg w.sim) : Unsynced cfg w'.sim := by
  obtain ⟨t, hs, hsame⟩ := hn.sim
  rw [hs]
  intro j hj
  show j ∉ t.recentSync
  rw [hsame.recentSync]
  exact h j hj

theorem Noted.entry (hn : Noted cfg w w') (s : Side) (p : Int) :
    w'.sim.track.HasEntry s p ↔ w.sim.track.HasEntry s p := by
  obtain ⟨t, hs, hsame⟩ := hn.sim
  rw [hs]
  exact hsame.entry s p

theorem Notes.entries {ent ent' : Int → Prop} (h : Notes ent w due debt) (he : ∀ p, ent' p ↔ ent p) :
    Notes ent' w due debt where
  slotted := h.slotted
  nonneg := h.nonneg
  entry p hp := h.entry p ((he p).mp hp)
  vacant p hp := h.vacant p (fun hh => hp ((he p).mpr hh))

/-- Nothing is owed when a sweep starts from exact positions. -/
theorem Tally.start {sim : ExecutionSimulator k} (hex : Exact sim.book sim.track) (opp : Side)
    (remaining : Int) : Tally opp (sim.crossStart remaining) (fun _ => 0) (fun _ => 0) where
  notes := .start _ sim remaining
  owes := by
    have hstart : Exact (sim.crossStart remaining).sim.book (sim.crossStart remaining).sim.track := hex
    exact owes_of_exact hstart opp

/-- A take that is noted after it is owed. -/
theorem Tally.then_noted (ht : Tally opp w due debt) {mid : ExecutionSimulator k}
    (h : SimInv cfg mid) (hq : 0 < take) (ho : mid.Owes opp (bump due p take))
    (hent : ∀ s q, mid.track.HasEntry s q ↔ w.sim.track.HasEntry s q) :
    ∃ due', Tally opp (Sweep.noteTake { w with sim := mid } opp p take) due'
      (fun q => debt q + if q = p then w.carried p else 0) := by
  obtain ⟨due', hdisp, howes⟩ := noteTake_owes (w := { w with sim := mid }) h ho p take
  have hn := noteTake_spec (w := { w with sim := mid }) h opp p take
  have hsame : SameNotes w { w with sim := mid } := ⟨rfl, rfl, rfl, rfl⟩
  have hnotes := (ht.notes.same hsame).entries (hent opp)
  exact ⟨due', (hnotes.taken hdisp.of_taken hq opp).entries (hn.entry opp), howes⟩

/-- A take that is noted before it is owed. -/
theorem Tally.matched (ht : Tally opp w due debt) (h : SimInv cfg w.sim)
    (hun : Unsynced cfg w.sim) (hf : w.sim.book.Front opp p i l) (hpos : 0 < take)
    (htake : take = min w.remaining (w.sim.book.rem i)) :
    ∃ due', Tally opp (w.matchHead cfg opp p (w.sim.book.order i).orderRef
        (w.sim.book.findHandle (w.sim.book.order i).orderRef) take) due'
        (fun q => debt q + if q = p then w.carried p else 0)
      ∧ (0 < w.remaining - take → Unsynced cfg (w.matchHead cfg opp p (w.sim.book.order i).orderRef
        (w.sim.book.findHandle (w.sim.book.order i).orderRef) take).sim) := by
  have hn := noteTake_spec h opp p take
  obtain ⟨hbook, -, -, -, -⟩ := hn.fields
  obtain ⟨mid, hdisp, howes⟩ := noteTake_owes h ht.owes p take
  have hnotes := ht.notes.taken (hdisp.then_taken take) hpos opp
  unfold matchHead
  dsimp only
  generalize w.noteTake opp p take = u at *
  have hle : take ≤ u.sim.book.rem i := by
    rw [hbook]
    omega
  have hunu := hn.unsynced hun
  rw [← hbook] at hf
  have he := reduceAndSync_spec hn.inv.book hn.inv.mirror hf hpos hle true
  rw [hbook] at he
  generalize u.sim.reduceAndSync cfg opp (w.sim.book.order i).orderRef p take true
    (w.sim.book.findHandle (w.sim.book.order i).orderRef) = mid' at *
  have hinv := hn.inv.executed he
  have hlive := hf.live
  have hred := he.book
  obtain ⟨hinv', hshown⟩ := shown_spec hn.inv hinv hlive hred
  rw [hbook] at hinv' hshown
  have htaken := he.taken.shown hinv hshown
  have hsame : SameNotes u (({ u with
      sim := mid'.replenishIfIceberg (w.sim.book.order i).orderRef } : Sweep k).count p take) :=
    ⟨rfl, rfl, rfl, rfl⟩
  refine ⟨bump mid p take, ⟨?_, (howes.executed hn.inv hunu hf he).shown hinv hshown⟩, fun hrem => ?_⟩
  · exact (hnotes.same hsame).entries (fun q => (htaken.entry opp q).trans (hn.entry opp q))
  · refine htaken.unsynced hinv' hunu ?_
    rw [hbook]
    omega

/-- The ledger owes nobody. -/
theorem Tally.tap (ht : Tally opp w due debt) (s : Side) (price : Int) :
    Tally opp (w.tap cfg s price) due debt :=
  ⟨ht.notes.same ⟨rfl, rfl, rfl, rfl⟩, ht.owes⟩

/-- A victim that is removed. -/
theorem Tally.removed (ht : Tally opp w due debt) (h : SimInv cfg w.sim) (hun : Unsynced cfg w.sim)
    (hf : w.sim.book.Front opp p i l) :
    ∃ due', Tally opp (w.removeVictim opp p (w.sim.book.order i).orderRef
        (w.sim.book.findHandle (w.sim.book.order i).orderRef) (w.sim.book.rem i)) due'
        (fun q => debt q + if q = p then w.carried p else 0)
      ∧ Unsynced cfg (w.removeVictim opp p (w.sim.book.order i).orderRef
        (w.sim.book.findHandle (w.sim.book.order i).orderRef) (w.sim.book.rem i)).sim := by
  have hw := withdrawn_spec h.book h.mirror hf.live
  unfold removeVictim
  rw [hf.handle]
  generalize ({ w.sim with
    book := (w.sim.book.remove (w.sim.book.order i).orderRef).book
    track := w.sim.track.retire i } : ExecutionSimulator k) = mid at *
  have hmid := h.withdrawn hw
  obtain ⟨due', ht'⟩ := ht.then_noted hmid (h.book.pos i hf.live) (ht.owes.withdrawn h hun hf hw)
    hw.same.entry
  have hn := noteTake_spec (w := { w with sim := mid }) hmid opp p (w.sim.book.rem i)
  exact ⟨due', ht', hn.unsynced (hw.taken.unsynced hmid hun rfl)⟩

/-- A victim that is decremented. -/
theorem Tally.decremented (ht : Tally opp w due debt) (h : SimInv cfg w.sim)
    (hun : Unsynced cfg w.sim) (hf : w.sim.book.Front opp p i l)
    (htake : take = min (w.sim.book.rem i) w.remaining) (hpos : 0 < take) :
    ∃ due', Tally opp (w.decrementVictim cfg opp p (w.sim.book.order i).orderRef
        (w.sim.book.findHandle (w.sim.book.order i).orderRef) (w.sim.book.rem i)) due'
        (fun q => debt q + if q = p then w.carried p else 0)
      ∧ (0 < w.remaining - take → Unsynced cfg (w.decrementVictim cfg opp p
        (w.sim.book.order i).orderRef (w.sim.book.findHandle (w.sim.book.order i).orderRef)
        (w.sim.book.rem i)).sim) := by
  have he := reduceAndSync_spec h.book h.mirror hf hpos (by omega) false
  unfold decrementVictim
  dsimp only
  rw [← htake]
  generalize w.sim.reduceAndSync cfg opp (w.sim.book.order i).orderRef p take false
    (w.sim.book.findHandle (w.sim.book.order i).orderRef) = mid at *
  have hmid := h.executed he
  obtain ⟨due', ht'⟩ := ht.then_noted hmid hpos (ht.owes.executed h hun hf he) he.entry
  have hn := noteTake_spec (w := { w with sim := mid }) hmid opp p take
  obtain ⟨hbook, -, -, -, -⟩ := hn.fields
  have hred := he.book
  rw [← hbook] at hred
  generalize Sweep.noteTake { w with sim := mid } opp p take = u at *
  obtain ⟨hinv, hshown⟩ := shown_spec h hn.inv hf.live hred
  have hsame : SameNotes u (({ u with
      sim := u.sim.replenishIfIceberg (w.sim.book.order i).orderRef } : Sweep k).count p take) :=
    ⟨rfl, rfl, rfl, rfl⟩
  refine ⟨due', ⟨(ht'.notes.same hsame).entries (fun q => ?_), ht'.owes.shown hn.inv hshown⟩,
    fun hrem => ?_⟩
  · show (u.sim.replenishIfIceberg _).track.HasEntry opp q ↔ _
    rw [Shown.track hshown]
  · have hall : w.sim.book.rem i = take := by omega
    have hund := hn.unsynced (he.taken.unsynced hmid hun hall)
    intro j hj
    show j ∉ (u.sim.replenishIfIceberg _).track.recentSync
    rw [Shown.track hshown]
    exact hund j ((Shown.own hshown hn.inv j).1.mp hj)

/-! ## Whole sweeps -/

/-- What a pass carries over to level `p`: it takes at the level, and displaces another one. -/
def carries (w : Sweep k) (cfg : SimConfig) (order : SimInbound) (p : Int) : Int :=
  match w.step cfg order with
  | .more _ =>
      if p = w.sim.book.best order.side.opp
          ∧ ¬ hiddenBetter order.side (w.sim.bestHiddenPrice order.side.opp)
            (w.sim.book.best order.side.opp) then w.carried p
      else 0
  | .leave => 0
  | .stpStop => 0

/-- What the passes `us` of a sweep carry over to level `p`. -/
def carriedOver (cfg : SimConfig) (order : SimInbound) (us : List (Sweep k)) (p : Int) : Int :=
  (us.map (fun u => u.carries cfg order p)).sum

theorem AtTouch.carries (ht : AtTouch order w i l) (hstep : w.step cfg order = .more w') (q : Int) :
    w.carries cfg order q = if q = w.sim.book.best order.side.opp then
      w.carried (w.sim.book.best order.side.opp) else 0 := by
  unfold Sweep.carries
  rw [hstep]
  dsimp only
  by_cases hq : q = w.sim.book.best order.side.opp
  · rw [if_pos ⟨hq, ht.ahead⟩, if_pos hq, hq]
  · rw [if_neg (fun hh => hq hh.1), if_neg hq]

/-- **A pass keeps the tally.** -/
theorem Tally.pass (ht : Tally order.side.opp w due debt) (h : SimInv cfg w.sim)
    (hun : Unsynced cfg w.sim) (hrem : 0 < w.remaining) (hstep : w.step cfg order = .more w') :
    ∃ due', Tally order.side.opp w' due' (fun q => debt q + w.carries cfg order q)
      ∧ (0 < w'.remaining → Unsynced cfg w'.sim) := by
  have hcase := step_cases order h
  rw [hstep] at hcase
  cases hcase with
  | tap hbetter hbound =>
      have hzero : (fun q => debt q + w.carries cfg order q) = debt := by
        funext q
        unfold Sweep.carries
        rw [hstep]
        dsimp only
        rw [if_neg (fun hh => hh.2 hbetter), Int.add_zero]
      rw [hzero]
      exact ⟨due, ht.tap _ _, fun _ => hun⟩
  | execute i l hat hfree =>
      have hpos : 0 < min w.remaining (w.sim.book.rem i) := by
        have := h.book.pos i hat.front.live
        omega
      obtain ⟨due', ht', hun'⟩ := ht.matched h hun hat.front hpos rfl
      obtain ⟨_, hhit⟩ := matchSlot_hit h hrem hat
      change 0 < w.remaining - min w.remaining (w.sim.book.rem i) →
        Unsynced cfg (w.matchSlot cfg order i).sim at hun'
      rw [← hhit.remaining] at hun'
      simp only [hat.carries hstep]
      rw [executeSlot_eq]
      split
      · rename_i hleft
        exact ⟨due', ht'.tap _ _, fun _ => hun' hleft⟩
      · rename_i hleft
        exact ⟨due', ht', fun hh => absurd hh hleft⟩
  | remove i l hat hown hstp =>
      obtain ⟨due', ht', hun'⟩ := ht.removed h hun hat.front
      simp only [hat.carries hstep]
      exact ⟨due', ht', fun _ => hun'⟩
  | decrement i l hat hown hstp =>
      have hpos := h.book.pos i hat.front.live
      obtain ⟨due', ht', hun'⟩ := ht.decremented h hun hat.front rfl (by omega)
      obtain ⟨_, hhit⟩ := decrementVictim_hit h hat.front rfl (by omega)
      rw [← hhit.remaining] at hun'
      simp only [hat.carries hstep]
      exact ⟨due', ht', hun'⟩

/-- **A sweep keeps the tally.** -/
theorem Tally.loop (order : SimInbound) : ∀ fuel {w : Sweep k} {due debt : Int → Int},
    Tally order.side.opp w due debt → SimInv cfg w.sim →
    (0 < w.remaining → Unsynced cfg w.sim) →
    ∃ due', Tally order.side.opp (w.loop cfg order fuel).1 due'
        (fun q => debt q + carriedOver cfg order (passes cfg order fuel w) q)
      ∧ (0 < (w.loop cfg order fuel).1.remaining →
        Unsynced cfg (w.loop cfg order fuel).1.sim) := by
  intro fuel
  induction fuel with
  | zero =>
      intro w due debt ht h hun
      refine ⟨due, ?_, hun⟩
      have hzero : (fun q => debt q + carriedOver cfg order (passes cfg order 0 w) q) = debt := by
        funext q
        exact Int.add_zero _
      rw [hzero]
      exact ht
  | succ fuel ih =>
      intro w due debt ht h hun
      unfold carriedOver
      rw [Sweep.loop, passes]
      by_cases hrem : w.remaining ≤ 0
      · rw [if_pos hrem, if_pos hrem]
        simp only [List.map_nil, List.sum_nil, Int.add_zero]
        exact ⟨due, ht, hun⟩
      rw [if_neg hrem, if_neg hrem]
      have hpos : 0 < w.remaining := by omega
      -- a pass that ends the sweep carries nothing over
      have hlast : ∀ q, (w.step cfg order).ends ≠ none → w.carries cfg order q = 0 := by
        intro q he
        unfold Sweep.carries
        cases hs : w.step cfg order with
        | more w' => rw [hs] at he; exact absurd rfl he
        | leave => rfl
        | stpStop => rfl
      cases hs : w.step cfg order with
      | more w' =>
          obtain ⟨due', ht', hun'⟩ := ht.pass h (hun hpos) hpos hs
          obtain ⟨due'', ht'', hun''⟩ := ih ht' (step_more h hpos hs).1 hun'
          simp only [List.map_cons, List.sum_cons]
          simp only [Int.add_assoc] at ht''
          exact ⟨due'', ht'', hun''⟩
      | leave | stpStop =>
          rw [hs] at hlast
          simp only [List.map_cons, List.map_nil, List.sum_cons, List.sum_nil]
          have hq : ∀ q, w.carries cfg order q = 0 := fun q => hlast q (Option.some_ne_none _)
          simp only [hq, Int.add_zero]
          exact ⟨due, ht, hun⟩

/-! ## The post-pass -/

/-- The notes in the order in which the post-pass settles them. -/
def notes (w : Sweep k) : List (Int × Int) :=
  (if w.hasPendingOverflow = true then [(w.pendingOverflow, w.pendingOverflowTake)] else [])
    ++ w.touched

theorem notedAt_notes (w : Sweep k) (p : Int) : notedAt w.notes p = w.noted p := by
  rw [notes, notedAt_append, noted, Int.add_comm]
  congr 1
  by_cases hp : w.hasPendingOverflow = true
  · rw [if_pos hp, notedAt_cons]
    by_cases hpp : w.pendingOverflow = p
    · rw [if_pos hpp, if_pos ⟨hp, hpp⟩]
      exact Int.add_zero _
    · rw [if_neg hpp, if_neg (fun hh => hpp hh.2)]
      exact Int.add_zero _
  · rw [if_neg hp, if_neg (fun hh => hp hh.1)]
    rfl

/-- Each of the levels noted in `l` subtracted in turn. -/
def subtractAll (b : OrderBook k) (opp : Side) (l : List (Int × Int)) (t : TrackTable) : TrackTable :=
  l.foldl (fun t x => t.subtractLevel b opp x.1 x.2 true) t

theorem settle_eq (w : Sweep k) (opp : Side) :
    w.settle opp = { w.sim with track := subtractAll w.sim.book opp w.notes w.sim.track } := by
  unfold settle subtractAll notes
  dsimp only
  rw [List.foldl_append]
  by_cases hp : w.hasPendingOverflow = true
  · rw [if_pos hp, if_pos hp]
    rfl
  · rw [if_neg hp, if_neg hp]
    rfl

/-- What levels owe once the notes of `l` have been settled. -/
structure Settled (ent : Int → Prop) (l : List (Int × Int)) (due due' : Int → Int) : Prop where
  entry : ∀ p, ent p → due' p = due p - notedAt l p
  vacant : ∀ p, ¬ ent p → due' p = if p ∈ l.map Prod.fst then 0 else due p

theorem subtractAll_settles {sim : ExecutionSimulator k} (l : List (Int × Int)) :
    ∀ (t : TrackTable) (due : Int → Int), SimInv cfg { sim with track := t } →
      ({ sim with track := t } : ExecutionSimulator k).Owes opp due →
      ∃ due', Settled (t.HasEntry opp) l due due' ∧ SameLevels t (subtractAll sim.book opp l t)
        ∧ ({ sim with track := subtractAll sim.book opp l t } : ExecutionSimulator k).Owes opp due' := by
  induction l with
  | nil =>
      intro t due h ho
      refine ⟨due, ⟨fun p _ => (Int.sub_zero _).symm, fun p _ => (if_neg List.not_mem_nil).symm⟩,
        SameLevels.refl t, ho⟩
  | cons x l ih =>
      intro t due h ho
      obtain ⟨mid, hc, t', rfl, hsame, hinv, howes⟩ := ho.clear h x.1 x.2
      obtain ⟨due', hset, hsame', howes'⟩ := ih _ mid hinv howes
      refine ⟨due', ⟨fun p he => ?_, fun p he => ?_⟩, hsame.trans hsame', howes'⟩
      · rw [hset.entry p ((hsame.entry opp p).mpr he), notedAt_cons]
        by_cases hp : x.1 = p
        · subst hp
          rw [if_pos rfl, hc.entry he]
          omega
        · rw [if_neg hp, hc.other p (fun hh => hp hh.symm)]
          omega
      · rw [hset.vacant p (fun hh => he ((hsame.entry opp p).mp hh)), List.map_cons]
        by_cases hl : p ∈ l.map Prod.fst
        · rw [if_pos hl, if_pos (List.mem_cons_of_mem _ hl)]
        rw [if_neg hl]
        by_cases hp : x.1 = p
        · subst hp
          rw [if_pos List.mem_cons_self, hc.vacant he]
        · rw [if_neg (fun hh => hl ((List.mem_cons.mp hh).resolve_left (fun he => hp he.symm))),
            hc.other p (fun hh => hp hh.symm)]

/-- **The post-pass** settles every level but those that units have been carried over to. -/
theorem Tally.settled (ht : Tally opp w due debt) (h : SimInv cfg w.sim) :
    ∃ due', (w.settle opp).Owes opp due' ∧ SameLevels w.sim.track (w.settle opp).track
      ∧ ∀ p, due' p = 0 ↔ ¬ (w.sim.track.HasEntry opp p ∧ debt p ≠ 0) := by
  obtain ⟨due', hset, hsame, howes⟩ := subtractAll_settles w.notes w.sim.track due h ht.owes
  rw [settle_eq]
  refine ⟨due', howes, hsame, fun p => ?_⟩
  by_cases he : w.sim.track.HasEntry opp p
  · have h1 := hset.entry p he
    have h2 := ht.notes.entry p he
    rw [notedAt_notes] at h1
    rw [and_iff_right he, not_not]
    omega
  · have h1 := hset.vacant p he
    refine iff_of_true ?_ (fun hh => he hh.1)
    by_cases hm : p ∈ w.notes.map Prod.fst
    · rw [h1, if_pos hm]
    · rw [h1, if_neg hm, (ht.notes.vacant p he).2, ← notedAt_notes, notedAt_absent hm]

/-- Before the post-pass a level owes nothing if its notes are what was carried over to it. -/
theorem Tally.unsettled (ht : Tally opp w due debt) (p : Int) :
    due p = 0 ↔ ¬ ((w.sim.track.HasEntry opp p → w.noted p ≠ debt p)
      ∧ (¬ w.sim.track.HasEntry opp p → w.noted p ≠ 0)) := by
  by_cases he : w.sim.track.HasEntry opp p
  · have h1 := ht.notes.entry p he
    rw [and_iff_left (fun hno => absurd he hno), Classical.not_imp, not_not, and_iff_right he]
    omega
  · rw [and_iff_right (fun hh => absurd hh he), Classical.not_imp, not_not, and_iff_right he]
    exact (ht.notes.vacant p he).2

end Sweep

namespace ExecutionSimulator

open Sweep

variable {k : Nat} {cfg : SimConfig} {sim sim' : ExecutionSimulator k} {order o : SimInbound}
  {opp : Side} {due : Int → Int} {off : Nat → Int} {ts : Nat}

/-! ## Decisions -/

/-- Level `p` of side `s` keeps an order of the strategy that the sweep has not synced. -/
def Keeps (cfg : SimConfig) (sim : ExecutionSimulator k) (s : Side) (p : Int) : Prop :=
  ∃ j, sim.book.Own cfg.externalRefLimit j ∧ sim.book.OnSide s p j ∧ j ∉ sim.track.recentSync

theorem Owes.exact_iff_keeps (ho : sim.Owes opp due) (h : SimInv cfg sim) :
    Exact sim.book sim.track ↔ ∀ p, Keeps cfg sim opp p → due p = 0 := by
  rw [ho.exact_iff h]
  constructor
  · rintro hz p ⟨j, hown, ⟨hside, hprice⟩, hno⟩
    rw [← hprice]
    exact hz j hown hside hno
  · exact fun hz j hown hside hno => hz _ ⟨j, hown, ⟨hside, rfl⟩, hno⟩

/-- The ways in which the sweep of `o` leaves a position of the strategy wrong. -/
inductive Misplaces (cfg : SimConfig) (sim : ExecutionSimulator k) (o : SimInbound) (ts : Nat) :
    Prop where
  /-- It is stopped by self-trade prevention with takes noted at a level that keeps an order of
  the strategy. Units carried over to the level could make up for them. -/
  | stopped (w : Sweep k) (p : Int)
      (hloop : (sim.opened cfg ts).crossLoop cfg o o.qty = (w, .stpStop))
      (hkeeps : Keeps cfg w.sim o.side.opp p)
      (hnoted : (w.sim.track.HasEntry o.side.opp p →
          w.noted p ≠ carriedOver cfg o (sim.sweepPasses cfg o ts) p)
        ∧ (¬ w.sim.track.HasEntry o.side.opp p → w.noted p ≠ 0))
  /-- It ends by itself, and units of another level have been carried over in the overflow slot
  to a level that keeps an order of the strategy. -/
  | carried (w : Sweep k) (p : Int)
      (hloop : (sim.opened cfg ts).crossLoop cfg o o.qty = (w, .done))
      (hkeeps : Keeps cfg w.sim o.side.opp p)
      (hcarried : w.sim.track.HasEntry o.side.opp p
        ∧ carriedOver cfg o (sim.sweepPasses cfg o ts) p ≠ 0)

/-- Placing a remainder moves nobody, and places it behind its level. -/
theorem FinishCase.exact_iff {remaining : Int} {out : SimDecision} {vis : Nat}
    (hf : FinishCase sim o remaining out vis sim') (h : SimInv cfg sim)
    (hn : o.Named cfg.externalRefLimit) :
    Exact sim'.book sim'.track ↔ Exact sim.book sim.track := by
  cases hf with
  | refused => exact Iff.rfl
  | ledger => exact Iff.rfl
  | cancelled => exact Iff.rfl
  | displayed i b hrests hshown hadd hr =>
      obtain ⟨off, hoff⟩ := exists_off sim.book sim.track
      obtain ⟨_, hoff', hrest⟩ := trackResting_spec h.mirror h.book hoff hr hn.1 hn.2
      have hdead : sim.track.at? i = none := by
        by_contra hat
        exact hr.fresh ((h.mirror.at?_iff i).mp hat).1
      change Exact b (sim.track.trackResting b o.ref o.side remaining o.price) ↔ _
      constructor
      · intro hex j v hv
        have hji : j ≠ i := fun he => by
          rw [he, hdead] at hv
          exact Option.some_ne_none v hv.symm
        have h1 := hoff j v hv
        rw [← hrest.at_other j hji] at hv
        have h2 := hex j v hv
        have h3 := hoff' j v hv
        dsimp only at h2 h3 ⊢
        rw [if_neg hji] at h3
        omega
      · intro hex j v hv
        have h1 := hoff' j v hv
        dsimp only at h1 ⊢
        by_cases hji : j = i
        · rw [if_pos hji] at h1
          exact h1
        · rw [hrest.at_other j hji] at hv
          rw [if_neg hji] at h1
          have h2 := hoff j v hv
          have h3 := hex j v hv
          dsimp only at h3
          omega

/-- A decision that does not sweep keeps positions exact. -/
theorem unswept_exact (h : SimInv cfg sim) (hn : order.Named cfg.externalRefLimit)
    (hex : Exact sim.book sim.track) (hno : ∀ o, ¬ sim.Sweeps order o) (ts : Nat) :
    Exact (sim.decide cfg order ts).book (sim.decide cfg order ts).track := by
  have hopen := Exchanges.inv h (opened_exchanges h ts)
  have hd := decide_cases h order ts
  generalize sim.decide cfg order ts = r at hd
  cases hd with
  | unpriced => exact hex
  | duplicate => exact hex
  | wouldCross => exact hex
  | placed o vis _ hr hfree hpost hnot hf =>
      obtain ⟨href, _⟩ := resolved_fields hr
      exact (hf.exact_iff hopen (by rw [SimInbound.Named, href]; exact hn)).mpr hex
  | stopped o vis w hr hfree htype hcross hpos =>
      obtain ⟨_, _, _, ht⟩ := resolved_fields hr
      exact absurd ⟨hr, hfree, ht ▸ htype, hcross, hpos⟩ (hno o)
  | swept o vis w _ hr hfree htype hcross hpos =>
      obtain ⟨_, _, _, ht⟩ := resolved_fields hr
      exact absurd ⟨hr, hfree, ht ▸ htype, hcross, hpos⟩ (hno o)

/-- **A decision that sweeps.** -/
theorem swept_exact_iff (h : SimInv cfg sim) (hn : order.Named cfg.externalRefLimit)
    (hex : Exact sim.book sim.track) (hs : sim.Sweeps order o) (ts : Nat) :
    Exact (sim.decide cfg order ts).book (sim.decide cfg order ts).track
      ↔ ¬ Misplaces cfg sim o ts := by
  obtain ⟨href, _⟩ := resolved_fields hs.1
  have hopen := Exchanges.inv h (opened_exchanges h ts)
  obtain ⟨w, hw, hm, hcase⟩ := decide_swept h hs ts
  have hstart : Tally o.side.opp ((sim.opened cfg ts).crossStart o.qty) (fun _ => 0) (fun _ => 0) := by
    have hopened : Exact (sim.opened cfg ts).book (sim.opened cfg ts).track := hex
    exact .start hopened o.side.opp o.qty
  obtain ⟨due, ht, -⟩ := hstart.loop o ((sim.opened cfg ts).crossStart o.qty).fuel hopen.clearSync
    (fun _ j _ => List.not_mem_nil)
  change Tally o.side.opp ((sim.opened cfg ts).crossLoop cfg o o.qty).1 due
    (fun q => 0 + carriedOver cfg o (sim.sweepPasses cfg o ts) q) at ht
  simp only [Int.zero_add] at ht
  generalize sim.decide cfg order ts = r at *
  cases hcase with
  | stopped vis hloop hrem hstop =>
      rw [hloop] at ht
      have hiff := ht.owes.exact_iff_keeps hw
      constructor
      · rintro hexact (⟨w', p, hloop', hkeeps, hnoted⟩ | ⟨w', p, hloop', _⟩)
        · rw [hloop] at hloop'
          obtain ⟨rfl, -⟩ := Prod.mk.inj hloop'
          exact (ht.unsettled p).mp (hiff.mp hexact p hkeeps) hnoted
        · rw [hloop] at hloop'
          exact SweepEnd.noConfusion (Prod.mk.inj hloop').2
      · refine fun hno => hiff.mpr (fun p hkeeps => (ht.unsettled p).mpr (fun hnoted => ?_))
        exact hno (.stopped w p hloop hkeeps hnoted)
  | done vis _ hloop hend hf =>
      rw [hloop] at ht
      obtain ⟨due', howes, hsame, hzero⟩ := ht.settled hw
      have hset := Sweep.settle_inv hw o.side.opp
      have hkeeps : ∀ p, Keeps cfg (w.settle o.side.opp) o.side.opp p ↔ Keeps cfg w.sim o.side.opp p := by
        intro p
        unfold Keeps
        rw [hsame.recentSync]
        rfl
      have hiff : Exact r.book r.track ↔ ∀ p, Keeps cfg w.sim o.side.opp p → due' p = 0 := by
        rw [hf.exact_iff (hset.logged _) (by rw [SimInbound.Named, href]; exact hn)]
        simp only [← hkeeps]
        exact howes.exact_iff_keeps hset
      constructor
      · rintro hexact (⟨w', p, hloop', _⟩ | ⟨w', p, hloop', hk, hcarried⟩)
        · rw [hloop] at hloop'
          exact SweepEnd.noConfusion (Prod.mk.inj hloop').2
        · rw [hloop] at hloop'
          obtain ⟨rfl, -⟩ := Prod.mk.inj hloop'
          exact (hzero p).mp (hiff.mp hexact p hk) hcarried
      · refine fun hno => hiff.mpr (fun p hk => (hzero p).mpr (fun hcarried => ?_))
        exact hno (.carried w p hloop hk hcarried)

/-- A sell that executes part of the front bid. -/
def sellTwo : SimInbound := { ref := 102, side := .sell, qty := 2, price := 3 }

theorem sellTwo_exact : ((run deskConfig twoBids : ExecutionSimulator 4).decide deskConfig sellTwo
    0).PositionExact := by
  have h : SimInv deskConfig (run deskConfig twoBids : ExecutionSimulator 4) :=
    (reachable_run (by decide)).simInv deskConfig_ok
  have hn : sellTwo.Named deskConfig.externalRefLimit := ⟨by decide, by decide⟩
  have h' := decide_inv h hn 0
  exact (positionExact_iff h').mpr (exact_of_slots h' (by decide +kernel))

/-- An offer of the strategy behind one of the market's, with incoming orders to be cancelled
where the two sides of the strategy meet. -/
def offerBehind : List SimCall :=
  [.setStpMode .cancelNewest, .seedExternal 1 .sell 1 5,
    .submit { ref := 100, side := .sell, qty := 1, price := 5 } 0, .decideNext]

/-- Ten levels of one unit each, with an offer of the strategy behind the tenth. -/
def tenLevels : List SimCall :=
  (List.range 10).map (fun n => .seedExternal (n + 1) .sell 1 (n + 3))
    ++ [.submit { ref := 100, side := .sell, qty := 1, price := 12 } 0, .decideNext]

/-- The unit of the ninth level is subtracted from the tenth as well. -/
example : ((run { book := ⟨16, ⟨0, 16, 1⟩⟩, externalRefLimit := 100 } tenLevels :
    ExecutionSimulator 4).decide { book := ⟨16, ⟨0, 16, 1⟩⟩, externalRefLimit := 100 }
      { ref := 101, qty := 10, price := 12 } 0).queueAheadOf 100 = -1 := by decide +kernel

end ExecutionSimulator

end Mog
