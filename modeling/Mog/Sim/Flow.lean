import Mog.Sim.Sweep

/-!
# External flow, step by step

`consume_level` executes the heads of one level until a quantity is applied or the level
is empty. `consumeLoop_rule` turns what one execution preserves into what the loop
preserves, and the invariant is kept by everything external flow does.

The rule is for predicates on a state that an execution of the front of the level and the slice
behind it keep. Consuming a level, a depletion of a side and the passing of time are each a
sequence of such steps, so that they need no induction of their own afterwards.
-/

namespace Mog

open QueueSum TrackTable

namespace ExecutionSimulator

variable {k : Nat} {cfg : SimConfig} {sim sim' : ExecutionSimulator k}

/-- One execution of external flow: `mid` is the state before its iceberg shows a slice. -/
structure Consumed (cfg : SimConfig) (sim mid sim' : ExecutionSimulator k) (i : Nat) (take : Int) :
    Prop where
  inv : SimInv cfg sim'
  exec : Executed cfg sim mid i take
  shown : (sim' = mid ∧ NothingToShow mid (sim.book.order i).orderRef)
    ∨ ∃ ib rest j, ib.ref = (sim.book.order i).orderRef ∧ Replenished mid sim' ib rest j

/-! ## Orders of the strategy across an execution -/

section shown

variable {mid : ExecutionSimulator k} {ref : Nat}

/-- The iceberg of an executed order has shown its next slice, or there was none to show. -/
def Shown (mid sim' : ExecutionSimulator k) (ref : Nat) : Prop :=
  (sim' = mid ∧ NothingToShow mid ref)
    ∨ ∃ ib rest j, ib.ref = ref ∧ Replenished mid sim' ib rest j

theorem Shown.track (h : Shown mid sim' ref) : sim'.track = mid.track := by
  rcases h with ⟨rfl, _⟩ | ⟨ib, rest, j, _, hr⟩
  · rfl
  · exact hr.track

/-- A slice that comes to rest is no order of the strategy's and moves none. -/
theorem Shown.own (h : Shown mid sim' ref) (hmid : SimInv cfg mid) (j : Nat) :
    (sim'.book.Own cfg.externalRefLimit j ↔ mid.book.Own cfg.externalRefLimit j)
      ∧ (mid.book.Own cfg.externalRefLimit j →
        (sim'.book.order j).view = (mid.book.order j).view
          ∧ sim'.book.ahead j = mid.book.ahead j) := by
  rcases h with ⟨rfl, _⟩ | ⟨ib, rest, x, href, hr⟩
  · exact ⟨Iff.rfl, fun _ => ⟨rfl, rfl⟩⟩
  · have hext := (hmid.icebergs ib (hr.entry.mem_iff.mpr (by simp))).external
    have hself : (sim'.book.order x).orderRef = ib.ref := congrArg OrderView.orderRef hr.book.self
    have hne : ∀ y, mid.book.Own cfg.externalRefLimit y → y ≠ x :=
      fun y hy he => hr.book.fresh (he ▸ hy.1)
    refine ⟨⟨fun ho => ?_, fun ho => ?_⟩, fun ho => ?_⟩
    · have hjx : j ≠ x := fun he => by
        have := ho.2
        rw [he, hself] at this
        omega
      refine ⟨((hr.book.live j).mp ho.1).resolve_left hjx, ?_⟩
      rw [← (Order.view_eq (hr.book.frame j hjx)).1]
      exact ho.2
    · refine ⟨(hr.book.live j).mpr (Or.inr ho.1), ?_⟩
      rw [(Order.view_eq (hr.book.frame j (hne j ho))).1]
      exact ho.2
    · exact ⟨hr.book.frame j (hne j ho), hr.book.ahead_other hmid.book ho.1⟩

/-- What is shown next stands where the positions say. -/
theorem Shown.off (h : Shown mid sim' ref) (hmid : SimInv cfg mid) {off : Nat → Int}
    (hoff : Off mid.book mid.track off) : Off sim'.book sim'.track off := by
  intro j v hv
  rw [h.track] at hv
  have hown := (hmid.mirror.record_of_some hv).1
  rw [((h.own hmid j).2 hown).2]
  exact hoff j v hv

/-- A level loses nothing when the next slice is shown. -/
theorem Shown.qtyAt_le (h : Shown mid sim' ref) (hmid : SimInv cfg mid) (s : Side) (p : Int) :
    mid.book.qtyAt s p ≤ sim'.book.qtyAt s p := by
  rcases h with ⟨rfl, _⟩ | ⟨ib, rest, x, href, hr⟩
  · exact Int.le_refl _
  · have hib := hmid.icebergs ib (hr.entry.mem_iff.mpr (by simp))
    have hpos := nextSlice_pos hib hr.reserve
    rw [hr.book.qtyAt hmid.book]
    dsimp only
    split <;> omega

end shown

/-- What an execution at the head of a level does to the orders of the strategy. -/
theorem Consumed.own {mid : ExecutionSimulator k} {i : Nat} {take : Int}
    (hc : Consumed cfg sim mid sim' i take) (h : SimInv cfg sim) (j : Nat) :
    (sim'.book.Own cfg.externalRefLimit j
        ↔ sim.book.Own cfg.externalRefLimit j ∧ ¬ (j = i ∧ sim.book.rem i = take))
      ∧ (sim'.book.Own cfg.externalRefLimit j →
        (∀ s p, sim'.book.OnSide s p j ↔ sim.book.OnSide s p j)
          ∧ sim'.book.ahead j = sim.book.ahead j
            - if i ∈ before j (sim.book.queueOf j) then take else 0) := by
  have hmid := h.executed hc.exec
  have hs : Shown mid sim' (sim.book.order i).orderRef := hc.shown
  obtain ⟨hiff, hkeep⟩ := hs.own hmid j
  have hred := hc.exec.book
  have hown : mid.book.Own cfg.externalRefLimit j
      ↔ sim.book.Own cfg.externalRefLimit j ∧ ¬ (j = i ∧ sim.book.rem i = take) := by
    constructor
    · intro ho
      obtain ⟨hl, hn⟩ := (hred.live j).mp ho.1
      have hr := ho.2
      rw [(hred.kept ho.1).1] at hr
      exact ⟨⟨hl, hr⟩, hn⟩
    · rintro ⟨ho, hn⟩
      have hl := (hred.live j).mpr ⟨ho.1, hn⟩
      refine ⟨hl, ?_⟩
      rw [(hred.kept hl).1]
      exact ho.2
  refine ⟨hiff.trans hown, fun ho => ?_⟩
  have hom := hiff.mp ho
  obtain ⟨hview, hahead⟩ := hkeep hom
  obtain ⟨_, _, hp, hsd⟩ := Order.view_eq hview
  obtain ⟨_, hp', hsd'⟩ := hred.kept hom.1
  refine ⟨fun s p => ?_, ?_⟩
  · rw [OrderBook.OnSide, OrderBook.OnSide, hsd, hp, hsd', hp']
  · rw [hahead, hred.ahead_eq h.book hom.1]

/-- What is consumed is taken off the positions behind it. -/
theorem Consumed.off {mid : ExecutionSimulator k} {s : Side} {p : Int} {i : Nat} {l : List Nat}
    {take : Int} (hc : Consumed cfg sim mid sim' i take) (h : SimInv cfg sim)
    (hf : sim.book.Front s p i l) {off : Nat → Int} (hoff : Off sim.book sim.track off) :
    Off sim'.book sim'.track
      (fun j => if j = i then 0 else off j + if sim.book.OnSide s p j then take else 0) := by
  have hs : Shown mid sim' (sim.book.order i).orderRef := hc.shown
  exact hs.off (h.executed hc.exec) (hc.exec.off_eq h.book hf hoff)

theorem Consumed.qtyAt_le {mid : ExecutionSimulator k} {s : Side} {p : Int} {i : Nat} {l : List Nat}
    {take : Int} (hc : Consumed cfg sim mid sim' i take) (h : SimInv cfg sim)
    (hf : sim.book.Front s p i l) : sim.book.qtyAt s p - take ≤ sim'.book.qtyAt s p := by
  have hs : Shown mid sim' (sim.book.order i).orderRef := hc.shown
  have := hs.qtyAt_le (h.executed hc.exec) s p
  have hq := hc.exec.book.qtyAt h.book hf.live s p
  rw [if_pos ⟨hf.side.symm, hf.price.symm⟩] at hq
  omega

/-- **What every execution preserves, the consumption of a level preserves.** -/
theorem consumeLoop_rule {s : Side} {p q : Int} {I : Int → ExecutionSimulator k → Prop}
    (hstep : ∀ sim mid sim' applied i l take, SimInv cfg sim → I applied sim → applied < q →
      sim.book.Front s p i l → take = min (q - applied) (sim.book.rem i) → 0 < take →
      Consumed cfg sim mid sim' i take → I (applied + take) sim') :
    ∀ fuel applied sim, SimInv cfg sim → I applied sim → applied ≤ q →
      (q - applied).toNat ≤ fuel →
      SimInv cfg (consumeLoop cfg s p q fuel applied sim).1
        ∧ I (consumeLoop cfg s p q fuel applied sim).2 (consumeLoop cfg s p q fuel applied sim).1
        ∧ (consumeLoop cfg s p q fuel applied sim).2 ≤ q
        ∧ ((consumeLoop cfg s p q fuel applied sim).2 = q
          ∨ (consumeLoop cfg s p q fuel applied sim).1.book.levelSlots s p = []) := by
  intro fuel
  induction fuel with
  | zero =>
      intro applied sim h hI hle hfuel
      exact ⟨h, hI, hle, Or.inl (show applied = q by omega)⟩
  | succ fuel ih =>
      intro applied sim h hI hle hfuel
      rw [consumeLoop]
      by_cases hdone : q ≤ applied
      · rw [if_pos hdone]
        exact ⟨h, hI, hle, Or.inl (show applied = q by omega)⟩
      rw [if_neg hdone]
      rcases OrderBook.front_cases h.book s p with ⟨hempty, hfront⟩ | ⟨i, l, hf, hne⟩
      · dsimp only
        rw [if_pos hfront]
        exact ⟨h, hI, hle, Or.inr hempty⟩
      dsimp only
      rw [if_neg hne, hf.frontRef, hf.remainingOfHandle]
      have hrem := h.book.pos i hf.live
      have hpos : 0 < min (q - applied) (sim.book.rem i) := by omega
      have he := reduceAndSync_spec h.book h.mirror hf hpos (by omega) true
      generalize sim.reduceAndSync cfg s (sim.book.order i).orderRef p
        (min (q - applied) (sim.book.rem i)) true
        (sim.book.findHandle (sim.book.order i).orderRef) = mid at *
      obtain ⟨hinv, hshown⟩ := Sweep.shown_spec
        (w := { sim, remaining := 0 }) h (h.executed he) hf.live he.book
      have hnext := hstep sim mid _ applied i l _ h hI (by omega) hf rfl hpos
        { inv := hinv, exec := he, shown := hshown }
      exact ih _ _ hinv hnext (by omega) (by omega)

end ExecutionSimulator

namespace SimInv

open ExecutionSimulator

variable {k : Nat} {cfg : SimConfig} {sim sim' : ExecutionSimulator k}

/-- Forgetting what was synced changes nothing. -/
theorem clearSync (h : SimInv cfg sim) :
    SimInv cfg { sim with track := { sim.track with recentSync := [] } } := by
  obtain ⟨L, hL⟩ := h.mirror.inv
  have hclear : ({ sim.track with recentSync := [] } : TrackTable).LinkInv L :=
    hL.congr rfl rfl rfl (fun _ => ⟨rfl, rfl, rfl, rfl, rfl, rfl⟩)
  exact
    { book := h.book, icebergs := h.icebergs, hidden := h.hidden, wheel := h.wheel,
      mirror := ⟨⟨L, hclear⟩, h.mirror.size, h.mirror.own, h.mirror.other⟩ }

/-- Consuming a level keeps the invariant. -/
theorem consumeLevel (h : SimInv cfg sim) (s : Side) (p q : Int) :
    SimInv cfg (sim.consumeLevel cfg s p q) := by
  have hclear := h.clearSync
  obtain ⟨off, hr⟩ := subtractLevel_repositioned hclear.mirror hclear.book s p q false
  have hsub := hclear.repositioned hr
  unfold ExecutionSimulator.consumeLevel
  dsimp only
  generalize ({ sim.track with recentSync := [] } : TrackTable).subtractLevel sim.book s p q false
    = t at *
  have hrun : SimInv cfg (consumeLoop cfg s p q q.toNat 0 { sim with track := t }).1 := by
    by_cases hq : 0 ≤ q
    · refine (consumeLoop_rule (I := fun _ _ => True) ?_ q.toNat 0 { sim with track := t } hsub
        trivial hq (by omega)).1
      intros
      trivial
    · rw [show q.toNat = 0 by omega]
      exact hsub
  split
  · exact hrun.logged _
  · exact hrun

/-- Repegging keeps it. -/
theorem repegHidden (h : SimInv cfg sim) : SimInv cfg sim.repegHidden := by
  refine { book := h.book, mirror := h.mirror, icebergs := h.icebergs, hidden := ?_,
           wheel := h.wheel }
  intro e he
  obtain ⟨a, ha, rfl⟩ := List.mem_map.mp he
  have hnamed := h.hidden a ha
  dsimp only
  split
  · split
    · exact hnamed
    · exact hnamed
  · exact hnamed

/-- An injected execution keeps it. -/
theorem applyExternal (h : SimInv cfg sim) (s : Side) (p qty : Int) :
    SimInv cfg (sim.applyExternal cfg s p qty) := by
  unfold ExecutionSimulator.applyExternal
  split
  · exact h
  dsimp only
  have hcons := h.repegHidden.consumeLevel s p (min qty (sim.repegHidden.book.qtyAt s p))
  split
  · exact hcons.tapped _ _ _ _
  · exact hcons

/-- The loop that depletes level after level keeps it. -/
theorem depleteLoop (s : Side) (scaled : Nat → Nat → Int) :
    ∀ fuel lvl tick rem (sim : ExecutionSimulator k), SimInv cfg sim →
      SimInv cfg (ExecutionSimulator.depleteLoop cfg s scaled fuel lvl tick rem sim) := by
  intro fuel
  induction fuel with
  | zero => intro lvl tick rem sim h; exact h
  | succ fuel ih =>
      intro lvl tick rem sim h
      rw [ExecutionSimulator.depleteLoop]
      split
      · exact h
      · dsimp only
        refine ih _ _ _ _ ?_
        generalize (if 0 < sim.book.qtyAt s tick then
          min (max 1 (scaled lvl rem)) (sim.book.qtyAt s tick) else 0) = applied
        by_cases happ : 0 < applied
        · rw [if_pos happ]
          exact h.consumeLevel s tick applied
        · rw [if_neg happ]
          exact h

/-- The depletion of one side keeps it. -/
theorem applyDepletion (h : SimInv cfg sim) (s : Side) (qty : Nat) (scaled : Nat → Nat → Int) :
    SimInv cfg (sim.applyDepletion cfg s qty scaled) := by
  unfold ExecutionSimulator.applyDepletion
  split
  · exact h
  split
  · dsimp only
    split
    · exact h
    split
    · exact h
    · exact h.consumeLevel _ _ _
  · exact depleteLoop s scaled _ _ _ _ _ h

/-- The passing of time keeps it, whatever is drawn. -/
theorem advanceTime (h : SimInv cfg sim) (dtNs drawnBuy drawnSell : Nat)
    (scaled : Side → Nat → Nat → Int) :
    SimInv cfg (sim.advanceTime cfg dtNs drawnBuy drawnSell scaled) := by
  unfold ExecutionSimulator.advanceTime
  split
  · exact h
  dsimp only
  have hclock : SimInv cfg { sim with
      extNow := (sim.extNow + dtNs) % 2 ^ 64
      log := { sim.log with nowHint := (sim.extNow + dtNs) % 2 ^ 64 } } :=
    { book := h.book, mirror := h.mirror, icebergs := h.icebergs, hidden := h.hidden,
      wheel := h.wheel }
  exact (hclock.applyDepletion .buy drawnBuy _).applyDepletion .sell drawnSell _

end SimInv

end Mog
