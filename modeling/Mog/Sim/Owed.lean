import Mog.Sim.Conserve
import Mog.Sim.Exact

/-!
# What positions owe during a sweep

A sweep leaves the positions of a level where they were until the level is settled. So on
the side it takes from, every order that it has not hit itself stands too far back by one
amount that depends on its price alone, and every other position is exact. The amount
grows by what is taken at the level and falls by what is subtracted; a walk clears it.

`Owes` keeps the amounts as a function of the price. An order that the sweep hits is set to its
true position at once and owes nothing; whoever stands behind it at the level owes what was
taken. The amounts are internal to a sweep: before it and after its post-pass they are zero.
-/

namespace Mog

open QueueSum TrackTable

variable {k : Nat} {cfg : SimConfig} {due due' : Int → Int} {opp : Side}

/-- How far back slot `j` stands when the levels of side `opp` owe `due` and the orders of
`sync` are settled. -/
def dueAt (b : OrderBook k) (sync : List Nat) (opp : Side) (due : Int → Int) (j : Nat) : Int :=
  if (b.order j).side = opp ∧ j ∉ sync then due (b.order j).priceTicks else 0

theorem dueAt_zero (b : OrderBook k) (sync : List Nat) (opp : Side) (j : Nat) :
    dueAt b sync opp (fun _ => 0) j = 0 := ite_self _

/-- `take` more is owed at `p`. -/
def bump (due : Int → Int) (p take : Int) : Int → Int := fun q => if q = p then due q + take else due q

@[simp] theorem bump_self (due : Int → Int) (p take : Int) : bump due p take p = due p + take :=
  if_pos rfl

theorem bump_other (due : Int → Int) (take : Int) {p q : Int} (h : q ≠ p) :
    bump due p take q = due q := if_neg h

/-- Level `z` has been settled for `take`: subtracted from its list, or walked if it has none. -/
structure Cleared (t : TrackTable) (opp : Side) (z take : Int) (due due' : Int → Int) : Prop where
  other : ∀ p, p ≠ z → due' p = due p
  entry : t.HasEntry opp z → due' z = due z - take
  vacant : ¬ t.HasEntry opp z → due' z = 0

namespace ExecutionSimulator

variable {sim sim' : ExecutionSimulator k} {i : Nat} {take : Int} {p : Int} {l : List Nat}

/-- Positions on side `opp` owe `due`, but for the orders the sweep has synced. -/
def Owes (sim : ExecutionSimulator k) (opp : Side) (due : Int → Int) : Prop :=
  Off sim.book sim.track (dueAt sim.book sim.track.recentSync opp due)

/-- None of the strategy's orders has been synced yet. -/
def Unsynced (cfg : SimConfig) (sim : ExecutionSimulator k) : Prop :=
  ∀ j, sim.book.Own cfg.externalRefLimit j → j ∉ sim.track.recentSync

/-- Exact positions owe nothing. -/
theorem owes_of_exact (h : Exact sim.book sim.track) (opp : Side) : sim.Owes opp (fun _ => 0) :=
  Off.congr h (fun j _ => dueAt_zero _ _ opp j)

/-- Positions are exact when no order of the strategy that is not synced owes anything. -/
theorem Owes.exact_iff (ho : sim.Owes opp due) (h : SimInv cfg sim) :
    Exact sim.book sim.track ↔ ∀ j, sim.book.Own cfg.externalRefLimit j →
      (sim.book.order j).side = opp → j ∉ sim.track.recentSync →
        due (sim.book.order j).priceTicks = 0 := by
  constructor
  · intro hex j hj hside hno
    obtain ⟨a, ha⟩ := h.mirror.own j hj
    have h1 := hex j _ ha
    have h2 := ho j _ ha
    rw [dueAt, if_pos ⟨hside, hno⟩] at h2
    dsimp only at h1 h2
    omega
  · intro hz
    refine Off.congr ho (fun j hj => ?_)
    have hown := (h.mirror.at?_iff j).mp hj
    unfold dueAt
    split
    · rename_i hh
      exact (hz j hown hh.1 hh.2).symm
    · rfl

/-- **Settling a level.** -/
theorem Owes.clear (ho : sim.Owes opp due) (h : SimInv cfg sim) (z take : Int) :
    ∃ due', Cleared sim.track opp z take due due'
      ∧ ∃ t, t = sim.track.subtractLevel sim.book opp z take true ∧ SameLevels sim.track t
      ∧ SimInv cfg { sim with track := t }
      ∧ ({ sim with track := t } : ExecutionSimulator k).Owes opp due' := by
  have hsplit : ∀ (due' : Int → Int) (j : Nat), (∀ q, q ≠ z → due' q = due q) →
      ¬ sim.book.OnSide opp z j →
      dueAt sim.book sim.track.recentSync opp due' j
        = dueAt sim.book sim.track.recentSync opp due j := by
    intro due' j hother hon
    unfold dueAt
    split
    · rename_i hh
      exact hother _ (fun he => hon ⟨hh.1, he⟩)
    · rfl
  by_cases hent : sim.track.HasEntry opp z
  · have hr := subtractLevel_entry h.mirror ho hent take true
    have hother : ∀ q, q ≠ z → bump due z (-take) q = due q := fun q hq => bump_other due _ hq
    refine ⟨bump due z (-take), ⟨hother, fun _ => bump_self due z (-take), fun hno => absurd hent hno⟩,
      _, rfl, hr.same, h.repositioned hr, hr.off.congr (fun j _ => ?_)⟩
    show dueAt sim.book _ opp (bump due z (-take)) j = _
    rw [hr.same.recentSync]
    by_cases hon : sim.book.OnSide opp z j
    · by_cases hs : j ∈ sim.track.recentSync
      · simp [dueAt, hs]
      · rw [if_pos ⟨hon, fun hh => hs hh.2⟩, dueAt, dueAt, if_pos ⟨hon.1, hs⟩, if_pos ⟨hon.1, hs⟩,
          hon.2, bump_self]
        rfl
    · rw [if_neg (fun hh => hon hh.1), hsplit _ j hother hon]
  · have hr := subtractLevel_vacant h.mirror h.book ho hent take true
    have hother : ∀ q, q ≠ z → bump due z (-due z) q = due q := fun q hq => bump_other due _ hq
    refine ⟨bump due z (-due z), ⟨hother, fun hh => absurd hh hent, fun _ => ?_⟩,
      _, rfl, hr.same, h.repositioned hr, hr.off.congr (fun j _ => ?_)⟩
    · rw [bump_self]
      omega
    show dueAt sim.book _ opp (bump due z (-due z)) j = _
    rw [hr.same.recentSync]
    by_cases hon : sim.book.OnSide opp z j
    · rw [if_pos hon, dueAt, hon.2, bump_self]
      split
      · omega
      · rfl
    · rw [if_neg hon, hsplit _ j hother hon]

/-! ## Takes -/

/-- What a take of `take` units from slot `i` does to the strategy's orders. -/
structure Taken (cfg : SimConfig) (sim sim' : ExecutionSimulator k) (i : Nat) (take : Int) : Prop where
  own : ∀ j, sim'.book.Own cfg.externalRefLimit j → sim.book.Own cfg.externalRefLimit j
    ∧ (sim'.book.order j).side = (sim.book.order j).side
    ∧ (sim'.book.order j).priceTicks = (sim.book.order j).priceTicks
  entry : ∀ s p, sim'.track.HasEntry s p ↔ sim.track.HasEntry s p
  /-- An order that is hit and stays has less left and is synced; no other is. -/
  hit : ∀ j, sim'.book.Own cfg.externalRefLimit j →
    (j = i ∧ j ∈ sim'.track.recentSync ∧ sim'.book.rem j = sim.book.rem j - take)
      ∨ (j ≠ i ∧ (j ∈ sim'.track.recentSync ↔ j ∈ sim.track.recentSync)
        ∧ sim'.book.rem j = sim.book.rem j)

theorem Executed.taken (he : Executed cfg sim sim' i take) : Taken cfg sim sim' i take where
  own j hj := by
    obtain ⟨href, hprice, hside⟩ := he.book.kept hj.1
    exact ⟨⟨((he.book.live j).mp hj.1).1, href ▸ hj.2⟩, hside, hprice⟩
  entry := he.entry
  hit j hj := by
    obtain ⟨href, _, _⟩ := he.book.kept hj.1
    rw [he.sync]
    by_cases hji : j = i
    · have hown : cfg.externalRefLimit ≤ (sim.book.order i).orderRef := hji ▸ href ▸ hj.2
      have hne : sim.book.rem i ≠ take := fun hz => ((he.book.live j).mp hj.1).2 ⟨hji, hz⟩
      rw [if_pos hown, hji, he.book.rem_self hne]
      exact Or.inl ⟨rfl, List.mem_append_right _ (List.mem_singleton_self _), rfl⟩
    · refine Or.inr ⟨hji, ?_, he.book.rem_other hji⟩
      split
      · rw [List.mem_append, List.mem_singleton]
        exact or_iff_left hji
      · rw [List.append_nil]

/-- **An execution** adds what it takes to what its level owes. -/
theorem Owes.executed (ho : sim.Owes opp due) (h : SimInv cfg sim) (hun : Unsynced cfg sim)
    (hf : sim.book.Front opp p i l) (he : Executed cfg sim sim' i take) :
    sim'.Owes opp (bump due p take) := by
  have ht := he.taken
  refine (he.off_eq h.book hf ho).congr (fun j hj => ?_)
  have hown := (he.mirror.at?_iff j).mp hj
  obtain ⟨hown', hside, hprice⟩ := ht.own j hown
  have hno := hun j hown'
  rcases ht.hit j hown with ⟨hji, hsync, _⟩ | ⟨hji, hsync, _⟩
  · rw [if_pos hji, dueAt, if_neg (fun hh => hh.2 hsync)]
  · rw [if_neg hji, dueAt, dueAt, hside, hprice]
    by_cases hs : (sim.book.order j).side = opp
    · rw [if_pos ⟨hs, fun hh => hno (hsync.mp hh)⟩, if_pos ⟨hs, hno⟩]
      by_cases hp : (sim.book.order j).priceTicks = p
      · rw [if_pos ⟨hs, hp⟩, hp, bump_self]
      · rw [if_neg (fun hh => hp hh.2), bump_other due take hp, Int.add_zero]
    · rw [if_neg (fun hh => hs hh.1), if_neg (fun hh => hs hh.1), if_neg (fun hh => hs hh.1)]
      rfl

theorem Withdrawn.taken (hw : Withdrawn cfg sim sim' i) : Taken cfg sim sim' i (sim.book.rem i) where
  own j hj := by
    obtain ⟨href, hprice, hside⟩ := hw.book.kept hj.1
    exact ⟨⟨((hw.book.live j).mp hj.1).1, href ▸ hj.2⟩, hside, hprice⟩
  entry := hw.same.entry
  hit j hj := by
    have hji : j ≠ i := fun hji => ((hw.book.live j).mp hj.1).2 ⟨hji, rfl⟩
    exact Or.inr ⟨hji, by rw [hw.same.recentSync], hw.book.rem_other hji⟩

/-- **A removal** adds what the order had left to what its level owes. -/
theorem Owes.withdrawn (ho : sim.Owes opp due) (h : SimInv cfg sim) (hun : Unsynced cfg sim)
    (hf : sim.book.Front opp p i l) (hw : Withdrawn cfg sim sim' i) :
    sim'.Owes opp (bump due p (sim.book.rem i)) := by
  have ht := hw.taken
  refine (hw.off_eq h.book ho).congr (fun j hj => ?_)
  have hown := (hw.mirror.at?_iff j).mp hj
  obtain ⟨hown', hside, hprice⟩ := ht.own j hown
  have hno := hun j hown'
  have hji : j ≠ i := fun he => ((hw.book.live j).mp hown.1).2 ⟨he, rfl⟩
  rw [dueAt, dueAt, hside, hprice, hw.same.recentSync]
  by_cases hs : (sim.book.order j).side = opp
  · rw [if_pos ⟨hs, hno⟩, if_pos ⟨hs, hno⟩]
    by_cases hp : (sim.book.order j).priceTicks = p
    · rw [if_pos ((hf.before_iff hji h.book).mpr ⟨hs, hp⟩), hp, bump_self]
    · rw [if_neg (fun hh => hp ((hf.before_iff hji h.book).mp hh).2), bump_other due _ hp,
        Int.add_zero]
  · rw [if_neg (fun hh => hs hh.1), if_neg (fun hh => hs hh.1),
      if_neg (fun hh => hs ((hf.before_iff hji h.book).mp hh).1)]
    rfl

/-- A slice that is shown moves none of the strategy's orders. -/
theorem Owes.shown {ref : Nat} (ho : sim.Owes opp due) (h : SimInv cfg sim) (hs : Shown sim sim' ref) :
    sim'.Owes opp due := by
  refine (hs.off h ho).congr (fun j hj => ?_)
  rw [hs.track] at hj
  have hview := ((hs.own h j).2 ((h.mirror.at?_iff j).mp hj)).1
  obtain ⟨_, _, hprice, hside⟩ := Order.view_eq hview
  rw [dueAt, dueAt, hs.track, hprice, hside]

theorem Taken.shown {mid : ExecutionSimulator k} {ref : Nat} (ht : Taken cfg sim mid i take)
    (hmid : SimInv cfg mid) (hs : Shown mid sim' ref) : Taken cfg sim sim' i take where
  own j hj := by
    obtain ⟨hiff, hkeep⟩ := hs.own hmid j
    have hj' := hiff.mp hj
    obtain ⟨_, _, hprice, hside⟩ := Order.view_eq (hkeep hj').1
    obtain ⟨h1, h2, h3⟩ := ht.own j hj'
    exact ⟨h1, hside.trans h2, hprice.trans h3⟩
  entry := by rw [hs.track]; exact ht.entry
  hit j hj := by
    obtain ⟨hiff, hkeep⟩ := hs.own hmid j
    have hj' := hiff.mp hj
    have hrem : sim'.book.rem j = mid.book.rem j := (Order.view_eq (hkeep hj').1).2.1
    rw [hs.track, hrem]
    exact ht.hit j hj'

end ExecutionSimulator

end Mog
