import Mog.Sim.Account

/-!
# Displayed before hidden

The ledger is tapped in three places: at a price better than the touch, at the touch once
a head has been used up, and by external flow once the displayed quantity of a level has
been consumed. The first is never too early. The other two are, when more than the head
is displayed at the touch, or when the consumption has brought a new slice.

`passes` lists the states of a sweep and `consumptions` those of external flow, as they
go; `handOff` is the state in which a pass turns to the ledger.
-/

namespace Mog

open QueueSum TrackTable

/-- The ledger has quantity of side `s` at `price`. -/
def HasHidden (l : List Hidden) (s : Side) (price : Int) : Prop :=
  ∃ e ∈ l, e.side = s ∧ e.priceTicks = price ∧ 0 < e.qtyRemaining

instance (l : List Hidden) (s : Side) (price : Int) : Decidable (HasHidden l s price) :=
  inferInstanceAs (Decidable (∃ e ∈ l, _))

/-- **A tap executes exactly where the ledger has quantity.** -/
theorem tapLoop_executes (cfg : SimConfig) (s : Side) (p : Int) (l : List Hidden) : ∀ t : Tap,
    ∃ es, (tapLoop cfg s p l t).2.log.executions = t.log.executions ++ es
      ∧ (0 < t.remaining → ((∃ e ∈ es, 0 < e.qty) ↔ HasHidden l s p)) := by
  induction l with
  | nil =>
      refine fun t => ⟨[], (List.append_nil _).symm, fun _ => ?_⟩
      exact iff_of_false (fun ⟨e, he, _⟩ => List.not_mem_nil he)
        (fun ⟨e, he, _⟩ => List.not_mem_nil he)
  | cons a l ih =>
      intro t
      by_cases hrem : t.remaining ≤ 0
      · rw [tapLoop, if_pos hrem]
        exact ⟨[], (List.append_nil _).symm, fun h => absurd h (by omega)⟩
      by_cases hoff : a.side ≠ s ∨ a.priceTicks ≠ p
      · rw [tapLoop, if_neg hrem, if_pos hoff]
        obtain ⟨es, hex, hiff⟩ := ih t
        refine ⟨es, hex, fun h => (hiff h).trans ?_⟩
        unfold HasHidden
        rw [List.exists_mem_cons_iff]
        refine ⟨Or.inr, fun h => h.resolve_left (fun hh => ?_)⟩
        exact hoff.elim (fun hs => hs hh.1) (fun hp => hp hh.2.1)
      · rw [not_or, not_not, not_not] at hoff
        rw [tapLoop_cons_take (by omega) hoff.1 hoff.2]
        obtain ⟨es, hex, hiff⟩ := ih (t.take cfg a)
        refine ⟨t.execution a :: es, ?_, fun _ => ?_⟩
        · rw [hex]
          exact List.append_assoc _ [_] _
        · unfold HasHidden at hiff ⊢
          rw [List.exists_mem_cons_iff, List.exists_mem_cons_iff]
          -- an entry without quantity leaves the tap with at least what it had
          by_cases hq : 0 < a.qtyRemaining
          · have hamt : 0 < (t.execution a).qty := by
              show 0 < min t.remaining a.qtyRemaining
              omega
            exact iff_of_true (Or.inl hamt) (Or.inl ⟨hoff.1, hoff.2, hq⟩)
          · have hamt : ¬ 0 < (t.execution a).qty := by
              show ¬ 0 < min t.remaining a.qtyRemaining
              omega
            have hnext : 0 < (t.take cfg a).remaining := by
              show 0 < t.remaining - min t.remaining a.qtyRemaining
              omega
            exact or_congr (iff_of_false hamt (fun hh => hq hh.2.2)) (hiff hnext)

/-- The head of a level is part of what is displayed there. -/
theorem OrderBook.Front.rem_le_qtyAt {k : Nat} {b : OrderBook k} {s : Side} {p : Int} {i : Nat}
    {l : List Nat} (hf : b.Front s p i l) (h : b.Valid) : b.rem i ≤ b.qtyAt s p := by
  have hsum := h.qtyAt_eq s p
  rw [hf.slots, List.map_cons, List.sum_cons] at hsum
  have htail : 0 ≤ (l.map b.rem).sum := by
    refine List.sum_nonneg (fun x hx => ?_)
    obtain ⟨j, hj, rfl⟩ := List.mem_map.mp hx
    have hmem : j ∈ b.levelSlots s p := by
      rw [hf.slots]
      exact List.mem_cons_of_mem _ hj
    exact Int.le_of_lt (h.pos j ((h.mem _ _ j).mp hmem).1)
  omega

namespace ExecutionSimulator

variable {k : Nat} {cfg : SimConfig} {sim sim' : ExecutionSimulator k} {order : SimInbound}

/-- Once used up, the order of `ref` is followed by a slice at `price` on side `s`. -/
def ShowsAt (sim : ExecutionSimulator k) (ref : Nat) (s : Side) (price : Int) : Prop :=
  ∃ ib, sim.registered ref = some ib ∧ ib.hidden ≠ 0 ∧ ib.side = s ∧ ib.priceTicks = price

/-- **What is displayed at a level once its head has been used up**: what was behind the
head, and the slice that has joined. -/
theorem qtyAt_head_gone {mid : ExecutionSimulator k} {s : Side} {p : Int} {i : Nat} {l : List Nat}
    (h : SimInv cfg sim) (hf : sim.book.Front s p i l)
    (hr : OrderBook.Reduced sim.book sim.book.levelSlots mid.book i (sim.book.rem i))
    (hi : mid.icebergs = sim.icebergs) (hs : Shown mid sim' (sim.book.order i).orderRef) :
    sim.book.qtyAt s p - sim.book.rem i ≤ sim'.book.qtyAt s p
      ∧ (sim'.book.qtyAt s p = sim.book.qtyAt s p - sim.book.rem i
        ↔ ¬ sim.ShowsAt (sim.book.order i).orderRef s p) := by
  have hfirst : ∀ ref, mid.registered ref = sim.registered ref := fun ref => by
    rw [registered, registered, hi]
  have hred := hr.qtyAt h.book hf.live s p
  rw [if_pos ⟨hf.side.symm, hf.price.symm⟩] at hred
  rcases hs with ⟨rfl, hno⟩ | ⟨ib, rest, j, href, hrep⟩
  · refine ⟨Int.le_of_eq hred.symm, iff_of_true hred ?_⟩
    rintro ⟨ib, hib, hne, _⟩
    rw [← hfirst] at hib
    rcases hno with hno | ⟨z, _, _, hz, hzf⟩ | hlive
    · have hmem := List.mem_of_find?_eq_some hib
      have href : ib.ref = (sim.book.order i).orderRef := by simpa using List.find?_some hib
      exact hno ib hmem href
    · exact hne (Option.some.inj (hzf.symm.trans hib) ▸ hz)
    · -- the head has left
      obtain ⟨hl, hlr, _⟩ := hr.valid.idFind_live (h.book.ref i hf.live) hlive
      have hold := ((hr.live _).mp hl).1
      have hji := h.book.ref_inj hold hf.live ((hr.kept hl).1.symm.trans hlr)
      exact ((hr.live i).mp (hji ▸ hl)).2 ⟨rfl, rfl⟩
  · have hpos := nextSlice_pos
      (h.icebergs ib (hi ▸ hrep.entry.mem_iff.mpr List.mem_cons_self)) hrep.reserve
    have hq := hrep.book.qtyAt hr.valid s p
    dsimp only at hq
    have hib : sim.registered (sim.book.order i).orderRef = some ib := by
      rw [← hfirst, ← href]
      exact hrep.first
    by_cases hhere : s = ib.side ∧ p = ib.priceTicks
    · rw [if_pos hhere] at hq
      refine ⟨by omega, iff_of_false (by omega) (not_not.mpr ⟨ib, hib, ?_, hhere.1.symm,
        hhere.2.symm⟩)⟩
      exact Int.ne_of_gt hrep.reserve
    · rw [if_neg hhere] at hq
      refine ⟨by omega, iff_of_true (by omega) ?_⟩
      rintro ⟨x, hx, _, hxs, hxp⟩
      cases Option.some.inj (hx.symm.trans hib)
      exact hhere ⟨hxs.symm, hxp.symm⟩

end ExecutionSimulator

/-! ## The sweep -/

namespace Sweep

open ExecutionSimulator

variable {k : Nat} {cfg : SimConfig} {w w' : Sweep k} {order : SimInbound}

/-- The state in which a pass taps the ledger, and the price, when it does. -/
def handOff (cfg : SimConfig) (order : SimInbound) (w : Sweep k) : Option (Sweep k × Int) :=
  let opp := order.side.opp
  let hBest := w.sim.bestHiddenPrice opp
  let touch := w.sim.book.best opp
  if hiddenBetter order.side hBest touch then
    if beyond order hBest then none else some (w, hBest)
  else if touch = kNoTick then none
  else if beyond order touch then none
  else
    let head := w.sim.book.frontRef opp touch
    if head = 0 then none
    else
      let hh := w.sim.book.findHandle head
      let headRem := w.sim.book.remainingOfHandle hh
      if w.sim.track.isLive hh.index ∧ w.sim.stp ≠ .none then none
      else
        let u := w.matchHead cfg opp touch head hh (min w.remaining headRem)
        if 0 < u.remaining then some (u, touch) else none

/-- The sweep before each of its passes. -/
def passes (cfg : SimConfig) (order : SimInbound) : Nat → Sweep k → List (Sweep k)
  | 0, _ => []
  | fuel + 1, w =>
      if w.remaining ≤ 0 then []
      else
        match w.step cfg order with
        | .more w' => w :: passes cfg order fuel w'
        | .leave => [w]
        | .stpStop => [w]

/-- The pass uses up a displayed head with quantity to spare and turns to the ledger, which
has quantity at the touch: then the head was all that is displayed there, and no slice
follows it. -/
def HandsOverLast (cfg : SimConfig) (order : SimInbound) (w : Sweep k) : Prop :=
  ∀ i l, AtTouch order w i l →
    (w.sim.book.Own cfg.externalRefLimit i → w.sim.stp = .none) →
    w.sim.book.rem i < w.remaining →
    HasHidden w.sim.hidden order.side.opp (w.sim.book.best order.side.opp) →
    w.sim.book.qtyAt order.side.opp (w.sim.book.best order.side.opp) = w.sim.book.rem i
      ∧ ¬ w.sim.ShowsAt (w.sim.book.order i).orderRef order.side.opp
        (w.sim.book.best order.side.opp)

/-- A live tracker is that of one of the strategy's orders. -/
theorem AtTouch.isLive_iff {i : Nat} {l : List Nat} (ht : AtTouch order w i l)
    (h : SimInv cfg w.sim) :
    w.sim.track.isLive (w.sim.book.findHandle (w.sim.book.order i).orderRef).index
      ↔ w.sim.book.Own cfg.externalRefLimit i := by
  rw [ht.front.handle]
  exact (TrackTable.isLive_iff h.mirror.inv i).trans (h.mirror.at?_iff i)

/-- The match of `execute_head` with slot `i`. -/
def matchSlot (w : Sweep k) (cfg : SimConfig) (order : SimInbound) (i : Nat) : Sweep k :=
  w.matchHead cfg order.side.opp (w.sim.book.best order.side.opp) (w.sim.book.order i).orderRef
    (w.sim.book.findHandle (w.sim.book.order i).orderRef) (min w.remaining (w.sim.book.rem i))

theorem executeSlot_eq (w : Sweep k) (cfg : SimConfig) (order : SimInbound) (i : Nat) :
    w.executeSlot cfg order i
      = if 0 < (w.matchSlot cfg order i).remaining then
          (w.matchSlot cfg order i).tap cfg order.side.opp (w.sim.book.best order.side.opp)
        else w.matchSlot cfg order i := rfl

theorem matchSlot_hit (h : SimInv cfg w.sim) (hrem : 0 < w.remaining) {i : Nat} {l : List Nat}
    (ht : AtTouch order w i l) :
    ∃ mid, Hit cfg w mid (w.matchSlot cfg order i) i (min w.remaining (w.sim.book.rem i)) := by
  have hpos := h.book.pos i ht.front.live
  exact matchHead_hit h ht.front (by omega) (by omega)

/-- A pass that executes a head turns to the ledger when quantity is left over. -/
theorem handOff_execute (h : SimInv cfg w.sim) {i : Nat} {l : List Nat} (ht : AtTouch order w i l)
    (hfree : w.sim.book.Own cfg.externalRefLimit i → w.sim.stp = .none) :
    w.handOff cfg order
      = if 0 < (w.matchSlot cfg order i).remaining then
          some (w.matchSlot cfg order i, w.sim.book.best order.side.opp)
        else none := by
  unfold handOff
  dsimp only
  rw [if_neg ht.ahead, if_neg ht.best, if_neg ht.bound, ht.front.frontRef,
    if_neg (h.book.ref i ht.front.live), ht.front.remainingOfHandle, if_neg, matchSlot]
  rintro ⟨hlive, hstp⟩
  exact hstp (hfree ((ht.isLive_iff h).mp hlive))

/-- A pass that self-trade prevention decides leaves the ledger alone. -/
theorem handOff_own (h : SimInv cfg w.sim) {i : Nat} {l : List Nat} (ht : AtTouch order w i l)
    (hown : w.sim.book.Own cfg.externalRefLimit i) (hstp : w.sim.stp ≠ .none) :
    w.handOff cfg order = none := by
  unfold handOff
  dsimp only
  rw [if_neg ht.ahead, if_neg ht.best, if_neg ht.bound, ht.front.frontRef,
    if_neg (h.book.ref i ht.front.live), if_pos ⟨(ht.isLive_iff h).mpr hown, hstp⟩]

theorem handOff_better (hbetter : hiddenBetter order.side
      (w.sim.bestHiddenPrice order.side.opp) (w.sim.book.best order.side.opp))
    (hbound : ¬ beyond order (w.sim.bestHiddenPrice order.side.opp)) :
    w.handOff cfg order = some (w, w.sim.bestHiddenPrice order.side.opp) := by
  unfold handOff
  dsimp only
  rw [if_pos hbetter, if_neg hbound]

theorem handOff_leave (hl : w.step cfg order = .leave) (h : SimInv cfg w.sim) :
    w.handOff cfg order = none := by
  have hcase := step_cases order h
  rw [hl] at hcase
  unfold handOff
  dsimp only
  cases hcase with
  | leaveHidden hbetter hbound => rw [if_pos hbetter, if_pos hbound]
  | leave hahead hbound =>
      rw [if_neg hahead]
      by_cases htick : w.sim.book.best order.side.opp = kNoTick
      · rw [if_pos htick]
      · rw [if_neg htick, if_pos (hbound.resolve_left htick)]

/-- **A pass taps the ledger where it hands over, and nowhere else.** -/
theorem step_handOff (h : SimInv cfg w.sim) (hrem : 0 < w.remaining)
    (hs : w.step cfg order = .more w') :
    (∃ u p, w.handOff cfg order = some (u, p) ∧ w' = u.tap cfg order.side.opp p)
      ∨ (w.handOff cfg order = none ∧ w'.sim.hidden = w.sim.hidden) := by
  have hcase := step_cases order h
  rw [hs] at hcase
  cases hcase with
  | tap hbetter hbound => exact Or.inl ⟨w, _, handOff_better hbetter hbound, rfl⟩
  | execute i l ht hfree =>
      rw [handOff_execute h ht hfree, executeSlot_eq]
      split
      · exact Or.inl ⟨_, _, rfl, rfl⟩
      · obtain ⟨mid, hhit⟩ : ∃ mid, Hit cfg w mid (w.matchSlot cfg order i) i
            (min w.remaining (w.sim.book.rem i)) := matchSlot_hit h hrem ht
        exact Or.inr ⟨rfl, (Shown.fields hhit.shown).1.trans hhit.hidden⟩
  | remove i l ht hown hstp =>
      have hrm := removeVictim_removed h ht.front
      exact Or.inr ⟨handOff_own h ht hown (by rw [hstp]; decide), hrm.hidden⟩
  | decrement i l ht hown hstp =>
      have hpos := h.book.pos i ht.front.live
      obtain ⟨mid, hhit⟩ : ∃ mid, Hit cfg w mid (w.decrementSlot cfg order i) i
          (min (w.sim.book.rem i) w.remaining) := decrementVictim_hit h ht.front rfl (by omega)
      exact Or.inr ⟨handOff_own h ht hown (by rw [hstp]; decide),
        (Shown.fields hhit.shown).1.trans hhit.hidden⟩

/-- Where the ledger is strictly better than the touch, nothing is displayed. -/
theorem qtyAt_better (h : SimInv cfg w.sim) {p : Int}
    (hbetter : hiddenBetter order.side p (w.sim.book.best order.side.opp)) :
    w.sim.book.qtyAt order.side.opp p = 0 := by
  rw [h.book.qtyAt_eq]
  by_cases hnil : w.sim.book.levelSlots order.side.opp p = []
  · rw [hnil]
    rfl
  · obtain ⟨hne, hgood⟩ := h.book.best_good hnil
    have hfirst := hbetter.2.resolve_left hne
    cases hs : order.side <;> rw [hs] at hfirst hgood <;>
      simp only [Side.opp, atLeastAsGood] at hfirst hgood <;> omega

/-- **A pass keeps displayed quantity first exactly when it hands over last.** -/
theorem handOff_iff (h : SimInv cfg w.sim) (hrem : 0 < w.remaining) :
    (∀ u p, w.handOff cfg order = some (u, p) → HasHidden u.sim.hidden order.side.opp p →
        u.sim.book.qtyAt order.side.opp p = 0)
      ↔ HandsOverLast cfg order w := by
  -- a pass that does not hand over, and meets no head it could execute
  have hnone : w.handOff cfg order = none →
      (∀ i l, AtTouch order w i l →
        (w.sim.book.Own cfg.externalRefLimit i → w.sim.stp = .none) → False) →
      ((∀ u p, w.handOff cfg order = some (u, p) → HasHidden u.sim.hidden order.side.opp p →
        u.sim.book.qtyAt order.side.opp p = 0) ↔ HandsOverLast cfg order w) := by
    intro hn hno
    refine iff_of_true (fun u p hu => ?_) (fun i l ht hfree => (hno i l ht hfree).elim)
    rw [hn] at hu
    exact absurd hu (by simp)
  have hhead : ∀ {i j : Nat} {l l' : List Nat}, AtTouch order w i l → AtTouch order w j l' →
      i = j := fun ht ht' => (List.cons.inj (ht.front.slots.symm.trans ht'.front.slots)).1
  -- a head that self-trade prevention decides about
  have hself : ∀ i l, AtTouch order w i l → w.sim.book.Own cfg.externalRefLimit i →
      w.sim.stp ≠ .none →
      ((∀ u p, w.handOff cfg order = some (u, p) → HasHidden u.sim.hidden order.side.opp p →
        u.sim.book.qtyAt order.side.opp p = 0) ↔ HandsOverLast cfg order w) :=
    fun i l ht hown hstp => hnone (handOff_own h ht hown hstp)
      (fun j l' ht' hfree => hstp (hfree (hhead ht ht' ▸ hown)))
  have hcase : StepCase cfg order w (w.step cfg order) := step_cases order h
  generalize hst : w.step cfg order = r at hcase
  cases hcase with
  | tap hbetter hbound =>
      refine iff_of_true (fun u p hu _ => ?_) (fun i l ht => absurd hbetter ht.ahead)
      rw [handOff_better hbetter hbound] at hu
      cases hu
      exact qtyAt_better h hbetter
  | leaveHidden hbetter hbound =>
      exact hnone (handOff_leave hst h) (fun i l ht _ => ht.ahead hbetter)
  | leave hahead hbound =>
      exact hnone (handOff_leave hst h)
        (fun i l ht _ => hbound.elim ht.best ht.bound)
  | stop i l ht hown hstp => exact hself i l ht hown (by rw [hstp]; decide)
  | remove i l ht hown hstp => exact hself i l ht hown (by rw [hstp]; decide)
  | decrement i l ht hown hstp => exact hself i l ht hown (by rw [hstp]; decide)
  | execute i l ht hfree =>
      have hpos := h.book.pos i ht.front.live
      obtain ⟨mid, hhit⟩ : ∃ mid, Hit cfg w mid (w.matchSlot cfg order i) i
          (min w.remaining (w.sim.book.rem i)) := matchSlot_hit h hrem ht
      rw [handOff_execute h ht hfree]
      generalize w.matchSlot cfg order i = u at hhit ⊢
      have hleft := hhit.remaining
      have hsame : u.sim.hidden = w.sim.hidden := (Shown.fields hhit.shown).1.trans hhit.hidden
      by_cases hlt : w.sim.book.rem i < w.remaining
      · -- the head is used up: what is left of its level is counted
        have htake : min w.remaining (w.sim.book.rem i) = w.sim.book.rem i := by omega
        rw [htake] at hhit
        obtain ⟨hge, hiff⟩ := qtyAt_head_gone h ht.front hhit.book hhit.icebergs hhit.shown
        have hheld := ht.front.rem_le_qtyAt h.book
        have hupos : 0 < u.remaining := by omega
        rw [if_pos hupos]
        constructor
        · intro hall j l' ht' _ _ hhid
          cases hhead ht ht'
          have hz := hall u _ rfl (by rw [hsame]; exact hhid)
          exact ⟨by omega, hiff.mp (by omega)⟩
        · intro hlast u' p hu hhid
          cases hu
          rw [hsame] at hhid
          obtain ⟨hall, hno⟩ := hlast i l ht hfree hlt hhid
          have := hiff.mpr hno
          omega
      · have hupos : ¬ 0 < u.remaining := by omega
        rw [if_neg hupos]
        refine iff_of_true (fun u' p hu => absurd hu (by simp)) (fun j l' ht' _ hlt' => ?_)
        cases hhead ht ht'
        exact absurd hlt' hlt

/-- The passes of a sweep keep the invariant, and each has something left to fill. -/
theorem passes_inv : ∀ fuel (w : Sweep k), SimInv cfg w.sim → ∀ u ∈ passes cfg order fuel w,
    SimInv cfg u.sim ∧ 0 < u.remaining := by
  intro fuel
  induction fuel with
  | zero => intro w _ u hu; exact absurd hu List.not_mem_nil
  | succ fuel ih =>
      intro w h u hu
      rw [passes] at hu
      by_cases hrem : w.remaining ≤ 0
      · rw [if_pos hrem] at hu
        exact absurd hu List.not_mem_nil
      rw [if_neg hrem] at hu
      have hself : SimInv cfg w.sim ∧ 0 < w.remaining := ⟨h, by omega⟩
      cases hs : w.step cfg order with
      | more w' =>
          rw [hs] at hu
          rcases List.mem_cons.mp hu with rfl | hu
          · exact hself
          · exact ih w' (step_more h (by omega) hs).1 u hu
      | leave =>
          rw [hs] at hu
          exact List.mem_singleton.mp hu ▸ hself
      | stpStop =>
          rw [hs] at hu
          exact List.mem_singleton.mp hu ▸ hself

end Sweep

/-! ## External flow -/

namespace ExecutionSimulator

open Sweep

variable {k : Nat} {cfg : SimConfig} {sim sim' : ExecutionSimulator k} {order : SimInbound}

/-- The states before the executions of a consumption, with what it has still to take. -/
def consumptions (cfg : SimConfig) (s : Side) (price q : Int) :
    Nat → Int → ExecutionSimulator k → List (ExecutionSimulator k × Int)
  | 0, _, _ => []
  | fuel + 1, applied, sim =>
      if q ≤ applied then []
      else
        let head := sim.book.frontRef s price
        if head = 0 then []
        else
          let hh := sim.book.findHandle head
          let take := min (q - applied) (sim.book.remainingOfHandle hh)
          (sim, q - applied) :: consumptions cfg s price q fuel (applied + take)
            ((sim.reduceAndSync cfg s head price take true hh).replenishIfIceberg head)

/-- The head of the level is not used up, or no slice follows it there. -/
def NoSlice (s : Side) (price : Int) (u : ExecutionSimulator k × Int) : Prop :=
  u.1.book.remainingOf (u.1.book.frontRef s price) ≤ u.2 →
    ¬ u.1.ShowsAt (u.1.book.frontRef s price) s price

/-- **A consumption of all that is displayed empties the level** exactly when no slice
joins it on the way. -/
theorem consumeLoop_empties {s : Side} {p q : Int} : ∀ fuel applied (sim : ExecutionSimulator k),
    SimInv cfg sim → applied ≤ q → (q - applied).toNat ≤ fuel → q - applied ≤ sim.book.qtyAt s p →
    ((consumeLoop cfg s p q fuel applied sim).1.book.qtyAt s p = 0
      ↔ sim.book.qtyAt s p = q - applied
        ∧ ∀ u ∈ consumptions cfg s p q fuel applied sim, NoSlice s p u) := by
  intro fuel
  induction fuel with
  | zero =>
      intro applied sim h hle hfuel hq
      have hz : q - applied = 0 := by omega
      rw [hz]
      exact ⟨fun h0 => ⟨h0, fun u hu => absurd hu List.not_mem_nil⟩, fun hh => hh.1⟩
  | succ fuel ih =>
      intro applied sim h hle hfuel hq
      rw [consumeLoop, consumptions]
      by_cases hdone : q ≤ applied
      · have hz : q - applied = 0 := by omega
        rw [if_pos hdone, if_pos hdone, hz]
        exact ⟨fun h0 => ⟨h0, fun u hu => absurd hu List.not_mem_nil⟩, fun hh => hh.1⟩
      rw [if_neg hdone, if_neg hdone]
      rcases OrderBook.front_cases h.book s p with ⟨hempty, _⟩ | ⟨i, l, hf, hne⟩
      · -- an empty level holds nothing to consume
        rw [h.book.qtyAt_eq, hempty] at hq
        have : q - applied ≤ 0 := hq
        omega
      dsimp only
      rw [if_neg hne, if_neg hne]
      have hhead : sim.book.remainingOf (sim.book.frontRef s p) = sim.book.rem i := by
        rw [hf.frontRef, h.book.remainingOf_live hf.live]
      have hpos := h.book.pos i hf.live
      have hstep : NoSlice s p (sim, q - applied) ↔ (sim.book.rem i ≤ q - applied →
          ¬ sim.ShowsAt (sim.book.order i).orderRef s p) := by
        rw [NoSlice]
        dsimp only
        rw [hhead, hf.frontRef]
      rw [List.forall_mem_cons, hstep, hf.frontRef, hf.remainingOfHandle]
      have he : Executed cfg sim (sim.reduceAndSync cfg s (sim.book.order i).orderRef p
          (min (q - applied) (sim.book.rem i)) true
          (sim.book.findHandle (sim.book.order i).orderRef)) i (min (q - applied) (sim.book.rem i)) :=
        reduceAndSync_spec h.book h.mirror hf (by omega) (by omega) true
      generalize sim.reduceAndSync cfg s (sim.book.order i).orderRef p
        (min (q - applied) (sim.book.rem i)) true
        (sim.book.findHandle (sim.book.order i).orderRef) = mid at *
      obtain ⟨hinv, hshown⟩ := Sweep.shown_spec
        (w := { sim, remaining := 0 }) h (h.executed he) hf.live he.book
      dsimp only at hinv hshown
      generalize mid.replenishIfIceberg (sim.book.order i).orderRef = sim' at *
      by_cases hlt : sim.book.rem i ≤ q - applied
      · -- the head is used up
        have htake : min (q - applied) (sim.book.rem i) = sim.book.rem i := by omega
        rw [htake] at he ⊢
        obtain ⟨hge, hiff⟩ := qtyAt_head_gone h hf he.book he.icebergs hshown
        rw [ih _ sim' hinv (by omega) (by omega) (by omega)]
        constructor
        · rintro ⟨heq, hall⟩
          exact ⟨by omega, fun _ => hiff.mp (by omega), hall⟩
        · rintro ⟨heq, hno, hall⟩
          have := hiff.mpr (hno hlt)
          exact ⟨by omega, hall⟩
      · -- the head outlasts the consumption
        have htake : min (q - applied) (sim.book.rem i) = q - applied := by omega
        rw [htake] at he ⊢
        have hred := he.book.qtyAt h.book hf.live s p
        rw [if_pos ⟨hf.side.symm, hf.price.symm⟩] at hred
        have hge : mid.book.qtyAt s p ≤ sim'.book.qtyAt s p :=
          Shown.qtyAt_le hshown (h.executed he) s p
        have hheld := hf.rem_le_qtyAt h.book
        rw [ih _ sim' hinv (by omega) (by omega) (by omega)]
        constructor
        · rintro ⟨heq, _⟩
          omega
        · rintro ⟨heq, _⟩
          omega

/-! ## Events -/

/-- What can execute hidden quantity. -/
inductive Event where
  /-- The decision of an order. -/
  | inbound (order : SimInbound) (ts : Nat)
  | external (s : Side) (price qty : Int)

/-- The decision of `order`, priced as `o`, sweeps. -/
def Sweeps (sim : ExecutionSimulator k) (order o : SimInbound) : Prop :=
  sim.resolved order = some o ∧ (sim.book.findHandle order.ref).index = kNullIndex
    ∧ o.type ≠ .postOnly ∧ sim.crosses o ∧ 0 < o.qty

instance (sim : ExecutionSimulator k) (order o : SimInbound) : Decidable (sim.Sweeps order o) :=
  inferInstanceAs (Decidable (_ ∧ _))

/-- The sweep of `o` before each of its passes. -/
def sweepPasses (sim : ExecutionSimulator k) (cfg : SimConfig) (o : SimInbound) (ts : Nat) :
    List (Sweep k) :=
  passes cfg o ((sim.opened cfg ts).crossStart o.qty).fuel ((sim.opened cfg ts).crossStart o.qty)

/-- The executions of the displayed part of an external execution. -/
def externalConsumptions (sim : ExecutionSimulator k) (cfg : SimConfig) (s : Side) (price : Int) :
    List (ExecutionSimulator k × Int) :=
  let q := sim.book.qtyAt s price
  let track := { sim.track with recentSync := [] }
  consumptions cfg s price q q.toNat 0
    { sim.repegHidden with track := track.subtractLevel sim.book s price q false }

/-- The states in which an event taps the ledger, with the side and the price. -/
def taps (sim : ExecutionSimulator k) (cfg : SimConfig) :
    Event → List (ExecutionSimulator k × Side × Int)
  | .inbound order ts =>
      match sim.resolved order with
      | none => []
      | some o =>
          if sim.Sweeps order o then
            ((sim.sweepPasses cfg o ts).filterMap (handOff cfg o)).map
              (fun u => (u.1.sim, o.side.opp, u.2))
          else []
  | .external s price qty =>
      if sim.halted = false ∧ sim.book.qtyAt s price < qty then
        [(sim.repegHidden.consumeLevel cfg s price (sim.book.qtyAt s price), s, price)]
      else []

/-- Whenever an event executes hidden quantity, nothing is displayed at its price. -/
def DisplayedFirst (sim : ExecutionSimulator k) (cfg : SimConfig) (ev : Event) : Prop :=
  ∀ m ∈ sim.taps cfg ev, HasHidden m.1.hidden m.2.1 m.2.2 → m.1.book.qtyAt m.2.1 m.2.2 = 0

instance (sim : ExecutionSimulator k) (cfg : SimConfig) (ev : Event) :
    Decidable (sim.DisplayedFirst cfg ev) := inferInstanceAs (Decidable (∀ m ∈ _, _))

/-- The condition for it, on the states before the passes of a sweep, or before the
executions of external flow that asks for more than is displayed. -/
def EventSafe (sim : ExecutionSimulator k) (cfg : SimConfig) : Event → Prop
  | .inbound order ts => ∀ o, sim.Sweeps order o →
      ∀ w ∈ sim.sweepPasses cfg o ts, HandsOverLast cfg o w
  | .external s price qty => sim.halted = false → sim.book.qtyAt s price < qty →
      HasHidden sim.repegHidden.hidden s price →
      ∀ u ∈ sim.externalConsumptions cfg s price, NoSlice s price u

/-- **External flow for more than is displayed taps the ledger** once, where `taps` says. -/
theorem applyExternal_taps (sim : ExecutionSimulator k) (cfg : SimConfig) (s : Side)
    (price qty : Int) (hlive : sim.halted = false) (hlt : sim.book.qtyAt s price < qty) :
    sim.applyExternal cfg s price qty
      = ((sim.repegHidden.consumeLevel cfg s price (sim.book.qtyAt s price)).tapHidden cfg s price
          (qty - sim.book.qtyAt s price) 0).1 := by
  have hbook : sim.repegHidden.book = sim.book := rfl
  unfold applyExternal
  rw [if_neg (by rw [hlive]; decide)]
  dsimp only
  rw [hbook, if_pos hlt, Int.min_eq_right (Int.le_of_lt hlt)]

/-- External flow leaves the ledger to its tap. -/
theorem consumeLoop_hidden {s : Side} {p q : Int} (h : SimInv cfg sim) (hq : 0 ≤ q) :
    (consumeLoop cfg s p q q.toNat 0 sim).1.hidden = sim.hidden := by
  refine (consumeLoop_rule (I := fun _ x => x.hidden = sim.hidden) ?_ q.toNat 0 sim h rfl hq
    (by omega)).2.1
  intro a mid b applied i l take hinv hI _ hf htake hpos hc
  have hs : Shown mid b (a.book.order i).orderRef := hc.shown
  exact ((Shown.fields hs).1.trans hc.exec.hidden).trans hI

/-- **The displayed part of an external execution** empties its level exactly when no slice
joins it. -/
theorem external_iff (h : SimInv cfg sim) (s : Side) (price : Int) :
    (sim.repegHidden.consumeLevel cfg s price (sim.book.qtyAt s price)).hidden
        = sim.repegHidden.hidden
      ∧ ((sim.repegHidden.consumeLevel cfg s price (sim.book.qtyAt s price)).book.qtyAt s price = 0
        ↔ ∀ u ∈ sim.externalConsumptions cfg s price, NoSlice s price u) := by
  have hnn : 0 ≤ sim.book.qtyAt s price := by
    rw [h.book.qtyAt_eq]
    refine List.sum_nonneg (fun x hx => ?_)
    obtain ⟨j, hj, rfl⟩ := List.mem_map.mp hx
    exact Int.le_of_lt (h.book.pos j ((h.book.mem _ _ j).mp hj).1)
  have hclear := h.repegHidden.clearSync
  obtain ⟨off, hr⟩ := subtractLevel_repositioned hclear.mirror hclear.book s price
    (sim.book.qtyAt s price) false
  have hsub := hclear.repositioned hr
  unfold ExecutionSimulator.consumeLevel externalConsumptions
  dsimp only
  have hbook : sim.repegHidden.book = sim.book := rfl
  have htrack : sim.repegHidden.track = sim.track := rfl
  rw [hbook, htrack] at hsub ⊢
  generalize ({ sim.track with recentSync := [] } : TrackTable).subtractLevel sim.book s price
    (sim.book.qtyAt s price) false = t at *
  have hhid := consumeLoop_hidden (s := s) (p := price) hsub hnn
  have hemp := consumeLoop_empties (s := s) (p := price) (q := sim.book.qtyAt s price)
    (sim.book.qtyAt s price).toNat 0 _ hsub (by omega) (by omega)
    (by rw [Int.sub_zero])
  rw [Int.sub_zero] at hemp
  have hiff := hemp.trans (and_iff_right rfl)
  split
  · exact ⟨hhid, hiff⟩
  · exact ⟨hhid, hiff⟩

/-- Two and three units displayed at five, and four hidden there. -/
def hiddenBehind : List SimCall :=
  [.seedExternal 1 .sell 2 5, .seedExternal 2 .sell 3 5,
    .submit { ref := 100, side := .sell, qty := 4, price := 5, nonDisplayed := true } 0,
    .decideNext]

end ExecutionSimulator

end Mog
