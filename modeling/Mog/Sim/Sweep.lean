import Mog.Sim.Inv

/-!
# The sweep, pass by pass

`step_cases` says what one pass of the sweep's loop can do, and `loop_rule` turns what
every pass preserves into what a whole sweep preserves: a pass that goes on lowers
`Sweep.work`, so the loop always ends on a condition of its own.

A pass ends the loop, taps the ledger, executes the head of the touch or removes a victim. The
measure counts what is left to be filled and what is left to be met, so that each pass that goes
on lowers it, and the rules for invariants and for sequences of moves hold without any
assumption about fuel.
-/

namespace Mog

open QueueSum TrackTable ExecutionSimulator

namespace Sweep

variable {k : Nat} {cfg : SimConfig} {w w' : Sweep k} {order : SimInbound}

/-! ## Notes of takes -/

/-- At most positions have changed, and the notes of what was taken. -/
structure Noted (cfg : SimConfig) (w w' : Sweep k) : Prop where
  inv : SimInv cfg w'.sim
  sim : ∃ t, w'.sim = { w.sim with track := t } ∧ SameLevels w.sim.track t
  remaining : w'.remaining = w.remaining
  filled : w'.filled = w.filled
  notional : w'.notional = w.notional

theorem Noted.fields (h : Noted cfg w w') : w'.sim.book = w.sim.book
    ∧ w'.sim.icebergs = w.sim.icebergs ∧ w'.sim.hidden = w.sim.hidden ∧ w'.sim.log = w.sim.log
    ∧ SameEnv w.sim w'.sim := by
  obtain ⟨t, hs, _⟩ := h.sim
  rw [hs]
  exact ⟨rfl, rfl, rfl, rfl, rfl, rfl, rfl, rfl⟩

theorem noteTake_spec (h : SimInv cfg w.sim) (opp : Side) (touch qty : Int) :
    Noted cfg w (w.noteTake opp touch qty) := by
  have hsame : ∃ t, w.sim = { w.sim with track := t } ∧ SameLevels w.sim.track t :=
    ⟨w.sim.track, rfl, SameLevels.refl _⟩
  unfold noteTake
  split
  · exact ⟨h, hsame, rfl, rfl, rfl⟩
  split
  · exact ⟨h, hsame, rfl, rfl, rfl⟩
  · dsimp only
    split
    · obtain ⟨off, hr⟩ := subtractLevel_repositioned h.mirror h.book opp w.pendingOverflow
        w.pendingOverflowTake true
      exact ⟨h.repositioned hr, ⟨_, rfl, hr.same⟩, rfl, rfl, rfl⟩
    · exact ⟨h, hsame, rfl, rfl, rfl⟩

/-! ## A match with the head of the touch -/

/-- `take` units of slot `i`'s order have been executed, leaving `mid`, and its iceberg has
shown the next slice if there was one to show. -/
structure Hit (cfg : SimConfig) (w : Sweep k) (mid : ExecutionSimulator k) (w' : Sweep k) (i : Nat)
    (take : Int) : Prop where
  inv : SimInv cfg w'.sim
  mirror : Mirror cfg.externalRefLimit mid.book mid.track
  book : OrderBook.Reduced w.sim.book w.sim.book.levelSlots mid.book i take
  icebergs : mid.icebergs = w.sim.icebergs
  hidden : mid.hidden = w.sim.hidden
  log : mid.log = w.sim.log.displayedFill cfg (w.sim.executionOf i take)
  env : SameEnv w.sim mid
  shown : (w'.sim = mid ∧ NothingToShow mid (w.sim.book.order i).orderRef)
    ∨ ∃ ib rest j, ib.ref = (w.sim.book.order i).orderRef ∧ Replenished mid w'.sim ib rest j
  filled : w'.filled = w.filled + take
  remaining : w'.remaining = w.remaining - take
  notional : w'.notional
    = (w.notional + notionalOf (w.sim.book.order i).priceTicks take) % 2 ^ 64

/-- An order that has left the book has left a slot free. -/
theorem room_of_gone {b b' : OrderBook k} {i : Nat} {take : Int} (hb : b.Valid) (hi : b.live i)
    (hr : OrderBook.Reduced b b.levelSlots b' i take)
    (hgone : (b'.findHandle (b.order i).orderRef).index = kNullIndex) :
    b'.arena.liveCount < b'.arena.capacity := by
  have hz : b.rem i = take := by
    by_contra hne
    have hlive : b'.live i := (hr.live i).mpr ⟨hi, fun hh => hne hh.2⟩
    have := (hr.valid.idFind_null_iff (hb.ref i hi)).mp hgone i hlive
    exact this (hr.kept hlive).1
  have hcount := hr.count
  rw [if_pos hz] at hcount
  obtain ⟨fl, hfl⟩ := hb.arena
  have := hfl.liveCount_le
  rw [hr.config.capacity]
  omega

theorem notionalOf_comm (a b : Int) : notionalOf a b = notionalOf b a := by
  rw [notionalOf, notionalOf, Nat.mul_comm]

/-- The iceberg behind an executed head, shown as far as it goes. -/
theorem shown_spec {mid : ExecutionSimulator k} (h : SimInv cfg w.sim) (hmid : SimInv cfg mid)
    {i : Nat} {take : Int} (hi : w.sim.book.live i)
    (hr : OrderBook.Reduced w.sim.book w.sim.book.levelSlots mid.book i take) :
    SimInv cfg (mid.replenishIfIceberg (w.sim.book.order i).orderRef)
      ∧ ((mid.replenishIfIceberg (w.sim.book.order i).orderRef = mid
          ∧ NothingToShow mid (w.sim.book.order i).orderRef)
        ∨ ∃ ib rest j, ib.ref = (w.sim.book.order i).orderRef
          ∧ Replenished mid (mid.replenishIfIceberg (w.sim.book.order i).orderRef) ib rest j) := by
  rcases replenishIfIceberg_spec hmid.book hmid.icebergs (room_of_gone h.book hi hr) with
    ⟨heq, hno⟩ | ⟨ib, rest, j, href, hrep⟩
  · rw [heq]
    exact ⟨hmid, Or.inl ⟨rfl, hno⟩⟩
  · exact ⟨hmid.replenished hrep, Or.inr ⟨ib, rest, j, href, hrep⟩⟩

/-- The part of `execute_head` before the ledger is tapped. -/
def matchHead (w : Sweep k) (cfg : SimConfig) (opp : Side) (touch : Int) (head : Nat)
    (hh : GenHandle) (take : Int) : Sweep k :=
  let w := w.noteTake opp touch take
  let w := { w with sim := w.sim.reduceAndSync cfg opp head touch take true hh }
  let w := { w with sim := w.sim.replenishIfIceberg head }
  w.count touch take

theorem executeHead_eq (opp : Side) (touch : Int) (head : Nat) (hh : GenHandle) (headRem : Int) :
    w.executeHead cfg opp touch head hh headRem
      = (if 0 < (w.matchHead cfg opp touch head hh (min w.remaining headRem)).remaining then
          (w.matchHead cfg opp touch head hh (min w.remaining headRem)).tap cfg opp touch
        else w.matchHead cfg opp touch head hh (min w.remaining headRem)) := rfl

theorem matchHead_hit (h : SimInv cfg w.sim) {s : Side} {p : Int} {i : Nat} {l : List Nat}
    (hf : w.sim.book.Front s p i l) {take : Int} (hpos : 0 < take) (hle : take ≤ w.sim.book.rem i) :
    ∃ mid, Hit cfg w mid (w.matchHead cfg s p (w.sim.book.order i).orderRef
      (w.sim.book.findHandle (w.sim.book.order i).orderRef) take) i take := by
  have hn := noteTake_spec h s p take
  obtain ⟨hbook, hice, hhid, hlog, henv⟩ := hn.fields
  unfold matchHead
  dsimp only
  generalize w.noteTake s p take = u at *
  have he : Executed cfg u.sim (u.sim.reduceAndSync cfg s (w.sim.book.order i).orderRef p take true
      (w.sim.book.findHandle (w.sim.book.order i).orderRef)) i take := by
    rw [← hbook]
    rw [← hbook] at hf hle
    exact reduceAndSync_spec hn.inv.book hn.inv.mirror hf hpos hle true
  have hexec : u.sim.executionOf i take = w.sim.executionOf i take := by
    rw [executionOf, executionOf, hbook]
  have hred := he.book
  have hlog' := he.log
  rw [hbook] at hred
  rw [hexec, hlog] at hlog'
  obtain ⟨hinv, hshown⟩ := shown_spec h (hn.inv.executed he) hf.live hred
  exact ⟨_,
    { inv := hinv, mirror := he.mirror, book := hred, icebergs := he.icebergs.trans hice,
      hidden := he.hidden.trans hhid, log := hlog', env := henv.trans he.env, shown := hshown,
      filled := congrArg (fun x => x + take) hn.filled,
      remaining := congrArg (fun x => x - take) hn.remaining,
      notional := by
        rw [notionalOf_comm, hf.price]
        exact congrArg (fun x => (x + notionalOf take p) % 2 ^ 64) hn.notional }⟩

theorem decrementVictim_hit (h : SimInv cfg w.sim) {s : Side} {p : Int} {i : Nat} {l : List Nat}
    (hf : w.sim.book.Front s p i l) {take : Int} (htake : take = min (w.sim.book.rem i) w.remaining)
    (hpos : 0 < take) :
    ∃ mid, Hit cfg w mid (w.decrementVictim cfg s p (w.sim.book.order i).orderRef
      (w.sim.book.findHandle (w.sim.book.order i).orderRef) (w.sim.book.rem i)) i take := by
  have hle : take ≤ w.sim.book.rem i := by omega
  have he := reduceAndSync_spec h.book h.mirror hf hpos hle false
  unfold decrementVictim
  dsimp only
  rw [← htake]
  generalize w.sim.reduceAndSync cfg s (w.sim.book.order i).orderRef p take false
    (w.sim.book.findHandle (w.sim.book.order i).orderRef) = mid at *
  have hn := noteTake_spec (w := { w with sim := mid }) (h.executed he) s p take
  obtain ⟨hbook, hice, hhid, hlog, henv⟩ := hn.fields
  generalize Sweep.noteTake { w with sim := mid } s p take = u at *
  have hred := he.book
  have hlog' := he.log
  rw [← hbook] at hred
  rw [← hlog] at hlog'
  obtain ⟨hinv, hshown⟩ := shown_spec h hn.inv hf.live hred
  exact ⟨u.sim,
    { inv := hinv, mirror := hn.inv.mirror, book := hred, icebergs := hice.trans he.icebergs,
      hidden := hhid.trans he.hidden, log := hlog', env := he.env.trans henv, shown := hshown,
      filled := congrArg (fun x => x + take) hn.filled,
      remaining := congrArg (fun x => x - take) hn.remaining,
      notional := by
        rw [notionalOf_comm, hf.price]
        exact congrArg (fun x => (x + notionalOf take p) % 2 ^ 64) hn.notional }⟩

/-! ## A victim removed -/

/-- Slot `i`'s order has been removed, and the removal noted. -/
structure Removed (cfg : SimConfig) (w w' : Sweep k) (i : Nat) : Prop where
  inv : SimInv cfg w'.sim
  book : OrderBook.Reduced w.sim.book w.sim.book.levelSlots w'.sim.book i (w.sim.book.rem i)
  icebergs : w'.sim.icebergs = w.sim.icebergs
  hidden : w'.sim.hidden = w.sim.hidden
  log : w'.sim.log = w.sim.log
  env : SameEnv w.sim w'.sim
  remaining : w'.remaining = w.remaining
  filled : w'.filled = w.filled
  notional : w'.notional = w.notional

theorem removeVictim_removed (h : SimInv cfg w.sim) {s : Side} {p : Int} {i : Nat} {l : List Nat}
    (hf : w.sim.book.Front s p i l) :
    Removed cfg w (w.removeVictim s p (w.sim.book.order i).orderRef
      (w.sim.book.findHandle (w.sim.book.order i).orderRef) (w.sim.book.rem i)) i := by
  have hw := withdrawn_spec h.book h.mirror hf.live
  unfold removeVictim
  rw [hf.handle]
  generalize ({ w.sim with
    book := (w.sim.book.remove (w.sim.book.order i).orderRef).book
    track := w.sim.track.retire i } : ExecutionSimulator k) = mid at *
  have hn := noteTake_spec (w := { w with sim := mid }) (h.withdrawn hw) s p (w.sim.book.rem i)
  obtain ⟨hbook, hice, hhid, hlog, henv⟩ := hn.fields
  have hred := hw.book
  rw [← hbook] at hred
  exact
    { inv := hn.inv, book := hred, icebergs := hice.trans hw.icebergs,
      hidden := hhid.trans hw.hidden, log := hlog.trans hw.log, env := hw.env.trans henv,
      remaining := hn.remaining, filled := hn.filled, notional := hn.notional }

/-! ## What a pass can do -/

/-- The head of the opposite touch is the next to be matched. -/
structure AtTouch (order : SimInbound) (w : Sweep k) (i : Nat) (l : List Nat) : Prop where
  best : w.sim.book.best order.side.opp ≠ kNoTick
  ahead : ¬ hiddenBetter order.side (w.sim.bestHiddenPrice order.side.opp)
    (w.sim.book.best order.side.opp)
  bound : ¬ beyond order (w.sim.book.best order.side.opp)
  front : w.sim.book.Front order.side.opp (w.sim.book.best order.side.opp) i l

/-- `execute_head` on slot `i`. -/
def executeSlot (w : Sweep k) (cfg : SimConfig) (order : SimInbound) (i : Nat) : Sweep k :=
  w.executeHead cfg order.side.opp (w.sim.book.best order.side.opp) (w.sim.book.order i).orderRef
    (w.sim.book.findHandle (w.sim.book.order i).orderRef) (w.sim.book.rem i)

def removeSlot (w : Sweep k) (order : SimInbound) (i : Nat) : Sweep k :=
  w.removeVictim order.side.opp (w.sim.book.best order.side.opp) (w.sim.book.order i).orderRef
    (w.sim.book.findHandle (w.sim.book.order i).orderRef) (w.sim.book.rem i)

def decrementSlot (w : Sweep k) (cfg : SimConfig) (order : SimInbound) (i : Nat) : Sweep k :=
  w.decrementVictim cfg order.side.opp (w.sim.book.best order.side.opp)
    (w.sim.book.order i).orderRef (w.sim.book.findHandle (w.sim.book.order i).orderRef)
    (w.sim.book.rem i)

/-- What one pass can do. -/
inductive StepCase (cfg : SimConfig) (order : SimInbound) (w : Sweep k) : SweepStep k → Prop where
  | tap (hbetter : hiddenBetter order.side (w.sim.bestHiddenPrice order.side.opp)
        (w.sim.book.best order.side.opp))
      (hbound : ¬ beyond order (w.sim.bestHiddenPrice order.side.opp)) :
      StepCase cfg order w
        (.more (w.tap cfg order.side.opp (w.sim.bestHiddenPrice order.side.opp)))
  | leaveHidden (hbetter : hiddenBetter order.side (w.sim.bestHiddenPrice order.side.opp)
        (w.sim.book.best order.side.opp))
      (hbound : beyond order (w.sim.bestHiddenPrice order.side.opp)) :
      StepCase cfg order w .leave
  | leave (hahead : ¬ hiddenBetter order.side (w.sim.bestHiddenPrice order.side.opp)
        (w.sim.book.best order.side.opp))
      (hbound : w.sim.book.best order.side.opp = kNoTick
        ∨ beyond order (w.sim.book.best order.side.opp)) :
      StepCase cfg order w .leave
  | execute (i : Nat) (l : List Nat) (ht : AtTouch order w i l)
      (hfree : w.sim.book.Own cfg.externalRefLimit i → w.sim.stp = .none) :
      StepCase cfg order w (.more (w.executeSlot cfg order i))
  | stop (i : Nat) (l : List Nat) (ht : AtTouch order w i l)
      (hown : w.sim.book.Own cfg.externalRefLimit i) (hstp : w.sim.stp = .cancelNewest) :
      StepCase cfg order w .stpStop
  | remove (i : Nat) (l : List Nat) (ht : AtTouch order w i l)
      (hown : w.sim.book.Own cfg.externalRefLimit i) (hstp : w.sim.stp = .cancelOldest) :
      StepCase cfg order w (.more (w.removeSlot order i))
  | decrement (i : Nat) (l : List Nat) (ht : AtTouch order w i l)
      (hown : w.sim.book.Own cfg.externalRefLimit i) (hstp : w.sim.stp = .decrement) :
      StepCase cfg order w (.more (w.decrementSlot cfg order i))

/-- A side's best price is that of a level with a head. -/
theorem front_of_best {b : OrderBook k} (hb : b.Valid) {s : Side} (hne : b.best s ≠ kNoTick) :
    ∃ i l, b.Front s (b.best s) i l := by
  rcases hb.best s with ⟨h1, _⟩ | ⟨_, h2, _⟩
  · exact absurd h1 hne
  · cases hq : b.levelSlots s (b.best s) with
    | nil => exact absurd hq h2
    | cons i l => exact ⟨i, l, OrderBook.front_of_slots hb hq⟩

/-- **What one pass of the sweep can do.** -/
theorem step_cases (order : SimInbound) (h : SimInv cfg w.sim) :
    StepCase cfg order w (w.step cfg order) := by
  unfold step
  dsimp only
  by_cases hbet : hiddenBetter order.side (w.sim.bestHiddenPrice order.side.opp)
      (w.sim.book.best order.side.opp)
  · rw [if_pos hbet]
    by_cases hbey : beyond order (w.sim.bestHiddenPrice order.side.opp)
    · rw [if_pos hbey]
      exact .leaveHidden hbet hbey
    · rw [if_neg hbey]
      exact .tap hbet hbey
  rw [if_neg hbet]
  by_cases htick : w.sim.book.best order.side.opp = kNoTick
  · rw [if_pos htick]
    exact .leave hbet (Or.inl htick)
  rw [if_neg htick]
  by_cases hbey : beyond order (w.sim.book.best order.side.opp)
  · rw [if_pos hbey]
    exact .leave hbet (Or.inr hbey)
  rw [if_neg hbey]
  obtain ⟨i, l, hf⟩ := front_of_best h.book htick
  have ht : AtTouch order w i l := ⟨htick, hbet, hbey, hf⟩
  have hlive : w.sim.track.isLive i ↔ w.sim.book.Own cfg.externalRefLimit i :=
    (isLive_iff h.mirror.inv i).trans (h.mirror.at?_iff i)
  rw [hf.frontRef, if_neg (h.book.ref i hf.live), hf.remainingOfHandle, hf.handle]
  by_cases hown : w.sim.track.isLive i
  · rw [if_pos hown]
    have hown' := hlive.mp hown
    have hhandle := hf.handle
    cases hstp : w.sim.stp with
    | none => exact .execute i l ht (fun _ => hstp)
    | cancelNewest => exact .stop i l ht hown' hstp
    | cancelOldest => exact .remove i l ht hown' hstp
    | decrement => exact .decrement i l ht hown' hstp
  · rw [if_neg hown]
    exact .execute i l ht (fun ho => absurd (hlive.mpr ho) hown)

/-! ## The loop ends on its own -/

/-- A bound on the passes still to come. -/
def work (w : Sweep k) : Nat :=
  w.remaining.toNat + ledgerWork w.sim.hidden + w.sim.book.liveOrders

theorem fuel_eq (w : Sweep k) : w.fuel = w.work + 1 := rfl

/-- The best hidden price is that of an entry with quantity left. -/
theorem bestHiddenPrice_mem {sim : ExecutionSimulator k} {opp : Side}
    (h : sim.bestHiddenPrice opp ≠ kNoTick) : ∃ e ∈ sim.hidden, e.side = opp
      ∧ e.qtyRemaining ≠ 0 ∧ e.priceTicks = sim.bestHiddenPrice opp := by
  -- over any start of the fold that is no price, or the price of an entry
  have hfold : ∀ (l : List Hidden) (P : Int → Prop) (a : Int), (a ≠ kNoTick → P a) →
      (∀ e ∈ l, e.side = opp → e.qtyRemaining ≠ 0 → P e.priceTicks) →
      ∀ r, r = l.foldl (fun best h =>
        if h.side ≠ opp ∨ h.qtyRemaining = 0 then best
        else if best = kNoTick then h.priceTicks
        else if opp = .buy ∧ best < h.priceTicks then h.priceTicks
        else if opp = .sell ∧ h.priceTicks < best then h.priceTicks
        else best) a → r ≠ kNoTick → P r := by
    intro l P
    induction l with
    | nil => intro a ha _ r hr hne; rw [hr] at hne ⊢; exact ha hne
    | cons e l ih =>
        intro a ha hall r hr hne
        rw [List.foldl_cons] at hr
        refine ih _ (fun hn => ?_) (fun x hx => hall x (by simp [hx])) r hr hne
        by_cases hskip : e.side ≠ opp ∨ e.qtyRemaining = 0
        · rw [if_pos hskip] at hn ⊢
          exact ha hn
        · rw [if_neg hskip] at hn ⊢
          rw [not_or, not_not] at hskip
          have hP := hall e (by simp) hskip.1 hskip.2
          split_ifs at hn ⊢
          · exact hP
          · exact hP
          · exact hP
          · exact ha hn
  exact hfold sim.hidden (fun p => ∃ e ∈ sim.hidden, e.side = opp ∧ e.qtyRemaining ≠ 0
    ∧ e.priceTicks = p) kNoTick (fun hn => absurd rfl hn)
    (fun e he hs hq => ⟨e, he, hs, hq, rfl⟩) _ rfl h

theorem tap_work (hrem : 0 < w.remaining) {opp : Side} {p : Int} :
    (w.tap cfg opp p).work ≤ w.work
      ∧ ((∃ h ∈ w.sim.hidden, h.side = opp ∧ h.priceTicks = p) → (w.tap cfg opp p).work < w.work) := by
  have hwork := tapLoop_work cfg opp p w.sim.hidden
    { log := w.sim.log, remaining := w.remaining, notional := w.notional }
  have hlive : (w.tap cfg opp p).sim.book.liveOrders = w.sim.book.liveOrders := rfl
  have heq : (w.tap cfg opp p).work
      = (tapLoop cfg opp p w.sim.hidden { log := w.sim.log, remaining := w.remaining
                                          notional := w.notional }).2.remaining.toNat
        + ledgerWork (tapLoop cfg opp p w.sim.hidden
            { log := w.sim.log, remaining := w.remaining, notional := w.notional }).1
        + w.sim.book.liveOrders := rfl
  rw [heq, work]
  dsimp only at hwork
  exact ⟨by omega, fun hex => by have := hwork.2 hrem hex; omega⟩

theorem Hit.work_lt {mid : ExecutionSimulator k} {i : Nat} {take : Int} (h : Hit cfg w mid w' i take)
    (hi : w.sim.book.live i) (hpos : 0 < take) (hle : take ≤ w.remaining) : w'.work < w.work := by
  have hcount := h.book.count
  have hhid : w'.sim.hidden = w.sim.hidden ∧ w'.sim.book.liveOrders ≤ w.sim.book.liveOrders := by
    rcases h.shown with ⟨heq, _⟩ | ⟨ib, rest, j, href, hrep⟩
    · rw [heq]
      exact ⟨h.hidden, by unfold OrderBook.liveOrders; omega⟩
    · refine ⟨hrep.hidden.trans h.hidden, ?_⟩
      have hcount' := hrep.book.count
      -- the slice takes the slot the order has left
      have hz : w.sim.book.rem i = take := by
        by_contra hne
        have hlive : mid.book.live i := (h.book.live i).mpr ⟨hi, fun hh => hne hh.2⟩
        have hkept := (h.book.kept hlive).1
        have hfree := hrep.free
        rw [href, ← hkept] at hfree
        have hnz := h.book.valid.ref i hlive
        exact (h.book.valid.idFind_null_iff hnz).mp hfree i hlive rfl
      rw [if_pos hz] at hcount
      unfold OrderBook.liveOrders
      omega
  unfold work
  rw [h.remaining, hhid.1]
  have := hhid.2
  omega

theorem Removed.work_lt {i : Nat} (h : Removed cfg w w' i) : w'.work < w.work := by
  have hcount := h.book.count
  rw [if_pos rfl] at hcount
  unfold work OrderBook.liveOrders
  rw [h.remaining, h.hidden]
  omega

/-- **A pass that goes on lowers the work left** and keeps the invariant. -/
theorem step_more (h : SimInv cfg w.sim) (hrem : 0 < w.remaining)
    (hstep : w.step cfg order = .more w') : SimInv cfg w'.sim ∧ w'.work < w.work := by
  have hcase := step_cases order h
  rw [hstep] at hcase
  cases hcase with
  | tap hbetter hbound =>
      obtain ⟨e, he, hs, _, hp⟩ := bestHiddenPrice_mem hbetter.1
      exact ⟨h.tapped _ _ _ _, (tap_work hrem).2 ⟨e, he, hs, hp⟩⟩
  | execute i l ht hfree =>
      have hpos : 0 < min w.remaining (w.sim.book.rem i) := by
        have := h.book.pos i ht.front.live
        omega
      obtain ⟨mid, hhit⟩ := matchHead_hit h ht.front hpos (by omega)
      have hlt := hhit.work_lt ht.front.live hpos (by omega)
      rw [executeSlot, executeHead_eq]
      split
      · rename_i hrem'
        exact ⟨hhit.inv.tapped _ _ _ _, Nat.lt_of_le_of_lt (tap_work hrem').1 hlt⟩
      · exact ⟨hhit.inv, hlt⟩
  | remove i l ht hown hstp =>
      have hrm := removeVictim_removed h ht.front
      exact ⟨hrm.inv, hrm.work_lt⟩
  | decrement i l ht hown hstp =>
      have hpos : 0 < min (w.sim.book.rem i) w.remaining := by
        have := h.book.pos i ht.front.live
        omega
      obtain ⟨mid, hhit⟩ := decrementVictim_hit h ht.front rfl hpos
      exact ⟨hhit.inv, hhit.work_lt ht.front.live hpos (by omega)⟩

/-- How a sweep ends. -/
inductive Ended (cfg : SimConfig) (order : SimInbound) (w : Sweep k) : SweepEnd → Prop where
  | filled (h : w.remaining ≤ 0) : Ended cfg order w .done
  | left (hrem : 0 < w.remaining) (h : w.step cfg order = .leave) : Ended cfg order w .done
  | stopped (hrem : 0 < w.remaining) (h : w.step cfg order = .stpStop) : Ended cfg order w .stpStop

/-- **What every pass preserves, a sweep preserves.** -/
theorem loop_rule {I : Sweep k → Prop}
    (hstep : ∀ w w', SimInv cfg w.sim → I w → 0 < w.remaining → w.step cfg order = .more w' → I w') :
    ∀ fuel w, SimInv cfg w.sim → I w → w.work < fuel →
      SimInv cfg (w.loop cfg order fuel).1.sim ∧ I (w.loop cfg order fuel).1
        ∧ Ended cfg order (w.loop cfg order fuel).1 (w.loop cfg order fuel).2 := by
  intro fuel
  induction fuel with
  | zero => intro w _ _ hlt; exact absurd hlt (Nat.not_lt_zero _)
  | succ fuel ih =>
      intro w h hI hlt
      rw [loop]
      by_cases hrem : w.remaining ≤ 0
      · rw [if_pos hrem]
        exact ⟨h, hI, .filled hrem⟩
      rw [if_neg hrem]
      have hpos : 0 < w.remaining := by omega
      cases hs : w.step cfg order with
      | more w' =>
          obtain ⟨h', hlt'⟩ := step_more h hpos hs
          exact ih w' h' (hstep w w' h hI hpos hs) (by omega)
      | leave => exact ⟨h, hI, .left hpos hs⟩
      | stpStop => exact ⟨h, hI, .stopped hpos hs⟩

end Sweep

end Mog
