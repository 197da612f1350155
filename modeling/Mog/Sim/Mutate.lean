import Mog.Sim.Sweep

/-!
# Cancel, replace and the placing of a remainder

What `cancel_strategy` and `replace_strategy` can do to the book, the trackers and the
ledger, and what `decide` does with the quantity it has not executed. Each is stated
once, as the cases it can end in.

The cases name what the call has found, an order of the strategy's in the book, an entry of the
ledger or nothing, and carry the elementary change that was made. A replace in the book takes
the old order out before the new one comes to rest, and both steps are in the case.
-/

namespace Mog

open QueueSum TrackTable

namespace ExecutionSimulator

variable {k : Nat} {cfg : SimConfig} {sim : ExecutionSimulator k}

/-- Slot `i` holds the strategy's order `ref`. -/
structure Holds (cfg : SimConfig) (sim : ExecutionSimulator k) (ref i : Nat) : Prop where
  own : sim.book.Own cfg.externalRefLimit i
  ref_eq : (sim.book.order i).orderRef = ref
  handle : (sim.book.findHandle ref).index = i

/-- **`tracked_index_of`** finds the strategy's live orders and nothing else. -/
theorem trackedIndexOf_cases (h : SimInv cfg sim) (ref : Nat) :
    (sim.trackedIndexOf ref = kNullIndex
        ∧ ∀ i, sim.book.Own cfg.externalRefLimit i → (sim.book.order i).orderRef ≠ ref)
      ∨ ∃ i, sim.trackedIndexOf ref = i ∧ i ≠ kNullIndex ∧ Holds cfg sim ref i := by
  unfold trackedIndexOf
  dsimp only
  by_cases hz : ref = 0
  · have hnull : (sim.book.findHandle ref).index = kNullIndex := by
      rw [hz, OrderBook.findHandle, OrderBook.idFind_zero]
    rw [if_pos hnull]
    exact Or.inl ⟨rfl, fun i hi => by rw [hz]; exact h.book.ref i hi.1⟩
  by_cases hn : (sim.book.findHandle ref).index = kNullIndex
  · rw [if_pos hn]
    exact Or.inl ⟨rfl, fun i hi => (h.book.idFind_null_iff hz).mp hn i hi.1⟩
  rw [if_neg hn]
  obtain ⟨hl, href, _⟩ := h.book.idFind_live hz hn
  have hlive := (live_iff (t := sim.track) (sim.book.findHandle ref).index).trans
    (h.mirror.at?_iff _)
  by_cases hown : (sim.track.tracked (sim.book.findHandle ref).index).live = true
  · rw [if_pos hown]
    exact Or.inr ⟨_, rfl, hn, hlive.mp hown, href, rfl⟩
  · rw [if_neg hown]
    refine Or.inl ⟨rfl, fun i hi hri => hown (hlive.mpr ?_)⟩
    have := h.book.ref_inj hi.1 hl (hri.trans href.symm)
    rw [this] at hi
    exact hi

/-- What the tracker of a live order records. -/
theorem Holds.tracked {ref i : Nat} (hh : Holds cfg sim ref i) (h : SimInv cfg sim) :
    (sim.track.tracked i).side = (sim.book.order i).side
      ∧ (sim.track.tracked i).priceTicks = (sim.book.order i).priceTicks := by
  obtain ⟨a, ha⟩ := h.mirror.own i hh.own
  have hview := (at?_eq_some.mp ha).2
  exact ⟨congrArg TrackView.side hview, congrArg TrackView.priceTicks hview⟩

/-! ## Cancel -/

/-- **What `cancel_strategy` can do.** -/
inductive CancelCase (cfg : SimConfig) (sim : ExecutionSimulator k) (ref : Nat) :
    Bool × ExecutionSimulator k → Prop where
  | tracked (i : Nat) (mid : ExecutionSimulator k) (hh : Holds cfg sim ref i)
      (hw : Withdrawn cfg sim mid i) :
      CancelCase cfg sim ref (true, { mid with
        track := mid.track.recomputePositions mid.book (sim.book.order i).side
          (sim.book.order i).priceTicks })
  | hidden (hno : ∀ i, sim.book.Own cfg.externalRefLimit i → (sim.book.order i).orderRef ≠ ref)
      (hmem : ∃ h ∈ sim.hidden, h.ref = ref) :
      CancelCase cfg sim ref (true, { sim with
        hidden := eraseHidden ref sim.hidden
        log := { sim.log with seqCounter := sim.log.seqCounter + 1 } })
  | unknown (hno : ∀ i, sim.book.Own cfg.externalRefLimit i → (sim.book.order i).orderRef ≠ ref)
      (hnot : ∀ h ∈ sim.hidden, h.ref ≠ ref) : CancelCase cfg sim ref (false, sim)

theorem cancelStrategy_cases (h : SimInv cfg sim) (ref : Nat) :
    CancelCase cfg sim ref (sim.cancelStrategy ref) := by
  unfold cancelStrategy
  dsimp only
  rcases trackedIndexOf_cases h ref with ⟨hidx, hno⟩ | ⟨i, hidx, hnn, hh⟩
  · rw [if_pos hidx]
    by_cases hany : sim.hidden.any (fun h => h.ref = ref) = true
    · rw [if_pos hany]
      obtain ⟨e, he, href⟩ := List.any_eq_true.mp hany
      exact .hidden hno ⟨e, he, of_decide_eq_true href⟩
    · rw [if_neg hany]
      refine .unknown hno (fun e he href => hany (List.any_eq_true.mpr ⟨e, he, ?_⟩))
      exact decide_eq_true href
  · rw [hidx, if_neg hnn]
    have hw := withdrawn_spec h.book h.mirror hh.own.1
    have htick := (OrderBook.remove_spec h.book hh.own.1).2.1
    obtain ⟨hs, hp⟩ := hh.tracked h
    rw [hh.ref_eq] at hw htick
    rw [if_neg (by rw [htick, not_not]; exact TickKind.noConfusion), hs, hp]
    exact .tracked i _ hh hw

/-- A withdrawal followed by an exact walk of its level. -/
theorem Withdrawn.recomputed {mid : ExecutionSimulator k} {i : Nat} (hw : Withdrawn cfg sim mid i)
    (h : SimInv cfg sim) {off : Nat → Int} (hoff : Off sim.book sim.track off) :
    SimInv cfg { mid with
        track := mid.track.recomputePositions mid.book (sim.book.order i).side
          (sim.book.order i).priceTicks }
      ∧ Off mid.book (mid.track.recomputePositions mid.book (sim.book.order i).side
          (sim.book.order i).priceTicks)
        (fun j => if mid.book.OnSide (sim.book.order i).side (sim.book.order i).priceTicks j then 0
          else off j) := by
  have hmid := h.withdrawn hw
  have hoff' := hw.off_eq h.book hoff
  have hr := recomputePositions_spec hmid.mirror hmid.book hoff' (sim.book.order i).side
    (sim.book.order i).priceTicks
  refine ⟨hmid.repositioned hr, hr.off.congr (fun j hj => ?_)⟩
  by_cases hon : mid.book.OnSide (sim.book.order i).side (sim.book.order i).priceTicks j
  · rw [if_pos hon, if_pos hon]
  · rw [if_neg hon, if_neg hon, if_neg, Int.add_zero]
    -- only those on the order's own level stand behind it
    intro hm
    refine hon ?_
    have hown := (hr.mirror.at?_iff j).mp hj
    obtain ⟨_, hp, hs⟩ := hw.book.kept hown.1
    obtain ⟨_, h1, h2⟩ := (h.book.mem _ _ i).mp (mem_of_mem_before hm)
    exact ⟨hs.trans h1.symm, hp.trans h2.symm⟩

/-! ## Replace -/

/-- The strategy's order in slot `i` has been replaced by one in slot `j`. -/
structure Replaced (cfg : SimConfig) (sim sim' : ExecutionSimulator k) (i j : Nat) (fresh : Nat)
    (qty price : Int) (b : OrderBook k) : Prop where
  gone : OrderBook.Reduced sim.book sim.book.levelSlots b i (sim.book.rem i)
  rested : OrderBook.Rested b b.levelSlots sim'.book j
    ⟨fresh, qty, price, (sim.book.order i).side⟩
  track : sim'.track
    = if (sim.book.order i).priceTicks ≠ price then
        ((sim.track.retire i).trackResting sim'.book fresh (sim.book.order i).side qty
          price).recomputePositions sim'.book (sim.book.order i).side (sim.book.order i).priceTicks
      else (sim.track.retire i).trackResting sim'.book fresh (sim.book.order i).side qty price
  log : sim'.log = sim.log
  icebergs : sim'.icebergs = sim.icebergs
  hidden : sim'.hidden = sim.hidden
  env : SameEnv sim sim'

/-- **What `replace_strategy` can do.** -/
inductive ReplaceCase (cfg : SimConfig) (sim : ExecutionSimulator k) (orig fresh : Nat)
    (qty price : Int) : BookTick × ExecutionSimulator k → Prop where
  | tracked (i j : Nat) (b : OrderBook k) (r : BookTick × ExecutionSimulator k)
      (hh : Holds cfg sim orig i) (hc : sim.book.Replaceable i fresh qty price) (hok : r.1.ok)
      (hr : Replaced cfg sim r.2 i j fresh qty price b) : ReplaceCase cfg sim orig fresh qty price r
  | refused (i : Nat) (tick : BookTick) (hh : Holds cfg sim orig i)
      (hc : ¬ sim.book.Replaceable i fresh qty price) (hok : ¬ tick.ok) :
      ReplaceCase cfg sim orig fresh qty price (tick, sim)
  | hidden (h : Hidden)
      (hno : ∀ i, sim.book.Own cfg.externalRefLimit i → (sim.book.order i).orderRef ≠ orig)
      (hfind : sim.hidden.find? (fun h => h.ref = orig) = some h) :
      ReplaceCase cfg sim orig fresh qty price
        ({ priceTicks := price, qty := toU32 qty, kind := .replaced, side := some h.side },
          { sim with
            hidden := replaceHidden orig fresh qty price sim.hidden
            log := { sim.log with seqCounter := sim.log.seqCounter + 1 } })
  | unknown (hno : ∀ i, sim.book.Own cfg.externalRefLimit i → (sim.book.order i).orderRef ≠ orig)
      (hnot : ∀ h ∈ sim.hidden, h.ref ≠ orig) :
      ReplaceCase cfg sim orig fresh qty price ({}, sim)

theorem replaceStrategy_cases (h : SimInv cfg sim) (orig : Nat) {fresh : Nat} (hfresh : fresh ≠ 0)
    (qty price : Int) :
    ReplaceCase cfg sim orig fresh qty price (sim.replaceStrategy orig fresh qty price) := by
  unfold replaceStrategy
  dsimp only
  rcases trackedIndexOf_cases h orig with ⟨hidx, hno⟩ | ⟨i, hidx, hnn, hh⟩
  · rw [if_pos hidx]
    cases hfind : sim.hidden.find? (fun h => h.ref = orig) with
    | some e => exact .hidden e hno hfind
    | none =>
        refine .unknown hno (fun e he href => ?_)
        have := List.find?_eq_none.mp hfind e he
        exact this (decide_eq_true href)
  · rw [hidx, if_neg hnn]
    obtain ⟨hs, hp⟩ := hh.tracked h
    have hside := h.book.sideOf_live hh.own.1
    rw [hh.ref_eq] at hside
    rw [hside]
    dsimp only
    rw [hp]
    rcases OrderBook.replace_cases h.book hh.own.1 hfresh qty price with
      ⟨hc, hok, b, hred, j, hrest⟩ | ⟨hc, hok, hb⟩
    · rw [hh.ref_eq] at hok hrest
      rw [if_neg (not_not.mpr hok)]
      exact .tracked i j b _ hh hc hok
        { gone := hred, rested := hrest, track := rfl, log := rfl, icebergs := rfl, hidden := rfl,
          env := ⟨rfl, rfl, rfl, rfl⟩ }
    · rw [hh.ref_eq] at hok hb
      rw [if_pos hok, hb]
      exact .refused i _ hh hc hok

/-- **A replaced order's old mates move up**, unless it stays at its own price. -/
theorem Replaced.spec {sim' : ExecutionSimulator k} {i j fresh : Nat} {qty price : Int}
    {b : OrderBook k} (hr : Replaced cfg sim sim' i j fresh qty price b) (h : SimInv cfg sim)
    (hown : cfg.externalRefLimit ≤ fresh) (hne : fresh ≠ 0) {off : Nat → Int}
    (hoff : Off sim.book sim.track off) :
    SimInv cfg sim' ∧ Off sim'.book sim'.track (fun x => if x = j then 0
      else if (sim.book.order i).priceTicks = price then
        off x + if i ∈ before x (sim.book.queueOf x) then sim.book.rem i else 0
      else if sim'.book.OnSide (sim.book.order i).side (sim.book.order i).priceTicks x then 0
      else off x) := by
  have hw := withdrawn_of_reduced h.mirror hr.gone
  have hmid := h.withdrawn hw
  have hoff1 := hw.off_eq h.book hoff
  obtain ⟨hinv, hoff2⟩ := hmid.rested hr.rested hown hne hoff1
  have htrack := hr.track
  have hsim : sim' = { sim with book := sim'.book, track := sim'.track } := by
    obtain ⟨h1, h2, h3, h4⟩ := hr.env
    have h5 := hr.log
    have h6 := hr.icebergs
    have h7 := hr.hidden
    cases sim'
    simp only at h1 h2 h3 h4 h5 h6 h7
    rw [h1, h2, h3, h4, h5, h6, h7]
  by_cases hpx : (sim.book.order i).priceTicks = price
  · rw [if_neg (not_not.mpr hpx)] at htrack
    rw [hsim, htrack]
    refine ⟨hinv, hoff2.congr (fun x hx => ?_)⟩
    by_cases hxj : x = j
    · rw [if_pos hxj, if_pos hxj]
    · rw [if_neg hxj, if_neg hxj, if_pos hpx]
  · rw [if_pos hpx] at htrack
    have hrep := recomputePositions_spec hinv.mirror hinv.book hoff2 (sim.book.order i).side
      (sim.book.order i).priceTicks
    rw [hsim, htrack]
    refine ⟨hinv.repositioned hrep, hrep.off.congr (fun x hx => ?_)⟩
    by_cases hxj : x = j
    · rw [if_pos hxj, if_pos hxj]
      split <;> rfl
    · rw [if_neg hxj, if_neg hxj, if_neg hpx]
      by_cases hon : sim'.book.OnSide (sim.book.order i).side (sim.book.order i).priceTicks x
      · rw [if_pos hon, if_pos hon]
      · rw [if_neg hon, if_neg hon, if_neg, Int.add_zero]
        -- only those on the order's own level stand behind it
        intro hm
        refine hon ?_
        have hlive := ((hrep.mirror.at?_iff x).mp hx).1
        have hliveb := ((hr.rested.live x).mp hlive).resolve_left hxj
        obtain ⟨_, _, hp1, hs1⟩ := Order.view_eq (hr.rested.frame x hxj)
        obtain ⟨_, hp2, hs2⟩ := hr.gone.kept hliveb
        obtain ⟨_, h1, h2⟩ := (h.book.mem _ _ i).mp (mem_of_mem_before hm)
        exact ⟨hs1.trans (hs2.trans h1.symm), hp1.trans (hp2.trans h2.symm)⟩

/-! ## Placing a remainder -/

/-- **What becomes of a remainder** once nothing more executes. -/
inductive FinishCase (sim : ExecutionSimulator k) (order : SimInbound) (remaining : Int)
    (out : SimDecision) (vis : Nat) : ExecutionSimulator k → Prop where
  | refused (hrests : restsAfter order.type ∧ 0 < remaining)
      (hshown : ¬ (order.nonDisplayed = true ∨ order.peg ≠ .none))
      (hno : ¬ sim.book.Addable order.ref order.side remaining order.price) :
      FinishCase sim order remaining out vis
        (sim.pushDecision { out with kind := .rejectedUnknown } vis order)
  | displayed (i : Nat) (b : OrderBook k) (hrests : restsAfter order.type ∧ 0 < remaining)
      (hshown : ¬ (order.nonDisplayed = true ∨ order.peg ≠ .none))
      (hadd : sim.book.Addable order.ref order.side remaining order.price)
      (hr : OrderBook.Rested sim.book sim.book.levelSlots b i
        ⟨order.ref, remaining, order.price, order.side⟩) :
      FinishCase sim order remaining out vis
        (({ sim with
            book := b
            track := sim.track.trackResting b order.ref order.side remaining order.price } :
          ExecutionSimulator k).pushDecision { out with kind := restKind out } vis order)
  | ledger (hrests : restsAfter order.type ∧ 0 < remaining)
      (hhid : order.nonDisplayed = true ∨ order.peg ≠ .none) :
      FinishCase sim order remaining out vis
        (({ sim with
            hidden := sim.hidden ++
              [{ ref := order.ref, side := order.side, priceTicks := order.price
                 qtyRemaining := remaining, peg := order.peg, pegOffset := order.pegOffsetTicks
                 pegged := order.peg ≠ .none }] } :
          ExecutionSimulator k).pushDecision { out with kind := restKind out } vis order)
  | cancelled (d : SimDecision) (hno : ¬ (restsAfter order.type ∧ 0 < remaining))
      (hd : d = { out with
        cancelledQty := if 0 < remaining then toU32 remaining else out.cancelledQty
        kind := if 0 < out.filledQty
            ∧ (if 0 < remaining then toU32 remaining else out.cancelledQty) = 0 ∧ remaining = 0
          then .filled else .partialThenCancelled }) :
      FinishCase sim order remaining out vis (sim.pushDecision d vis order)

theorem finish_cases (h : SimInv cfg sim) (order : SimInbound) (remaining : Int)
    (out : SimDecision) (vis : Nat) :
    FinishCase sim order remaining out vis (sim.finish order remaining out vis) := by
  unfold finish
  dsimp only
  by_cases hrests : restsAfter order.type ∧ 0 < remaining
  · by_cases hhid : order.nonDisplayed = true ∨ order.peg ≠ .none
    · rw [if_neg (fun hh => hh.2 hhid), if_pos hrests]
      exact .ledger hrests hhid
    · rw [if_pos ⟨hrests, hhid⟩]
      rcases OrderBook.add_cases h.book order.ref order.side remaining order.price with
        ⟨hadd, hok, i, hi⟩ | ⟨hadd, hok, hb⟩
      · rw [if_neg (not_not.mpr hok)]
        exact .displayed i _ hrests hhid hadd hi
      · rw [if_pos hok, hb]
        exact .refused hrests hhid hadd
  · rw [if_neg (fun hh => hrests hh.1), if_neg hrests]
    refine .cancelled _ hrests ?_
    by_cases hpos : 0 < remaining
    · rw [if_pos hpos, if_pos hpos]
    · rw [if_neg hpos, if_neg hpos]

theorem pushDecision_inv (h : SimInv cfg sim) (d : SimDecision) (vis : Nat) (order : SimInbound) :
    SimInv cfg (sim.pushDecision d vis order) := h.logged _

theorem finish_inv (h : SimInv cfg sim) {order : SimInbound}
    (hn : order.Named cfg.externalRefLimit) (remaining : Int) (out : SimDecision) (vis : Nat) :
    SimInv cfg (sim.finish order remaining out vis) := by
  have hc := finish_cases h order remaining out vis
  generalize sim.finish order remaining out vis = r at *
  cases hc with
  | refused => exact h.logged _
  | displayed i b hrests hshown hadd hr =>
      obtain ⟨off, hoff⟩ := exists_off sim.book sim.track
      exact (h.rested hr hn.1 hn.2 hoff).1.logged _
  | ledger hrests hhid =>
      refine (h.ledger (fun e he => ?_)).logged _
      rcases List.mem_append.mp he with he | he
      · exact h.hidden e he
      · rw [List.mem_singleton.mp he]
        exact hn
  | cancelled => exact h.logged _

end ExecutionSimulator

end Mog
