import Mog.Sim.Reach

/-!
# Queue positions

A state is position-exact when what `queue_ahead_of` reports of every tracked order is
the quantity that stands before it in the book. The mutations of the strategy side keep
that, except a replace that stays at its own price: those behind the order keep the
position they had while it stood before them.

Positions are recomputed by walking a level when an order leaves it or joins it. A replace that
keeps its price does both at one level, and the source walks a level only when the price has
changed. So those behind the order keep counting it as if it still stood before them, which is
visible whenever somebody stands behind.
-/

namespace Mog

open QueueSum TrackTable

namespace OrderBook

/-- The quantity that stands before order `ref` in its level's queue. -/
def aheadOf {k : Nat} (b : OrderBook k) (ref : Nat) : Int := b.ahead (b.findHandle ref).index

end OrderBook

namespace ExecutionSimulator

variable {k : Nat} {cfg : SimConfig} {sim sim' : ExecutionSimulator k} {off : Nat → Int}

/-- Every tracked order's reported position is the queue's. -/
def PositionExact (sim : ExecutionSimulator k) : Prop :=
  ∀ ref, sim.trackedIndexOf ref ≠ kNullIndex → sim.queueAheadOf ref = sim.book.aheadOf ref

/-- Nothing but a lookup stands between a tracked order and its slot. -/
theorem Holds.trackedIndexOf {ref i : Nat} (hh : Holds cfg sim ref i) (h : SimInv cfg sim) :
    sim.trackedIndexOf ref = i ∧ i ≠ kNullIndex := by
  rcases trackedIndexOf_cases h ref with ⟨_, hno⟩ | ⟨j, hj, hnn, hhj⟩
  · exact absurd hh.ref_eq (hno i hh.own)
  · rw [h.book.ref_inj hh.own.1 hhj.own.1 (hh.ref_eq.trans hhj.ref_eq.symm)]
    exact ⟨hj, hnn⟩

theorem holds_of_own (h : SimInv cfg sim) {i : Nat} (hi : sim.book.Own cfg.externalRefLimit i) :
    Holds cfg sim (sim.book.order i).orderRef i :=
  ⟨hi, rfl, (h.book.idFind_eq_iff (h.book.ref i hi.1) (h.book.ne_null hi.1)).mpr ⟨hi.1, rfl⟩⟩

/-- Positions can be checked slot by slot. -/
theorem exact_of_slots (h : SimInv cfg sim)
    (hslots : ∀ i, i < sim.book.arena.capacity → (sim.track.tracked i).live = true →
      (sim.track.tracked i).qtyAhead = sim.book.ahead i) : Exact sim.book sim.track := by
  intro i v hv
  have hi := (h.mirror.record_of_some hv).1.1
  obtain ⟨hlive, rfl⟩ := at?_eq_some.mp hv
  show (sim.track.tracked i).qtyAhead = sim.book.ahead i + 0
  rw [hslots i (h.book.lt_capacity hi) hlive, Int.add_zero]

/-- What `queue_ahead_of` reports, against the queue. -/
theorem Holds.queueAheadOf {ref i : Nat} (hh : Holds cfg sim ref i) (h : SimInv cfg sim)
    (hoff : Off sim.book sim.track off) : sim.queueAheadOf ref = sim.book.ahead i + off i := by
  obtain ⟨hidx, hnn⟩ := hh.trackedIndexOf h
  obtain ⟨a, ha⟩ := h.mirror.own i hh.own
  have hpos := hoff i _ ha
  have hview := (at?_eq_some.mp ha).2
  have hq : (sim.track.tracked i).qtyAhead = a := congrArg TrackView.qtyAhead hview
  rw [ExecutionSimulator.queueAheadOf, hidx, if_neg hnn, hq]
  exact hpos

theorem Holds.aheadOf {ref i : Nat} (hh : Holds cfg sim ref i) :
    sim.book.aheadOf ref = sim.book.ahead i := by
  rw [OrderBook.aheadOf, hh.handle]

theorem positionExact_iff (h : SimInv cfg sim) :
    sim.PositionExact ↔ Exact sim.book sim.track := by
  constructor
  · intro hex i v hv
    have hown := (h.mirror.record_of_some hv).1
    have hh := holds_of_own h hown
    obtain ⟨hidx, hnn⟩ := hh.trackedIndexOf h
    have hx := hex _ (by rw [hidx]; exact hnn)
    obtain ⟨off, hoff⟩ := exists_off sim.book sim.track
    rw [hh.queueAheadOf h hoff, hh.aheadOf] at hx
    have := hoff i v hv
    show v.qtyAhead = sim.book.ahead i + 0
    omega
  · intro hex ref hne
    rcases trackedIndexOf_cases h ref with ⟨hidx, _⟩ | ⟨i, _, _, hh⟩
    · exact absurd hidx hne
    · rw [hh.queueAheadOf h hex, hh.aheadOf, Int.add_zero]

/-! ## Mutations of the strategy side -/

/-- The calls that seed, cancel or replace. -/
def SimCall.Mutates : SimCall → Prop
  | .seedExternal .. => True
  | .seedIceberg .. => True
  | .cancelStrategy .. => True
  | .replaceStrategy .. => True
  | _ => False

/-- A call takes the strategy's order `gone` out of its queue: it cancels it, or replaces it
with nothing standing against that. -/
def SimCall.Removes (cfg : SimConfig) (sim : ExecutionSimulator k) (gone : Nat) : SimCall → Prop
  | .cancelStrategy ref => ref = gone
  | .replaceStrategy orig fresh qty price =>
      orig = gone ∧ ∃ i, Holds cfg sim orig i ∧ sim.book.Replaceable i fresh qty price
  | _ => False

/-- Order `gone` stands before order `ref` in one queue. -/
def Before (cfg : SimConfig) (sim : ExecutionSimulator k) (gone ref : Nat) : Prop :=
  ∃ i j, Holds cfg sim gone i ∧ Holds cfg sim ref j ∧ i ∈ before j (sim.book.queueOf j)

/-- Positions change as the queues do, and in no other way. -/
structure MovesExactly (cfg : SimConfig) (sim : ExecutionSimulator k) (c : SimCall) : Prop where
  exact : (sim.call cfg c).PositionExact
  /-- Those behind a removed order move up by what it had left. -/
  up : ∀ gone ref, c.Removes cfg sim gone → ref ≠ gone → Before cfg sim gone ref →
    (sim.call cfg c).queueAheadOf ref = sim.queueAheadOf ref - sim.book.remainingOf gone
  /-- A replaced order enters at the tail of its new level. -/
  tail : ∀ orig fresh qty price, c = .replaceStrategy orig fresh qty price →
    c.Removes cfg sim orig → ∃ s l, sim.book.sideOf orig = some s
      ∧ (sim.call cfg c).book.levelSlots s price
        = l ++ [((sim.call cfg c).book.findHandle fresh).index]
      ∧ (sim.call cfg c).book.remainingOf fresh = qty
  /-- No other position changes. -/
  still : ∀ ref, sim.trackedIndexOf ref ≠ kNullIndex →
    (∀ gone, c.Removes cfg sim gone → ref ≠ gone ∧ ¬ Before cfg sim gone ref) →
    (sim.call cfg c).queueAheadOf ref = sim.queueAheadOf ref

/-- A replace of an order at its own price, with another of the strategy's behind it. -/
def SimCall.StaleReplace (cfg : SimConfig) (sim : ExecutionSimulator k) : SimCall → Prop
  | .replaceStrategy orig fresh qty price => ∃ i, Holds cfg sim orig i
      ∧ sim.book.Replaceable i fresh qty price ∧ (sim.book.order i).priceTicks = price
      ∧ ∃ j, sim.book.Own cfg.externalRefLimit j ∧ i ∈ before j (sim.book.queueOf j)
  | _ => False

/-- An order that stays where it is when another comes to rest. -/
theorem own_rested {limit : Nat} {b b' : OrderBook k} {i : Nat} {v : OrderView} (hb : b.Valid)
    (hr : OrderBook.Rested b b.levelSlots b' i v) {j : Nat} (hj : b.Own limit j) :
    b'.Own limit j ∧ (b'.order j).orderRef = (b.order j).orderRef ∧ b'.ahead j = b.ahead j := by
  have hji : j ≠ i := fun he => hr.fresh (he ▸ hj.1)
  have href := (Order.view_eq (hr.frame j hji)).1
  refine ⟨⟨(hr.live j).mpr (Or.inr hj.1), ?_⟩, href, hr.ahead_other hb hj.1⟩
  rw [href]
  exact hj.2

/-- An order that stays when another leaves. -/
theorem own_reduced {limit : Nat} {b b' : OrderBook k} {i : Nat} {qty : Int} (hb : b.Valid)
    (hr : OrderBook.Reduced b b.levelSlots b' i qty) {j : Nat} (hj : b.Own limit j) (hji : j ≠ i) :
    b'.Own limit j ∧ (b'.order j).orderRef = (b.order j).orderRef
      ∧ b'.ahead j = b.ahead j - if i ∈ before j (b.queueOf j) then qty else 0 := by
  have href := (Order.view_eq (hr.frame j hji)).1
  have hlive : b'.live j := (hr.live j).mpr ⟨hj.1, fun hh => hji hh.1⟩
  refine ⟨⟨hlive, ?_⟩, href, hr.ahead_eq hb hlive⟩
  rw [href]
  exact hj.2

theorem Holds.of_kept {ref j : Nat} (hh : Holds cfg sim ref j) (h' : SimInv cfg sim')
    (hown : sim'.book.Own cfg.externalRefLimit j)
    (href : (sim'.book.order j).orderRef = (sim.book.order j).orderRef) : Holds cfg sim' ref j := by
  have := holds_of_own h' hown
  rw [href, hh.ref_eq] at this
  exact this

theorem holds_of_tracked (h : SimInv cfg sim) {ref : Nat}
    (hne : sim.trackedIndexOf ref ≠ kNullIndex) : ∃ j, Holds cfg sim ref j := by
  rcases trackedIndexOf_cases h ref with ⟨hidx, _⟩ | ⟨j, _, _, hh⟩
  · exact absurd hidx hne
  · exact ⟨j, hh⟩

/-- Calls that take nothing out of a queue. -/
theorem moves_of_still {c : SimCall} (h : SimInv cfg sim) (h' : SimInv cfg (sim.call cfg c))
    (hex : Exact sim.book sim.track)
    (hex' : Exact (sim.call cfg c).book (sim.call cfg c).track)
    (hkeep : ∀ j, sim.book.Own cfg.externalRefLimit j →
      (sim.call cfg c).book.Own cfg.externalRefLimit j
        ∧ ((sim.call cfg c).book.order j).orderRef = (sim.book.order j).orderRef
        ∧ (sim.call cfg c).book.ahead j = sim.book.ahead j)
    (hno : ∀ gone i, c.Removes cfg sim gone → ¬ Holds cfg sim gone i) :
    MovesExactly cfg sim c where
  exact := (positionExact_iff h').mpr hex'
  up gone ref hrem _ hbef := by
    obtain ⟨i, _, hi, _, _⟩ := hbef
    exact absurd hi (hno gone i hrem)
  tail orig fresh qty price hcall hrem := by
    subst hcall
    obtain ⟨_, i, hi, _⟩ := id hrem
    exact absurd hi (hno orig i hrem)
  still ref hne _ := by
    obtain ⟨j, hj⟩ := holds_of_tracked h hne
    obtain ⟨hown, href, hahead⟩ := hkeep j hj.own
    rw [(hj.of_kept h' hown href).queueAheadOf h' hex', hj.queueAheadOf h hex, hahead]

/-- Calls that take the order in slot `i` out of its queue. -/
theorem moves_of_gone {c : SimCall} {i gone : Nat} (h : SimInv cfg sim)
    (h' : SimInv cfg (sim.call cfg c)) (hi : Holds cfg sim gone i)
    (hrem : ∀ x, c.Removes cfg sim x ↔ x = gone)
    (hex : Exact sim.book sim.track)
    (hex' : Exact (sim.call cfg c).book (sim.call cfg c).track)
    (hkeep : ∀ j, sim.book.Own cfg.externalRefLimit j → j ≠ i →
      (sim.call cfg c).book.Own cfg.externalRefLimit j
        ∧ ((sim.call cfg c).book.order j).orderRef = (sim.book.order j).orderRef
        ∧ (sim.call cfg c).book.ahead j = sim.book.ahead j
          - if i ∈ before j (sim.book.queueOf j) then sim.book.rem i else 0)
    (htail : ∀ orig fresh qty price, c = .replaceStrategy orig fresh qty price →
      c.Removes cfg sim orig → ∃ s l, sim.book.sideOf orig = some s
        ∧ (sim.call cfg c).book.levelSlots s price
          = l ++ [((sim.call cfg c).book.findHandle fresh).index]
        ∧ (sim.call cfg c).book.remainingOf fresh = qty) :
    MovesExactly cfg sim c where
  exact := (positionExact_iff h').mpr hex'
  tail := htail
  up x ref hx hne hbef := by
    rw [(hrem x).mp hx] at hne hbef ⊢
    obtain ⟨i', j, hi', hj, hm⟩ := hbef
    have hii : i' = i := h.book.ref_inj hi'.own.1 hi.own.1 (hi'.ref_eq.trans hi.ref_eq.symm)
    rw [hii] at hm
    have hji : j ≠ i := fun he => hne (by rw [← hj.ref_eq, ← hi.ref_eq, he])
    obtain ⟨hown, href, hahead⟩ := hkeep j hj.own hji
    have hremain : sim.book.remainingOf gone = sim.book.rem i := by
      rw [← hi.ref_eq]
      exact h.book.remainingOf_live hi.own.1
    rw [(hj.of_kept h' hown href).queueAheadOf h' hex', hj.queueAheadOf h hex, hahead, if_pos hm,
      hremain]
    omega
  still ref hne hall := by
    obtain ⟨j, hj⟩ := holds_of_tracked h hne
    obtain ⟨hne', hnb⟩ := hall gone ((hrem gone).mpr rfl)
    have hji : j ≠ i := fun he => hne' (by rw [← hj.ref_eq, ← hi.ref_eq, he])
    obtain ⟨hown, href, hahead⟩ := hkeep j hj.own hji
    rw [(hj.of_kept h' hown href).queueAheadOf h' hex', hj.queueAheadOf h hex, hahead,
      if_neg (fun hm => hnb ⟨i, j, hi, hj, hm⟩), Int.sub_zero]

/-- Calls whose one effect on the queues is that of `add`. -/
theorem moves_of_add {c : SimCall} (h : SimInv cfg sim) (h' : SimInv cfg (sim.call cfg c))
    (hex : Exact sim.book sim.track) (ref : Nat) (s : Side) (qty price : Int)
    (hbook : (sim.call cfg c).book = (sim.book.add ref s qty price).book)
    (htrack : (sim.call cfg c).track = sim.track) (hno : ∀ gone, ¬ c.Removes cfg sim gone) :
    MovesExactly cfg sim c := by
  rcases OrderBook.add_cases h.book ref s qty price with ⟨_, _, i, hi⟩ | ⟨_, _, hb⟩
  · refine moves_of_still h h' hex ?_ (fun j hj => ?_) (fun gone _ hh => absurd hh (hno gone))
    · rw [hbook, htrack]
      exact hex.rested_external h.mirror h.book hi
    · rw [hbook]
      exact own_rested h.book hi hj
  · rw [hb] at hbook
    refine moves_of_still h h' hex ?_ (fun j hj => ?_) (fun gone _ hh => absurd hh (hno gone))
    · rw [hbook, htrack]
      exact hex
    · rw [hbook]
      exact ⟨hj, rfl, rfl⟩

theorem seedIceberg_frame (sim : ExecutionSimulator k) (spec : IcebergSpec) :
    (sim.seedIceberg spec).2.book = (sim.book.add spec.ref spec.side spec.display spec.price).book
      ∧ (sim.seedIceberg spec).2.track = sim.track := by
  unfold seedIceberg
  dsimp only
  split <;> exact ⟨rfl, rfl⟩

theorem cancelStrategy_moves (h : SimInv cfg sim) (hex : Exact sim.book sim.track) (ref : Nat) :
    MovesExactly cfg sim (.cancelStrategy ref) := by
  have h' := call_inv h (c := .cancelStrategy ref) trivial
  have hcall : sim.call cfg (.cancelStrategy ref) = (sim.cancelStrategy ref).2 := rfl
  have hc := cancelStrategy_cases h ref
  generalize sim.cancelStrategy ref = r at *
  cases hc with
  | tracked i mid hh hw =>
      obtain ⟨_, hoff⟩ := hw.recomputed h hex
      refine moves_of_gone h h' hh (fun x => eq_comm) hex ?_ (fun j hj hji => ?_)
        (fun _ _ _ _ he => SimCall.noConfusion he)
      · rw [hcall]
        exact hoff.congr (fun j _ => by split <;> rfl)
      · rw [hcall]
        exact own_reduced h.book hw.book hj hji
  | hidden hno hmem =>
      refine moves_of_still h h' hex ?_ (fun j hj => ?_)
        (fun gone i hrem hi => hno i hi.own (hi.ref_eq.trans hrem.symm))
      · rw [hcall]
        exact hex
      · rw [hcall]
        exact ⟨hj, rfl, rfl⟩
  | unknown hno hnot =>
      refine moves_of_still h h' hex ?_ (fun j hj => ?_)
        (fun gone i hrem hi => hno i hi.own (hi.ref_eq.trans hrem.symm))
      · rw [hcall]
        exact hex
      · rw [hcall]
        exact ⟨hj, rfl, rfl⟩

theorem replaceStrategy_moves (h : SimInv cfg sim) (hex : Exact sim.book sim.track)
    {orig fresh : Nat} {qty price : Int} (hl : cfg.externalRefLimit ≤ fresh ∧ fresh ≠ 0) :
    MovesExactly cfg sim (.replaceStrategy orig fresh qty price)
      ↔ ¬ (SimCall.replaceStrategy orig fresh qty price).StaleReplace cfg sim := by
  have h' := call_inv h (c := .replaceStrategy orig fresh qty price) hl
  have hcall : sim.call cfg (.replaceStrategy orig fresh qty price)
      = (sim.replaceStrategy orig fresh qty price).2 := rfl
  have hc := replaceStrategy_cases h orig hl.2 qty price
  -- a call that finds no order of the strategy's to replace changes no queue
  have hidle : (∀ i, Holds cfg sim orig i → ¬ sim.book.Replaceable i fresh qty price) →
      (sim.call cfg (.replaceStrategy orig fresh qty price)).book = sim.book →
      (sim.call cfg (.replaceStrategy orig fresh qty price)).track = sim.track →
      (MovesExactly cfg sim (.replaceStrategy orig fresh qty price)
        ↔ ¬ (SimCall.replaceStrategy orig fresh qty price).StaleReplace cfg sim) := by
    intro hno hbook htrack
    refine ⟨fun _ hst => ?_, fun _ => moves_of_still h h' hex ?_ (fun j hj => ?_) ?_⟩
    · obtain ⟨i, hi, hrep, _⟩ := hst
      exact hno i hi hrep
    · rw [hbook, htrack]
      exact hex
    · rw [hbook]
      exact ⟨hj, rfl, rfl⟩
    · rintro gone i ⟨rfl, j, hj, hrep⟩ _
      exact hno j hj hrep
  generalize sim.replaceStrategy orig fresh qty price = r at *
  cases hc with
  | refused i tick hh hno hok =>
      refine hidle (fun j hj hrep => ?_) (by rw [hcall]) (by rw [hcall])
      rw [h.book.ref_inj hj.own.1 hh.own.1 (hj.ref_eq.trans hh.ref_eq.symm)] at hrep
      exact hno hrep
  | hidden e hno hfind =>
      exact hidle (fun i hi => absurd hi.ref_eq (hno i hi.own)) (by rw [hcall]) (by rw [hcall])
  | unknown hno hnot =>
      exact hidle (fun i hi => absurd hi.ref_eq (hno i hi.own)) (by rw [hcall]) (by rw [hcall])
  | tracked i j b _ hh hrep hok hr =>
      obtain ⟨_, hoff⟩ := hr.spec h hl.1 hl.2 hex
      rw [← hcall] at hr hoff
      generalize hsim' : sim.call cfg (.replaceStrategy orig fresh qty price) = sim' at *
      -- The strategy's other orders keep their places, and lose the replaced order from what is
      -- ahead.
      have hkeep : ∀ x, sim.book.Own cfg.externalRefLimit x → x ≠ i →
          sim'.book.Own cfg.externalRefLimit x
            ∧ (sim'.book.order x).orderRef = (sim.book.order x).orderRef
            ∧ sim'.book.ahead x = sim.book.ahead x
              - if i ∈ before x (sim.book.queueOf x) then sim.book.rem i else 0 := by
        intro x hx hxi
        obtain ⟨h1, h2, h3⟩ := own_reduced h.book hr.gone hx hxi
        obtain ⟨h4, h5, h6⟩ := own_rested hr.gone.valid hr.rested h1
        exact ⟨h4, h5.trans h2, h6.trans h3⟩
      constructor
      -- At the same price the table still counts the replaced order ahead of the one behind it.
      · rintro hmoves ⟨i', hi', _, hpx, x, hx, hm⟩
        have hii : i' = i := h.book.ref_inj hi'.own.1 hh.own.1 (hi'.ref_eq.trans hh.ref_eq.symm)
        rw [hii] at hpx hm
        have hxi : x ≠ i := fun he => ne_of_mem_before hm he.symm
        obtain ⟨hown, _, _⟩ := hkeep x hx hxi
        have hxj : x ≠ j := fun he =>
          hr.rested.fresh (he ▸ (hr.gone.live x).mpr ⟨hx.1, fun hc => hxi hc.1⟩)
        obtain ⟨a, ha⟩ := h'.mirror.own x hown
        have hstale := hoff x _ ha
        have hexact := (positionExact_iff h').mp (hsim' ▸ hmoves.exact) x _ ha
        dsimp only at hexact hstale
        rw [if_neg hxj, if_pos hpx, if_pos hm] at hstale
        have := h.book.pos i hh.own.1
        omega
      -- At another price, or with nobody behind, no tracked order stood behind the replaced one.
      · intro hno
        refine moves_of_gone h (hsim' ▸ h') hh (fun x => ?_) hex ?_ ?_ ?_
        · refine ⟨fun hx => hx.1.symm, fun hx => ⟨hx.symm, i, hh, hrep⟩⟩
        · rw [hsim']
          refine hoff.congr (fun x hx => ?_)
          have hown := (h'.mirror.at?_iff x).mp hx
          by_cases hxj : x = j
          · rw [if_pos hxj]
          · rw [if_neg hxj]
            by_cases hpx : (sim.book.order i).priceTicks = price
            · rw [if_pos hpx, if_neg]
              · rfl
              · intro hm
                have hb := (hr.rested.live x).mp hown.1
                have hlive := ((hr.gone.live x).mp (hb.resolve_left hxj)).1
                have href1 := (Order.view_eq (hr.rested.frame x hxj)).1
                have href2 := (hr.gone.kept (hb.resolve_left hxj)).1
                refine hno ⟨i, hh, hrep, hpx, x, ⟨hlive, ?_⟩, hm⟩
                rw [← href2, ← href1]
                exact hown.2
            · rw [if_neg hpx]
              split <;> rfl
        · rw [hsim']
          exact hkeep
        · intro o f q p he _
          obtain ⟨rfl, rfl, rfl, rfl⟩ := SimCall.replaceStrategy.inj he
          rw [hsim']
          have hlive := (hr.rested.live j).mpr (Or.inl rfl)
          have href : (sim'.book.order j).orderRef = fresh :=
            congrArg OrderView.orderRef hr.rested.self
          have hhandle : (sim'.book.findHandle fresh).index = j :=
            (h'.book.idFind_eq_iff hl.2 (h'.book.ne_null hlive)).mpr ⟨hlive, href⟩
          refine ⟨(sim.book.order i).side, b.levelSlots (sim.book.order i).side price, ?_, ?_, ?_⟩
          · rw [← hh.ref_eq]
            exact h.book.sideOf_live hh.own.1
          · rw [hr.rested.levelSlots hr.gone.valid, if_pos ⟨rfl, rfl⟩, hhandle]
          · have := h'.book.remainingOf_live hlive
            rw [href, hr.rested.rem_self] at this
            exact this

/-- Two bids of the strategy in one queue. -/
def twoBids : List SimCall :=
  [.submit { ref := 100, qty := 5, price := 3 } 0, .submit { ref := 101, qty := 4, price := 3 } 0,
    .decideNext, .decideNext]

theorem twoBids_exact : (run deskConfig twoBids : ExecutionSimulator 4).PositionExact := by
  have h : SimInv deskConfig (run deskConfig twoBids : ExecutionSimulator 4) :=
    (reachable_run (by decide)).simInv deskConfig_ok
  exact (positionExact_iff h).mpr (exact_of_slots h (by decide +kernel))

end ExecutionSimulator

end Mog
