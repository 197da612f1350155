import Mog.Book.Replace
import Mog.Sim.Ledger

/-!
# Icebergs

An iceberg shows one slice at a time: what has been executed against it, the slice it
shows and its reserve add up to what it was registered with, and while there is a
reserve there is a slice. Both hold as long as the registry has one entry with a reserve
for a reference and no other: an entry registered without a reserve is never dropped,
and the search by reference stops at it.
-/

namespace Mog

open QueueSum TrackTable

/-- What has been executed against the orders named `ref`. -/
def executedOf (l : List Execution) (ref : Nat) : Int :=
  (l.map (fun e => if e.ref = ref then e.qty else 0)).sum

/-- The reserves registered under `ref`. -/
def reserveOf (l : List Iceberg) (ref : Nat) : Int :=
  (l.map (fun ib => if ib.ref = ref then ib.hidden else 0)).sum

theorem executedOf_snoc (l : List Execution) (e : Execution) (ref : Nat) :
    executedOf (l ++ [e]) ref = executedOf l ref + if e.ref = ref then e.qty else 0 := by
  simp [executedOf]

theorem reserveOf_perm {l l' : List Iceberg} (h : l.Perm l') (ref : Nat) :
    reserveOf l ref = reserveOf l' ref := (h.map _).sum_eq

theorem reserveOf_cons (ib : Iceberg) (l : List Iceberg) (ref : Nat) :
    reserveOf (ib :: l) ref = (if ib.ref = ref then ib.hidden else 0) + reserveOf l ref := by
  simp [reserveOf]

theorem reserveOf_append (l l' : List Iceberg) (ref : Nat) :
    reserveOf (l ++ l') ref = reserveOf l ref + reserveOf l' ref := by
  simp [reserveOf]

/-- Entries without a reserve reserve nothing. -/
theorem reserveOf_eq_zero {l : List Iceberg} {ref : Nat}
    (h : ∀ ib ∈ l, ib.ref = ref → ib.hidden = 0) : reserveOf l ref = 0 := by
  refine List.sum_eq_zero (fun x hx => ?_)
  obtain ⟨ib, hib, rfl⟩ := List.mem_map.mp hx
  split
  · rename_i href
    exact h ib hib href
  · rfl

namespace ExecutionSimulator

variable {k : Nat} {cfg : SimConfig} {sim sim' : ExecutionSimulator k} {order : SimInbound}
  {ref : Nat}

theorem reserveOf_afterSlice (ib : Iceberg) (ref : Nat) :
    reserveOf (afterSlice ib) ref = if ib.ref = ref then ib.hidden - nextSlice ib else 0 := by
  unfold afterSlice
  by_cases hz : ib.hidden - nextSlice ib = 0
  · rw [if_pos hz, hz]
    split <;> rfl
  · rw [if_neg hz, reserveOf_cons]
    exact Int.add_zero _

/-- An order the book does not find has nothing left. -/
theorem remainingOf_free {b : OrderBook k} (h : (b.findHandle ref).index = kNullIndex) :
    b.remainingOf ref = 0 := by
  unfold OrderBook.remainingOf
  exact if_pos (Or.inl h)

/-! ## What rests under a reference -/

/-- What an order loses leaves what is found under its reference. -/
theorem remainingOf_loses {b b' : OrderBook k} {i : Nat} {qty : Int} (hb : b.Valid) (hi : b.live i)
    (hr : OrderBook.Reduced b b.levelSlots b' i qty) (hne : ref ≠ 0) :
    b'.remainingOf ref + (if (b.order i).orderRef = ref then qty else 0) = b.remainingOf ref := by
  by_cases href : (b.order i).orderRef = ref
  · have hrem := remainingOf_reduced hb hi hr
    have hold := hb.remainingOf_live hi
    rw [href] at hrem hold
    rw [if_pos href, hrem, hold]
    omega
  · rw [if_neg href, (hr.lookup hb hne (fun he => href he.symm)).2]
    exact Int.add_zero _

/-- What is executed leaves the order. -/
theorem Filled.remaining {i : Nat} {take : Int} (hf : Filled cfg sim sim' i take)
    (hinv : SimInv cfg sim) (hne : ref ≠ 0) :
    sim'.book.remainingOf ref + (if (sim.book.order i).orderRef = ref then take else 0)
      = sim.book.remainingOf ref := remainingOf_loses hinv.book hf.live hf.book hne

/-- The next slice leaves the reserve. -/
theorem Replenished.remaining {ib : Iceberg} {rest : List Iceberg} {i : Nat}
    (hr : Replenished sim sim' ib rest i) (hinv : SimInv cfg sim) (hne : ref ≠ 0) :
    sim'.book.remainingOf ref + reserveOf sim'.icebergs ref
      = sim.book.remainingOf ref + reserveOf sim.icebergs ref := by
  have hentry := reserveOf_perm hr.entry ref
  have hleft := reserveOf_perm hr.left ref
  rw [reserveOf_cons] at hentry
  rw [reserveOf_append, reserveOf_afterSlice] at hleft
  by_cases href : ib.ref = ref
  · have hnone := remainingOf_free hr.free
    have hself : (sim'.book.order i).orderRef = ib.ref := congrArg OrderView.orderRef hr.book.self
    have hnew := hr.book.valid.remainingOf_live ((hr.book.live i).mpr (Or.inl rfl))
    rw [hself, hr.book.rem_self] at hnew
    dsimp only at hnew
    rw [href] at hnone hnew
    rw [if_pos href] at hentry hleft
    omega
  · rw [if_neg href] at hentry hleft
    rw [(hr.book.lookup hinv.book hne (fun he => href he.symm)).2]
    omega

/-! ## The quantity of an iceberg -/

/-- Under `ref`, executions since `base`, the slice shown and the reserve make up `total`, and
what has a reserve shows slices of `display`. -/
structure Balanced (sim : ExecutionSimulator k) (ref : Nat) (base total display : Int) : Prop where
  sum : executedOf sim.log.executions ref - base + sim.book.remainingOf ref
    + reserveOf sim.icebergs ref = total
  display : ∀ ib ∈ sim.icebergs, ib.ref = ref → 0 < ib.hidden → ib.display = display

section balanced

variable {base total display : Int}

theorem Balanced.congr (h : sim.Balanced ref base total display)
    (hx : executedOf sim'.log.executions ref = executedOf sim.log.executions ref)
    (hb : sim'.book.remainingOf ref = sim.book.remainingOf ref)
    (hi : sim'.icebergs = sim.icebergs) : sim'.Balanced ref base total display where
  sum := by rw [hx, hb, hi]; exact h.sum
  display := by rw [hi]; exact h.display

theorem trade_balanced (h : sim.Balanced ref base total display) (hinv : SimInv cfg sim)
    (hext : ref < cfg.externalRefLimit) (hne : ref ≠ 0) (ht : Trade cfg sim sim') :
    sim'.Balanced ref base total display := by
  cases ht with
  | idle hi => exact h.congr (by rw [hi.log.executions]) (by rw [hi.book]) hi.icebergs
  | repeg hr => exact h.congr (by rw [hr]; rfl) (by rw [hr]; rfl) (by rw [hr]; rfl)
  | fill i take hf =>
      have hlog : executedOf sim'.log.executions ref = executedOf sim.log.executions ref
          + if (sim.book.order i).orderRef = ref then take else 0 := by
        rw [hf.log, FillLog.displayedFill_executions, executedOf_snoc]
        rfl
      refine { sum := ?_, display := by rw [hf.icebergs]; exact h.display }
      have hsum := h.sum
      have hrem := hf.remaining hinv hne
      rw [hlog, hf.icebergs]
      omega
  | slice ib rest i hr =>
      refine { sum := ?_, display := fun x hx hxr hpos => ?_ }
      · have hsum := h.sum
        have hrem := hr.remaining hinv hne
        rw [hr.log]
        omega
      · rcases SimInv.mem_left hr hx with hx | rfl
        · exact h.display x hx hxr hpos
        · exact h.display ib (hr.entry.mem_iff.mpr (by simp)) hxr hr.reserve
  | withdraw i hown hw =>
      have hother : ref ≠ (sim.book.order i).orderRef := fun he => by
        have := hown.2
        omega
      exact h.congr (by rw [hw.log]) (hw.book.lookup hinv.book hne hother).2 hw.icebergs
  | tap t e kept l he =>
      have hmem : e ∈ sim.hidden := by rw [he.before]; simp
      have hother : e.ref ≠ ref := fun heq => by
        have := (hinv.hidden e hmem).1
        omega
      have hlog : executedOf sim'.log.executions ref = executedOf sim.log.executions ref := by
        rw [he.after, ← he.log]
        show executedOf (t.log.executions ++ [t.execution e]) ref = _
        rw [executedOf_snoc, if_neg (show (t.execution e).ref ≠ ref from hother), Int.add_zero]
      exact h.congr hlog (by rw [he.after]) (by rw [he.after])

theorem trades_balanced (h : sim.Balanced ref base total display) (hinv : SimInv cfg sim)
    (hext : ref < cfg.externalRefLimit) (hne : ref ≠ 0) (ht : Trades cfg sim sim') :
    sim'.Balanced ref base total display := by
  induction ht with
  | refl => exact h
  | tail hab hb ih => exact trade_balanced ih (Trades.inv hinv hab) hext hne hb.1

end balanced

/-! ## Reserves and slices -/

/-- Two entries of the registry share a reference only without a reserve. -/
def Apart (a b : Iceberg) : Prop := a.ref = b.ref → a.hidden = 0 ∧ b.hidden = 0

instance : Std.Symm Apart where
  symm _ _ h he := ⟨(h he.symm).2, (h he.symm).1⟩

/-- Every reserve has a slice before it, and no reference has two. -/
structure Registry (sim : ExecutionSimulator k) : Prop where
  shown : ∀ ib ∈ sim.icebergs, 0 < ib.hidden → ∃ i, sim.book.live i
    ∧ (sim.book.order i).orderRef = ib.ref ∧ sim.book.rem i ≤ ib.display
  apart : sim.icebergs.Pairwise Apart

theorem apart_perm {l l' : List Iceberg} (h : l.Perm l') :
    l.Pairwise Apart ↔ l'.Pairwise Apart := h.pairwise_iff (fun hab => Std.Symm.symm _ _ hab)

/-- The slices are still there. -/
theorem Registry.frame (h : sim.Registry) (hinv : SimInv cfg sim)
    (hk : KeepsExternal cfg.externalRefLimit sim sim') : sim'.Registry where
  shown ib hib hpos := by
    rw [hk.icebergs] at hib
    obtain ⟨i, hl, href, hle⟩ := h.shown ib hib hpos
    obtain ⟨hl', hv⟩ := hk.order i hl (href ▸ (hinv.icebergs ib hib).external)
    obtain ⟨hr, hq, _⟩ := Order.view_eq hv
    exact ⟨i, hl', hr.trans href, Int.le_trans (Int.le_of_eq hq) hle⟩
  apart := by rw [hk.icebergs]; exact h.apart

/-- A live order is where it was once another has come to rest. -/
theorem keep_rested {b b' : OrderBook k} {i : Nat} {v : OrderView}
    (hr : OrderBook.Rested b b.levelSlots b' i v) (j : Nat) (hj : b.live j) :
    b'.live j ∧ (b'.order j).orderRef = (b.order j).orderRef ∧ b'.rem j = b.rem j := by
  have hji : j ≠ i := fun he => hr.fresh (he ▸ hj)
  exact ⟨(hr.live j).mpr (Or.inr hj), (Order.view_eq (hr.frame j hji)).1, hr.rem_other hji⟩

/-- **An execution and the slice it brings** leave every reserve with a slice. -/
theorem filled_registry {mid : ExecutionSimulator k} {i : Nat} {take : Int} (h : sim.Registry)
    (hinv : SimInv cfg sim) (hf : Filled cfg sim mid i take)
    (hs : Shown mid sim' (sim.book.order i).orderRef) : sim'.Registry := by
  have hmid := hf.inv hinv
  -- slices of other orders do not move
  have hother : ∀ ib ∈ mid.icebergs, 0 < ib.hidden → ib.ref ≠ (sim.book.order i).orderRef →
      ∃ j, mid.book.live j ∧ (mid.book.order j).orderRef = ib.ref ∧ mid.book.rem j ≤ ib.display := by
    intro ib hib hpos hne
    rw [hf.icebergs] at hib
    obtain ⟨j, hl, href, hle⟩ := h.shown ib hib hpos
    have hji : j ≠ i := fun he => hne (by rw [← href, he])
    refine ⟨j, (hf.book.live j).mpr ⟨hl, fun hh => hji hh.1⟩, ?_, ?_⟩
    · rw [(Order.view_eq (hf.book.frame j hji)).1]
      exact href
    · rw [hf.book.rem_other hji]
      exact hle
  rcases hs with ⟨rfl, hno⟩ | ⟨ib, rest, j, href, hr⟩
  · refine { shown := fun x hx hpos => ?_, apart := by rw [hf.icebergs]; exact h.apart }
    by_cases hxr : x.ref = (sim.book.order i).orderRef
    · -- a reserve of the executed order: it has not been emptied
      rcases hno with hno | ⟨y, hy, hyr, hyz, _⟩ | hlive
      · exact absurd hxr (hno x hx)
      · have hxy : x ≠ y := fun he => by
          rw [he, hyz] at hpos
          exact absurd hpos (by decide)
        rw [hf.icebergs] at hx hy
        have hz := (h.apart.forall hx hy hxy (hxr.trans hyr.symm)).1
        exact absurd hz (Int.ne_of_gt hpos)
      · obtain ⟨hl, hlr, _⟩ := hmid.book.idFind_live (hinv.book.ref i hf.live) hlive
        refine ⟨_, hl, hlr.trans hxr.symm, ?_⟩
        rw [hf.icebergs] at hx
        obtain ⟨z, hz, hzr, hzle⟩ := h.shown x hx hpos
        have hback := hf.book.back (Int.le_of_lt hf.pos) hl
        have hzi := hinv.book.ref_inj hback.1 hz (by rw [← hback.2.1, hlr, ← hxr, hzr])
        rw [← hzi] at hzle
        exact Int.le_trans hback.2.2 hzle
    · exact hother x hx hpos hxr
  · have hpair := (apart_perm hr.entry).mp (by rw [hf.icebergs]; exact h.apart)
    obtain ⟨hib, hrest⟩ := List.pairwise_cons.mp hpair
    -- the entry that shows its slice is the only one of its reference
    have hne : ∀ x ∈ rest, x.ref ≠ ib.ref := fun x hx he =>
      absurd (hib x hx he.symm).1 (Int.ne_of_gt hr.reserve)
    refine { shown := fun x hx hpos => ?_, apart := (apart_perm hr.left).mpr ?_ }
    · rcases List.mem_append.mp (hr.left.mem_iff.mp hx) with hx | hx
      · rw [SimInv.mem_afterSlice hx]
        refine ⟨j, (hr.book.live j).mpr (Or.inl rfl), congrArg OrderView.orderRef hr.book.self, ?_⟩
        rw [hr.book.rem_self]
        exact Int.min_le_left _ _
      · have hxm := hr.entry.mem_iff.mpr (List.mem_cons_of_mem _ hx)
        obtain ⟨y, hy, hyr, hyle⟩ := hother x hxm hpos (href ▸ hne x hx)
        obtain ⟨h1, h2, h3⟩ := keep_rested hr.book y hy
        exact ⟨y, h1, h2.trans hyr, by rw [h3]; exact hyle⟩
    · refine List.pairwise_append.mpr ⟨?_, hrest, fun a ha b hb he => ?_⟩
      · unfold afterSlice
        split
        · exact List.Pairwise.nil
        · exact List.pairwise_singleton _ _
      · rw [SimInv.mem_afterSlice ha] at he
        exact absurd he.symm (hne b hb)

theorem exchange_registry (h : sim.Registry) (hinv : SimInv cfg sim)
    (he : Exchange cfg sim sim') : sim'.Registry := by
  cases he with
  | idle hi => exact h.frame hinv (.same hi.icebergs hi.book)
  | repeg hr => exact h.frame hinv (.same (by rw [hr]; rfl) (by rw [hr]; rfl))
  | fill i take mid hf hs => exact filled_registry h hinv hf hs
  | withdraw i hown hw => exact h.frame hinv (.reduced hw.icebergs hw.book hown.2)
  | tap t e kept l ht => exact h.frame hinv (.same (by rw [ht.after]) (by rw [ht.after]))

theorem exchanges_registry (h : sim.Registry) (hinv : SimInv cfg sim)
    (he : Exchanges cfg sim sim') : sim'.Registry := by
  induction he with
  | refl => exact h
  | tail hab hb ih => exact exchange_registry ih (Exchanges.inv hinv hab) hb.1

/-! ## Calls -/

/-- A seed with a reserve finds no entry of its reference. -/
def RegistrySafe (sim : ExecutionSimulator k) : SimCall → Prop
  | .seedIceberg spec =>
      sim.book.Addable spec.ref spec.side spec.display spec.price → spec.display < spec.total →
        ∀ ib ∈ sim.icebergs, ib.ref ≠ spec.ref
  | _ => True

/-- A call that brings `ref` into the book as external liquidity. -/
def SimCall.Seeds (sim : ExecutionSimulator k) (ref : Nat) : SimCall → Prop
  | .seedExternal r s qty price => r = ref ∧ (sim.seedExternal r s qty price).1.ok
  | .seedIceberg spec => spec.ref = ref ∧ (sim.seedIceberg spec).1.ok
  | _ => False

/-- Registering an iceberg that the book has taken. -/
theorem iceberg_registry {spec : IcebergSpec} {i : Nat} {b : OrderBook k} (h : sim.Registry)
    (hinv : SimInv cfg sim) (hl : (SimCall.seedIceberg spec).Legal cfg.externalRefLimit)
    (hsafe : spec.display < spec.total → ∀ ib ∈ sim.icebergs, ib.ref ≠ spec.ref)
    (hr : OrderBook.Rested sim.book sim.book.levelSlots b i
      ⟨spec.ref, spec.display, spec.price, spec.side⟩)
    (hb : sim'.book = b)
    (hi : sim'.icebergs = sim.icebergs ++
      [{ ref := spec.ref, side := spec.side, priceTicks := spec.price, display := spec.display
         hidden := spec.total - spec.display }]) :
    sim'.Registry ∧ ∀ ib ∈ sim.icebergs, ib.ref = spec.ref → ib.hidden = 0 := by
  subst hb
  have hself : (sim'.book.order i).orderRef = spec.ref := congrArg OrderView.orderRef hr.self
  -- a reserve of the reference would have a slice in the book
  have hold : ∀ ib ∈ sim.icebergs, ib.ref = spec.ref → ib.hidden = 0 := by
    intro ib hib href
    by_contra hne
    have hpos : 0 < ib.hidden := by
      have := (hinv.icebergs ib hib).hidden
      omega
    obtain ⟨j, hj, hjr, _⟩ := h.shown ib hib hpos
    obtain ⟨h1, h2, _⟩ := keep_rested hr j hj
    have hji := hr.valid.ref_inj h1 ((hr.live i).mpr (Or.inl rfl))
      (by rw [h2, hjr, href, hself])
    exact hr.fresh (hji ▸ hj)
  refine ⟨{ shown := fun x hx hpos => ?_, apart := ?_ }, hold⟩
  · rw [hi] at hx
    rcases List.mem_append.mp hx with hx | hx
    · obtain ⟨j, hj, hjr, hle⟩ := h.shown x hx hpos
      obtain ⟨h1, h2, h3⟩ := keep_rested hr j hj
      exact ⟨j, h1, h2.trans hjr, by rw [h3]; exact hle⟩
    · rw [List.mem_singleton.mp hx]
      exact ⟨i, (hr.live i).mpr (Or.inl rfl), hself, Int.le_of_eq hr.rem_self⟩
  · rw [hi]
    refine List.pairwise_append.mpr ⟨h.apart, List.pairwise_singleton _ _, fun a ha b hb he => ?_⟩
    rw [List.mem_singleton.mp hb] at he ⊢
    refine ⟨hold a ha he, ?_⟩
    dsimp only
    by_contra hne
    have := hl.2.2
    exact hsafe (by omega) a ha he

theorem call_registry {c : SimCall} (h : sim.Registry) (hinv : SimInv cfg sim)
    (hl : c.Legal cfg.externalRefLimit) (hsafe : RegistrySafe sim c) :
    (sim.call cfg c).Registry := by
  by_cases hseed : ∃ spec, c = .seedIceberg spec
  · obtain ⟨spec, rfl⟩ := hseed
    rw [call]
    rcases seedIceberg_cases hinv spec with ⟨_, hadd, i, b, hr, heq⟩ | ⟨_, heq⟩
    · rw [heq]
      exact (iceberg_registry h hinv hl (hsafe hadd) hr rfl rfl).1
    · rw [heq]
      exact h
  · obtain ⟨start, mid, hstart, hinv', ht, hend⟩ :=
      call_external hinv hl (fun spec he => hseed ⟨spec, he⟩)
    have hm := exchanges_registry (h.frame hinv hstart) hinv' ht
    exact hm.frame (Exchanges.inv hinv' ht) hend

/-- A call that does not seed `ref` keeps its balance. -/
theorem call_balanced {base total display : Int} {c : SimCall}
    (h : sim.Balanced ref base total display) (hinv : SimInv cfg sim)
    (hext : ref < cfg.externalRefLimit) (hne : ref ≠ 0) (hl : c.Legal cfg.externalRefLimit)
    (hno : ¬ c.Seeds sim ref) : (sim.call cfg c).Balanced ref base total display := by
  have hc := call_cases hinv hl
  generalize sim.call cfg c = r at hc
  cases hc with
  | still => exact h
  | flow _ _ _ ht => exact trades_balanced h hinv hext hne (Exchanges.trades ht hinv)
  | seed r s qty price i b hok hr =>
      have hother : ref ≠ r := fun he => hno ⟨he.symm, hok⟩
      exact h.congr rfl (hr.lookup hinv.book hne hother).2 rfl
  | iceberg spec i b hok hadd hr =>
      have hother : spec.ref ≠ ref := fun he => hno ⟨he, hok⟩
      refine { sum := ?_, display := fun x hx hxr hpos => ?_ }
      · rw [reserveOf_append, (hr.lookup hinv.book hne (fun he => hother he.symm)).2]
        have hz : reserveOf [({ ref := spec.ref, side := spec.side, priceTicks := spec.price
                                display := spec.display, hidden := spec.total - spec.display } :
            Iceberg)] ref = 0 :=
          reserveOf_eq_zero (fun x hx hxr => by
            rw [List.mem_singleton.mp hx] at hxr
            exact absurd hxr hother)
        rw [hz, Int.add_zero]
        exact h.sum
      · rcases List.mem_append.mp hx with hx | hx
        · exact h.display x hx hxr hpos
        · rw [List.mem_singleton.mp hx] at hxr
          exact absurd hxr hother
  | submit | cancelledHidden | replacedHidden | halt | stpMode => exact h.congr rfl rfl rfl
  | decide _ hne' hd =>
      have hpop := popped_inv hinv hne'
      obtain ⟨mid, ht, hmid, hcase⟩ := hd.market hpop
      have hstart : ({ sim with wheel := sim.wheel.popMin.2 } :
          ExecutionSimulator k).Balanced ref base total display := h.congr rfl rfl rfl
      have hm := trades_balanced hstart hpop hext hne (Exchanges.trades ht hpop)
      have hn := (Scheduler.popMin_holds hinv.wheel hne').1
      rcases hcase with hs | ⟨o, remaining, hr, _, _, _, hp⟩
      · exact hm.congr (by rw [hs.executions]) (by rw [hs.book]) hs.icebergs
      cases hp with
      | nowhere hs => exact hm.congr (by rw [hs.executions]) (by rw [hs.book]) hs.icebergs
      | displayed i hrests hadd hrest hs =>
          -- what comes to rest is the strategy's
          have hother : ref ≠ o.ref := fun he => by
            have := hn.1
            rw [(resolved_fields hr).1] at he
            omega
          exact hm.congr (by rw [hs.executions]) (hrest.lookup hmid.book hne hother).2 hs.icebergs
      | ledger hrests hs => exact hm.congr (by rw [hs.executions]) (by rw [hs.book]) hs.icebergs
  | cancelled _ i mid t hh hw =>
      have hother : ref ≠ (sim.book.order i).orderRef := fun he => by
        have := hh.own.2
        omega
      exact h.congr (by rw [hw.log]) (hw.book.lookup hinv.book hne hother).2 hw.icebergs
  | replaced orig fresh qty price i j b _ hh _ hd =>
      have hlimit : cfg.externalRefLimit ≤ fresh := hl.1
      have hother : ref ≠ (sim.book.order i).orderRef := fun he => by
        have := hh.own.2
        omega
      have hfresh : ref ≠ fresh := fun he => by omega
      refine h.congr (by rw [hd.log]) ?_ hd.icebergs
      exact ((hd.rested.lookup hd.gone.valid hne hfresh).2).trans
        (hd.gone.lookup hinv.book hne hother).2

/-! ## What the registry reports -/

theorem icebergHidden_cases (sim : ExecutionSimulator k) (ref : Nat) :
    ((∀ ib ∈ sim.icebergs, ib.ref ≠ ref) ∧ sim.icebergHidden ref = -1)
      ∨ ∃ ib rest, ib.ref = ref ∧ sim.icebergs.Perm (ib :: rest)
        ∧ sim.icebergHidden ref = ib.hidden := by
  unfold icebergHidden
  cases hidx : sim.icebergIndexOf ref with
  | none =>
      refine Or.inl ⟨fun ib hib href => ?_, rfl⟩
      have := List.findIdx?_eq_none_iff.mp hidx ib hib
      simp [href] at this
  | some i =>
      obtain ⟨hlt, href, _⟩ := List.findIdx?_eq_some_iff_getElem.mp hidx
      refine Or.inr ⟨sim.icebergs[i], sim.icebergs.eraseIdx i, of_decide_eq_true href,
        (List.getElem_cons_eraseIdx_perm hlt).symm, ?_⟩
      dsimp only
      rw [List.getElem?_eq_getElem hlt]
      rfl

/-- The reserve that `iceberg_hidden` reports is all there is under a reference. -/
theorem Registry.icebergHidden_eq (h : sim.Registry) (hinv : SimInv cfg sim) (ref : Nat) :
    max 0 (sim.icebergHidden ref) = reserveOf sim.icebergs ref := by
  rcases icebergHidden_cases sim ref with ⟨hno, heq⟩ | ⟨ib, rest, href, hperm, heq⟩
  · rw [heq, reserveOf_eq_zero (fun ib hib he => absurd he (hno ib hib))]
    rfl
  · have hpair := (List.pairwise_cons.mp ((apart_perm hperm).mp h.apart)).1
    have hnonneg := (hinv.icebergs ib (hperm.mem_iff.mpr (by simp))).hidden
    rw [heq, reserveOf_perm hperm, reserveOf_cons, if_pos href,
      reserveOf_eq_zero (fun x hx he => (hpair x hx (href.trans he.symm)).2), Int.add_zero]
    exact Int.max_eq_right hnonneg

/-! ## Whole runs -/

/-- The states that further legal calls lead to, each call meeting `ok` where it is made. -/
inductive Continues (cfg : SimConfig) (ok : ExecutionSimulator k → SimCall → Prop)
    (start : ExecutionSimulator k) : ExecutionSimulator k → Prop where
  | refl : Continues cfg ok start start
  | step {sim : ExecutionSimulator k} (h : Continues cfg ok start sim) (c : SimCall)
      (hl : c.Legal cfg.externalRefLimit) (hok : ok sim c) : Continues cfg ok start (sim.call cfg c)

/-- What is promised of an iceberg since it was registered in `start`. -/
structure IcebergKept (cfg : SimConfig) (spec : IcebergSpec) (start sim : ExecutionSimulator k) :
    Prop where
  total : executedOf sim.log.executions spec.ref - executedOf start.log.executions spec.ref
    + sim.book.remainingOf spec.ref + max 0 (sim.icebergHidden spec.ref) = spec.total
  shown : 0 < sim.icebergHidden spec.ref → ∃ i, sim.book.live i
    ∧ (sim.book.order i).orderRef = spec.ref ∧ 1 ≤ sim.book.rem i ∧ sim.book.rem i ≤ spec.display
  /-- A slice shown here, or at any moment of the next event, joins the tail of its level. -/
  tail : ∀ mid, Trades cfg sim mid → ∀ head i, (mid.replenishIfIceberg head).book.live i →
    ¬ mid.book.live i → (mid.replenishIfIceberg head).book.queueOf i
      = mid.book.levelSlots ((mid.replenishIfIceberg head).book.order i).side
          ((mid.replenishIfIceberg head).book.order i).priceTicks ++ [i]

/-- The next slice of an iceberg goes behind every order of its level. -/
theorem replenish_tail (h : SimInv cfg sim) {head i : Nat}
    (hnew : (sim.replenishIfIceberg head).book.live i) (hold : ¬ sim.book.live i) :
    (sim.replenishIfIceberg head).book.queueOf i
      = sim.book.levelSlots ((sim.replenishIfIceberg head).book.order i).side
          ((sim.replenishIfIceberg head).book.order i).priceTicks ++ [i] := by
  -- the book is as it was, or what `add` makes of it
  have hbook : (sim.replenishIfIceberg head).book = sim.book
      ∨ ∃ ref s qty price, (sim.replenishIfIceberg head).book = (sim.book.add ref s qty price).book := by
    unfold replenishIfIceberg
    split
    · exact Or.inl rfl
    · split
      · exact Or.inl rfl
      · split
        · exact Or.inl rfl
        · split
          · exact Or.inl rfl
          · exact Or.inr ⟨_, _, _, _, rfl⟩
  rcases hbook with hb | ⟨ref, s, qty, price, hb⟩
  · rw [hb] at hnew
    exact absurd hnew hold
  · rw [hb] at hnew ⊢
    rcases OrderBook.add_cases h.book ref s qty price with ⟨_, _, j, hr⟩ | ⟨_, _, hsame⟩
    · have hij : i = j := ((hr.live i).mp hnew).resolve_right hold
      rw [hij, OrderBook.queueOf, hr.levelSlots h.book, if_pos ⟨hr.side_self, hr.price_self⟩]
    · rw [hsame] at hnew
      exact absurd hnew hold

theorem reaches_registry (hc : OrderBook.ConfigOk k cfg.book)
    (h : Reaches cfg RegistrySafe sim) : sim.Registry := by
  induction h with
  | init =>
      exact { shown := fun ib hib => absurd hib List.not_mem_nil, apart := List.Pairwise.nil }
  | step hr c hl hok ih => exact call_registry ih (hr.simInv hc) hl hok

/-- Where an iceberg starts: its first slice is shown, the rest is in reserve. -/
theorem seeded_balanced {spec : IcebergSpec} (h : sim.Registry) (hinv : SimInv cfg sim)
    (hl : (SimCall.seedIceberg spec).Legal cfg.externalRefLimit)
    (hsafe : RegistrySafe sim (.seedIceberg spec)) (hok : (sim.seedIceberg spec).1.ok) :
    (sim.seedIceberg spec).2.Balanced spec.ref
      (executedOf (sim.seedIceberg spec).2.log.executions spec.ref) spec.total spec.display
      ∧ spec.ref ≠ 0 := by
  rcases seedIceberg_cases hinv spec with ⟨_, hadd, i, b, hr, heq⟩ | ⟨hno, _⟩
  · have hb : (sim.seedIceberg spec).2.book = b := by rw [heq]
    obtain ⟨_, hold⟩ := iceberg_registry h hinv hl (hsafe hadd) hr hb (by rw [heq])
    have hself : (b.order i).orderRef = spec.ref := congrArg OrderView.orderRef hr.self
    have hrem := hr.valid.remainingOf_live ((hr.live i).mpr (Or.inl rfl))
    rw [hself, hr.rem_self] at hrem
    dsimp only at hrem
    refine ⟨{ sum := ?_, display := fun x hx hxr hpos => ?_ }, hadd.named⟩
    · have hnil : reserveOf [] spec.ref = 0 := rfl
      rw [heq, reserveOf_append, reserveOf_eq_zero hold, reserveOf_cons, if_pos rfl, hnil]
      dsimp only
      rw [hrem]
      omega
    · rw [heq] at hx
      rcases List.mem_append.mp hx with hx | hx
      · rw [hold x hx hxr] at hpos
        exact absurd hpos (by decide)
      · rw [List.mem_singleton.mp hx]
  · exact absurd hok hno

/--
**An iceberg conserves its quantity and shows a slice while it has a reserve**, unless it
is registered over an entry that was never dropped.

In a run in which every iceberg with a reserve is registered under a reference that the
registry does not have, take any successful `seed_iceberg` and any later state before the
reference is seeded again: what has been executed, what is shown and what is in reserve
make up the total; a positive reserve has a slice of at most the display before it; and
every further slice joins the tail of its level.
-/
theorem iceberg_kept (hc : OrderBook.ConfigOk k cfg.book) {start : ExecutionSimulator k}
    (h : Reaches cfg RegistrySafe start) (spec : IcebergSpec)
    (hl : (SimCall.seedIceberg spec).Legal cfg.externalRefLimit)
    (hsafe : RegistrySafe start (.seedIceberg spec)) (hok : (start.seedIceberg spec).1.ok)
    (hrun : Continues cfg (fun s c => RegistrySafe s c ∧ ¬ c.Seeds s spec.ref)
      (start.seedIceberg spec).2 sim) : IcebergKept cfg spec (start.seedIceberg spec).2 sim := by
  have hseed : Reaches cfg RegistrySafe (start.seedIceberg spec).2 := h.step _ hl hsafe
  obtain ⟨hstart, hne⟩ :=
    seeded_balanced (reaches_registry hc h) (h.simInv hc) hl hsafe hok
  have hall : Reaches cfg RegistrySafe sim ∧ sim.Balanced spec.ref
      (executedOf (start.seedIceberg spec).2.log.executions spec.ref) spec.total spec.display := by
    induction hrun with
    | refl => exact ⟨hseed, hstart⟩
    | step _ c hlc hokc ih =>
        exact ⟨ih.1.step c hlc hokc.1,
          call_balanced ih.2 (ih.1.simInv hc) hl.1 hne hlc hokc.2⟩
  obtain ⟨hreach, hbal⟩ := hall
  have hinv := hreach.simInv hc
  have hreg := reaches_registry hc hreach
  refine { total := ?_, shown := fun hpos => ?_, tail := fun mid ht head i hnew hold =>
             replenish_tail (Trades.inv hinv ht) hnew hold }
  · rw [hreg.icebergHidden_eq hinv]
    exact hbal.sum
  · rcases icebergHidden_cases sim spec.ref with ⟨_, heq⟩ | ⟨ib, rest, href, hperm, heq⟩
    · rw [heq] at hpos
      exact absurd hpos (by decide)
    · rw [heq] at hpos
      have hmem := hperm.mem_iff.mpr ((List.mem_cons_self : ib ∈ ib :: rest))
      obtain ⟨i, hi, hir, hle⟩ := hreg.shown ib hmem hpos
      rw [hbal.display ib hmem href hpos] at hle
      exact ⟨i, hi, hir.trans href, hinv.book.pos i hi, hle⟩

/-- Two lots shown of five. -/
def fiveByTwo : IcebergSpec := { ref := 1, side := .sell, price := 5, display := 2, total := 5 }

/-- Two lots shown of two: registered without a reserve. -/
def twoByTwo : IcebergSpec := { ref := 1, side := .sell, price := 5, display := 2, total := 2 }

/-- An iceberg of five loses three units to external flow. -/
theorem iceberg_kept_consumed :
    IcebergKept deskConfig fiveByTwo
      ((init deskConfig : ExecutionSimulator 4).seedIceberg fiveByTwo).2
      (((init deskConfig : ExecutionSimulator 4).seedIceberg fiveByTwo).2.call deskConfig
        (.applyExternal .sell 5 3)) :=
  iceberg_kept deskConfig_ok .init fiveByTwo (by decide)
    (fun _ _ _ hib => absurd hib List.not_mem_nil) (by decide +kernel)
    (Continues.refl.step (.applyExternal .sell 5 3) (by decide) ⟨trivial, fun hs => hs⟩)

/-- An iceberg without a reserve is consumed, and its reference used again with one. -/
def reusedIceberg : List SimCall := [.seedIceberg twoByTwo, .applyExternal .sell 5 2]

/-- The new reserve of three is never found: two units are executed, and no slice follows. -/
theorem reused_iceberg_lost :
    Reachable deskConfig (run deskConfig reusedIceberg : ExecutionSimulator 4)
      ∧ ((run deskConfig reusedIceberg : ExecutionSimulator 4).seedIceberg fiveByTwo).1.ok
      ∧ ¬ IcebergKept deskConfig fiveByTwo
        ((run deskConfig reusedIceberg : ExecutionSimulator 4).seedIceberg fiveByTwo).2
        (((run deskConfig reusedIceberg : ExecutionSimulator 4).seedIceberg fiveByTwo).2.call
          deskConfig (.applyExternal .sell 5 2)) := by
  refine ⟨reachable_run (by decide), by decide +kernel, fun hk => ?_⟩
  have htotal := hk.total
  revert htotal
  decide +kernel

end ExecutionSimulator

end Mog
