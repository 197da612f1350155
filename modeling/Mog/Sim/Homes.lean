import Mog.Sim.Icebergs

/-!
# Where the slices of an iceberg stand

An iceberg's reserve belongs to one level of the book, and as long as its reference is
registered once, the order of that reference rests on that level. Unlike the balance of an
iceberg this holds in every run: a reference is only ever registered a second time behind
an entry that has no reserve, and such an entry is never dropped.

The proof follows a slot through its life: an iceberg is seeded with its slice at one level, an
execution takes the slice and the next one comes to rest at the same level, and a spent
reference may be named by anybody. What would break it, a second live entry for one reference,
is what the registry's search never meets.
-/

namespace Mog

open QueueSum TrackTable

theorem OrderBook.Rested.fields {k : Nat} {b b' : OrderBook k} {i : Nat} {v : OrderView}
    (h : OrderBook.Rested b b.levelSlots b' i v) : (b'.order i).orderRef = v.orderRef
      ∧ (b'.order i).side = v.side ∧ (b'.order i).priceTicks = v.priceTicks :=
  ⟨congrArg OrderView.orderRef h.self, congrArg OrderView.side h.self,
    congrArg OrderView.priceTicks h.self⟩

namespace ExecutionSimulator

variable {k : Nat} {cfg : SimConfig} {sim sim' : ExecutionSimulator k}

/-- The registry has an entry of `ref` without a reserve. -/
def Spent (sim : ExecutionSimulator k) (ref : Nat) : Prop :=
  ∃ ib ∈ sim.icebergs, ib.ref = ref ∧ ib.hidden = 0

/-- The order of an iceberg is live on the iceberg's own level. -/
def AtHome (sim : ExecutionSimulator k) (ib : Iceberg) : Prop :=
  ∃ i, sim.book.live i ∧ (sim.book.order i).orderRef = ib.ref
    ∧ (sim.book.order i).side = ib.side ∧ (sim.book.order i).priceTicks = ib.priceTicks

/-- Where reserves and repeated references stand, but for references that are spent. -/
structure Homed (sim : ExecutionSimulator k) : Prop where
  home : ∀ ib ∈ sim.icebergs, 0 < ib.hidden → sim.Spent ib.ref ∨ sim.AtHome ib
  twice : sim.icebergs.Pairwise (fun a b => a.ref = b.ref → sim.Spent a.ref)

theorem AtHome.frame {ib : Iceberg} (h : sim.AtHome ib) (hext : ib.ref < cfg.externalRefLimit)
    (hk : KeepsExternal cfg.externalRefLimit sim sim') : sim'.AtHome ib := by
  obtain ⟨i, hl, href, hside, hprice⟩ := h
  obtain ⟨hl', hv⟩ := hk.order i hl (href ▸ hext)
  obtain ⟨hr, _, hp, hs⟩ := Order.view_eq hv
  exact ⟨i, hl', hr.trans href, hs.trans hside, hp.trans hprice⟩

theorem Homed.frame (h : sim.Homed) (hinv : SimInv cfg sim)
    (hk : KeepsExternal cfg.externalRefLimit sim sim') : sim'.Homed := by
  have hspent : ∀ ref, sim.Spent ref → sim'.Spent ref := by
    rintro ref ⟨z, hz, hrest⟩
    exact ⟨z, by rw [hk.icebergs]; exact hz, hrest⟩
  refine { home := fun ib hib hpos => ?_, twice := ?_ }
  · rw [hk.icebergs] at hib
    rcases h.home ib hib hpos with hs | hh
    · exact Or.inl (hspent _ hs)
    · exact Or.inr (hh.frame (hinv.icebergs ib hib).external hk)
  · rw [hk.icebergs]
    exact h.twice.imp (fun hab he => hspent _ (hab he))

/-- The relation of `twice` does not care for the order of the registry. -/
theorem twice_perm {l l' : List Iceberg} {P : Nat → Prop} (h : l.Perm l') :
    l.Pairwise (fun a b => a.ref = b.ref → P a.ref)
      ↔ l'.Pairwise (fun a b => a.ref = b.ref → P a.ref) :=
  h.pairwise_iff (fun hab he => he ▸ hab he.symm)

/-- An iceberg stays at home while its order is live after an execution. -/
theorem AtHome.filled {mid : ExecutionSimulator k} {ib : Iceberg} {i : Nat} {take : Int}
    (h : sim.AtHome ib) (hf : Filled cfg sim mid i take)
    (hlive : ib.ref = (sim.book.order i).orderRef → mid.book.live i) : mid.AtHome ib := by
  obtain ⟨j, hl, href, hside, hprice⟩ := h
  have hl' : mid.book.live j := by
    by_cases hji : j = i
    · rw [hji] at href ⊢
      exact hlive href.symm
    · exact (hf.book.live j).mpr ⟨hl, fun hh => hji hh.1⟩
  obtain ⟨hr, hp, hs⟩ := hf.book.kept hl'
  exact ⟨j, hl', hr.trans href, hs.trans hside, hp.trans hprice⟩

theorem AtHome.rested {ib : Iceberg} {i : Nat} {v : OrderView} (h : sim.AtHome ib)
    (hr : OrderBook.Rested sim.book sim.book.levelSlots sim'.book i v) : sim'.AtHome ib := by
  obtain ⟨j, hl, href, hside, hprice⟩ := h
  have hji : j ≠ i := fun he => hr.fresh (he ▸ hl)
  obtain ⟨h1, _, h2, h3⟩ := Order.view_eq (hr.frame j hji)
  exact ⟨j, (hr.live j).mpr (Or.inr hl), h1.trans href, h3.trans hside, h2.trans hprice⟩

/-- **An execution and the slice it brings** leave the reserves at home. -/
theorem filled_homed {mid : ExecutionSimulator k} {i : Nat} {take : Int} (h : sim.Homed)
    (hinv : SimInv cfg sim) (hf : Filled cfg sim mid i take)
    (hs : Shown mid sim' (sim.book.order i).orderRef) : sim'.Homed := by
  have hmid := hf.inv hinv
  rcases hs with ⟨rfl, hno⟩ | ⟨ib, rest, j, href, hr⟩
  · have hspent : ∀ ref, sim.Spent ref → sim'.Spent ref := by
      rintro ref ⟨z, hz, hrest⟩
      exact ⟨z, by rw [hf.icebergs]; exact hz, hrest⟩
    refine { home := fun x hx hpos => ?_, twice := ?_ }
    · have hxs : x ∈ sim.icebergs := hf.icebergs ▸ hx
      rcases h.home x hxs hpos with hsp | hh
      · exact Or.inl (hspent _ hsp)
      by_cases hxr : x.ref = (sim.book.order i).orderRef
      · -- nothing was shown for the executed order: it has a spent entry, or is still there
        rcases hno with hno | ⟨z, hz, hzr, hzz, _⟩ | hlive
        · exact absurd hxr (hno x hx)
        · exact Or.inl ⟨z, hz, hzr.trans hxr.symm, hzz⟩
        · obtain ⟨hl, hlr, _⟩ := hmid.book.idFind_live (hinv.book.ref i hf.live) hlive
          have hback := hf.book.back (Int.le_of_lt hf.pos) hl
          have hji := hinv.book.ref_inj hback.1 hf.live (hback.2.1.symm.trans hlr)
          exact Or.inr (hh.filled hf (fun _ => hji ▸ hl))
      · exact Or.inr (hh.filled hf (fun he => absurd he hxr))
    · rw [hf.icebergs]
      exact h.twice.imp (fun hab he => hspent _ (hab he))
  · have hspent : ∀ ref, sim.Spent ref → sim'.Spent ref := by
      rintro ref ⟨z, hz, hzr, hzz⟩
      have hmem := hr.entry.mem_iff.mp (by rw [hf.icebergs]; exact hz)
      rcases List.mem_cons.mp hmem with he | hrest
      · have := hr.reserve
        rw [he] at hzz
        omega
      · exact ⟨z, hr.left.mem_iff.mpr (List.mem_append_right _ hrest), hzr, hzz⟩
    have hpair := (twice_perm hr.entry).mp (by rw [hf.icebergs]; exact h.twice)
    obtain ⟨hhead, htail⟩ := List.pairwise_cons.mp hpair
    refine { home := fun x hx hpos => ?_, twice := (twice_perm hr.left).mpr ?_ }
    · rcases List.mem_append.mp (hr.left.mem_iff.mp hx) with hx | hx
      · -- the entry that shows its slice
        rw [SimInv.mem_afterSlice hx]
        exact Or.inr ⟨j, (hr.book.live j).mpr (Or.inl rfl), hr.book.fields⟩
      · have hxs : x ∈ sim.icebergs := by
          rw [← hf.icebergs]
          exact hr.entry.mem_iff.mpr (List.mem_cons_of_mem _ hx)
        rcases h.home x hxs hpos with hsp | hh
        · exact Or.inl (hspent _ hsp)
        by_cases hxr : x.ref = (sim.book.order i).orderRef
        · -- another entry of the executed order
          exact Or.inl (hspent _ (hxr.trans href.symm ▸ hhead x hx (href.trans hxr.symm)))
        · exact Or.inr ((hh.filled hf (fun he => absurd he hxr)).rested hr.book)
    · refine List.pairwise_append.mpr ⟨?_, htail.imp (fun hab he => hspent _ (hab he)), ?_⟩
      · unfold afterSlice
        split
        · exact List.Pairwise.nil
        · exact List.pairwise_singleton _ _
      · intro a ha b hb he
        rw [SimInv.mem_afterSlice ha] at he ⊢
        exact hspent _ (hhead b hb he)

theorem exchange_homed (h : sim.Homed) (hinv : SimInv cfg sim) (he : Exchange cfg sim sim') :
    sim'.Homed := by
  cases he with
  | idle hi => exact h.frame hinv (.same hi.icebergs hi.book)
  | repeg hr => exact h.frame hinv (.same (by rw [hr]; rfl) (by rw [hr]; rfl))
  | fill i take mid hf hs => exact filled_homed h hinv hf hs
  | withdraw i hown hw => exact h.frame hinv (.reduced hw.icebergs hw.book hown.2)
  | tap t e kept l ht => exact h.frame hinv (.same (by rw [ht.after]) (by rw [ht.after]))

theorem exchanges_homed (h : sim.Homed) (hinv : SimInv cfg sim) (he : Exchanges cfg sim sim') :
    sim'.Homed := by
  induction he with
  | refl => exact h
  | tail hab hb ih => exact exchange_homed ih (Exchanges.inv hinv hab) hb.1

/-- A new iceberg is at home, and repeats a reference only behind a spent entry. -/
theorem iceberg_homed {spec : IcebergSpec} {i : Nat} {b : OrderBook k} (h : sim.Homed)
    (hinv : SimInv cfg sim)
    (hr : OrderBook.Rested sim.book sim.book.levelSlots b i
      ⟨spec.ref, spec.display, spec.price, spec.side⟩)
    (hb : sim'.book = b)
    (hi : sim'.icebergs = sim.icebergs ++
      [{ ref := spec.ref, side := spec.side, priceTicks := spec.price, display := spec.display
         hidden := spec.total - spec.display }]) : sim'.Homed := by
  subst hb
  have hself := hr.fields
  have hspent : ∀ ref, sim.Spent ref → sim'.Spent ref := by
    rintro ref ⟨z, hz, hrest⟩
    exact ⟨z, by rw [hi]; exact List.mem_append_left _ hz, hrest⟩
  -- the reference is free, so an older entry of it is spent
  have hold : ∀ x ∈ sim.icebergs, x.ref = spec.ref → sim.Spent x.ref := by
    intro x hx hxr
    by_cases hz : x.hidden = 0
    · exact ⟨x, hx, rfl, hz⟩
    have hpos : 0 < x.hidden := by
      have := (hinv.icebergs x hx).hidden
      omega
    rcases h.home x hx hpos with hsp | ⟨j, hl, href, _⟩
    · exact hsp
    · have hji : j ≠ i := fun he => hr.fresh (he ▸ hl)
      have hl' := (hr.live j).mpr (Or.inr hl)
      have hr' := (Order.view_eq (hr.frame j hji)).1
      exact absurd (hr.valid.ref_inj hl' ((hr.live i).mpr (Or.inl rfl))
        (by rw [hr', href, hxr, hself.1])) hji
  refine { home := fun x hx hpos => ?_, twice := ?_ }
  · rw [hi] at hx
    rcases List.mem_append.mp hx with hx | hx
    · rcases h.home x hx hpos with hsp | hh
      · exact Or.inl (hspent _ hsp)
      · exact Or.inr (hh.rested hr)
    · rw [List.mem_singleton.mp hx]
      exact Or.inr ⟨i, (hr.live i).mpr (Or.inl rfl), hself⟩
  · rw [hi]
    refine List.pairwise_append.mpr ⟨h.twice.imp (fun hab he => hspent _ (hab he)),
      List.pairwise_singleton _ _, fun a ha x hx he => ?_⟩
    rw [List.mem_singleton.mp hx] at he
    exact hspent _ (hold a ha he)

theorem call_homed {c : SimCall} (h : sim.Homed) (hinv : SimInv cfg sim)
    (hl : c.Legal cfg.externalRefLimit) : (sim.call cfg c).Homed := by
  by_cases hseed : ∃ spec, c = .seedIceberg spec
  · obtain ⟨spec, rfl⟩ := hseed
    rw [call]
    rcases seedIceberg_cases hinv spec with ⟨_, _, i, b, hr, heq⟩ | ⟨_, heq⟩
    · rw [heq]
      exact iceberg_homed h hinv hr rfl rfl
    · rw [heq]
      exact h
  · obtain ⟨start, mid, hstart, hinv', ht, hend⟩ :=
      call_external hinv hl (fun spec he => hseed ⟨spec, he⟩)
    have hm := exchanges_homed (h.frame hinv hstart) hinv' ht
    exact hm.frame (Exchanges.inv hinv' ht) hend

/-- **In every run the reserves are at home**, but for spent references. -/
theorem Reaches.homed {ok : ExecutionSimulator k → SimCall → Prop}
    (hc : OrderBook.ConfigOk k cfg.book) (h : Reaches cfg ok sim) : sim.Homed := by
  induction h with
  | init => exact { home := fun ib hib => absurd hib List.not_mem_nil, twice := List.Pairwise.nil }
  | step hr c hl _ ih => exact call_homed ih (hr.simInv hc) hl

/-- Where every reference is registered once, every reserve is at home. -/
theorem Homed.atHome (h : sim.Homed) (hone : (sim.icebergs.map Iceberg.ref).Nodup)
    {ib : Iceberg} (hib : ib ∈ sim.icebergs) (hpos : 0 < ib.hidden) : sim.AtHome ib := by
  rcases h.home ib hib hpos with ⟨z, hz, hzr, hzz⟩ | hh
  · have := List.inj_on_of_nodup_map hone hz hib hzr
    rw [this] at hzz
    omega
  · exact hh

end ExecutionSimulator

end Mog
