import Mog.Sim.Exact
import Mog.Sim.Ledger

/-!
# Whether a reference names one order

The book keeps its own references apart, and so does every elementary change. What
creates an order looks for its reference in the book alone, or nowhere: a decision and a
replace in the book overlook the ledger, and a replace in the ledger overlooks both.
References stay unique along every run that never uses one which they overlook.
-/

namespace Mog

open QueueSum TrackTable

namespace ExecutionSimulator

variable {k : Nat} {cfg : SimConfig} {sim sim' : ExecutionSimulator k} {order : SimInbound}

/-- An order named `ref` rests in the book. -/
def InBook (sim : ExecutionSimulator k) (ref : Nat) : Prop :=
  ∃ i, sim.book.live i ∧ (sim.book.order i).orderRef = ref

/-- An entry of the ledger is named `ref`. -/
def InLedger (sim : ExecutionSimulator k) (ref : Nat) : Prop := ∃ h ∈ sim.hidden, h.ref = ref

/-- No reference names two of the orders that rest. -/
structure RefUnique (sim : ExecutionSimulator k) : Prop where
  book : ∀ i j, sim.book.live i → sim.book.live j →
    (sim.book.order i).orderRef = (sim.book.order j).orderRef → i = j
  across : ∀ ref, sim.InBook ref → ¬ sim.InLedger ref
  ledger : (sim.hidden.map Hidden.ref).Nodup

/-- References are unique, and calls that use one act on its order or not at all. -/
structure RefsSound (cfg : SimConfig) (sim : ExecutionSimulator k) : Prop where
  unique : sim.RefUnique
  /-- A decision under a name that rests in the book changes nothing in the market. -/
  decision : ∀ order ts, sim.InBook order.ref →
    MarketSame (sim.opened cfg ts) (sim.decide cfg order ts)
  /-- Nor does a replace by one. -/
  replacement : ∀ orig fresh qty price i, Holds cfg sim orig i → cfg.externalRefLimit ≤ fresh →
    fresh ≠ 0 → fresh ≠ orig → sim.InBook fresh →
    ¬ (sim.replaceStrategy orig fresh qty price).1.ok
      ∧ (sim.replaceStrategy orig fresh qty price).2 = sim
  cancelled : ∀ ref, (sim.cancelStrategy ref).1 = true →
    ¬ (sim.cancelStrategy ref).2.InBook ref ∧ ¬ (sim.cancelStrategy ref).2.InLedger ref
  replaced : ∀ orig fresh qty price, cfg.externalRefLimit ≤ fresh → fresh ≠ 0 → fresh ≠ orig →
    (∃ i, Holds cfg sim orig i) ∨ sim.InLedger orig →
    (sim.replaceStrategy orig fresh qty price).1.ok →
    ¬ (sim.replaceStrategy orig fresh qty price).2.InBook orig
      ∧ ¬ (sim.replaceStrategy orig fresh qty price).2.InLedger orig

/-- A decision that is not turned down before it looks at the market. -/
def Proceeds (cfg : SimConfig) (sim : ExecutionSimulator k) (order : SimInbound) (ts : Nat) :
    Prop :=
  ∃ o, sim.resolved order = some o ∧ ¬ (order.type = .postOnly ∧ (sim.opened cfg ts).crosses o)

/-- No call uses a name that rests where the call does not look. -/
def RefSafe (cfg : SimConfig) (sim : ExecutionSimulator k) : SimCall → Prop
  | .decideNext =>
      ¬ sim.wheel.empty →
        Proceeds cfg { sim with wheel := sim.wheel.popMin.2 } sim.wheel.popMin.1.order
          sim.wheel.popMin.1.visibleTs →
        ¬ sim.InLedger sim.wheel.popMin.1.order.ref
  | .replaceStrategy orig fresh qty price =>
      (∀ i, Holds cfg sim orig i → sim.book.Replaceable i fresh qty price → ¬ sim.InLedger fresh)
        ∧ ((∀ i, ¬ Holds cfg sim orig i) → sim.InLedger orig → fresh ≠ orig →
          ¬ sim.InBook fresh ∧ ¬ sim.InLedger fresh)
  | _ => True

/-! ## Elementary changes -/

theorem inBook_congr (h : sim'.book = sim.book) (ref : Nat) : sim'.InBook ref ↔ sim.InBook ref := by
  rw [InBook, InBook, h]

theorem inLedger_iff (sim : ExecutionSimulator k) (ref : Nat) :
    sim.InLedger ref ↔ ref ∈ sim.hidden.map Hidden.ref := by
  rw [List.mem_map]
  exact Iff.rfl

theorem RefUnique.congr (h : sim.RefUnique) (hb : sim'.book = sim.book)
    (hl : sim'.hidden = sim.hidden) : sim'.RefUnique where
  book := by rw [hb]; exact h.book
  across ref := by rw [inBook_congr hb, InLedger, hl]; exact h.across ref
  ledger := by rw [hl]; exact h.ledger

theorem simInv_refs (h : SimInv cfg sim) {i j : Nat} (hi : sim.book.live i) (hj : sim.book.live j)
    (href : (sim.book.order i).orderRef = (sim.book.order j).orderRef) : i = j :=
  h.book.ref_inj hi hj href

/-- Names in the ledger are those of the strategy. -/
theorem InLedger.own (h : SimInv cfg sim) {ref : Nat} (hr : sim.InLedger ref) :
    cfg.externalRefLimit ≤ ref := by
  obtain ⟨e, he, rfl⟩ := hr
  exact (h.hidden e he).1

/-- **An elementary change brings no name of the strategy's**, and the ledger only loses some. -/
theorem Trade.refs (h : SimInv cfg sim) (ht : Trade cfg sim sim') :
    (∀ ref, cfg.externalRefLimit ≤ ref → sim'.InBook ref → sim.InBook ref)
      ∧ (sim'.hidden.map Hidden.ref).Sublist (sim.hidden.map Hidden.ref) := by
  cases ht with
  | idle hi =>
      rw [hi.hidden]
      exact ⟨fun ref _ hr => (inBook_congr hi.book ref).mp hr, List.Sublist.refl _⟩
  | repeg hr =>
      subst hr
      refine ⟨fun ref _ hr => hr, ?_⟩
      -- a repeg rewrites prices only
      have hmap : sim.repegHidden.hidden.map Hidden.ref = sim.hidden.map Hidden.ref := by
        unfold repegHidden
        dsimp only
        rw [List.map_map]
        refine List.map_congr_left (fun e _ => ?_)
        dsimp only [Function.comp]
        split
        · split <;> rfl
        · rfl
      rw [hmap]
  | fill i take hf =>
      rw [hf.hidden]
      refine ⟨fun ref _ hr => ?_, List.Sublist.refl _⟩
      obtain ⟨j, hj, href⟩ := hr
      obtain ⟨hl, he, _⟩ := hf.book.back (Int.le_of_lt hf.pos) hj
      exact ⟨j, hl, he ▸ href⟩
  | slice ib rest i hr =>
      have hext := (h.icebergs ib (hr.entry.mem_iff.mpr (by simp))).external
      rw [hr.hidden]
      refine ⟨fun ref hown hin => ?_, List.Sublist.refl _⟩
      obtain ⟨j, hj, href⟩ := hin
      rcases hr.book.back hj with ⟨_, he, _⟩ | ⟨hl, he, _⟩
      · dsimp only at he
        omega
      · exact ⟨j, hl, he ▸ href⟩
  | withdraw i hown hw =>
      rw [hw.hidden]
      refine ⟨fun ref _ hr => ?_, List.Sublist.refl _⟩
      obtain ⟨j, hj, href⟩ := hr
      obtain ⟨hl, he, _⟩ := hw.book.back (Int.le_of_lt (h.book.pos i hown.1)) hj
      exact ⟨j, hl, he ▸ href⟩
  | tap t e kept l he =>
      rw [he.after, he.before]
      refine ⟨fun ref _ hr => hr, ?_⟩
      dsimp only
      rw [List.map_append, List.map_append, List.map_append, List.map_cons]
      refine List.Sublist.append (List.Sublist.refl _) ?_
      -- what stays of the entry keeps its name
      unfold Tap.stays
      split
      · exact List.sublist_cons_self _ _
      · exact List.Sublist.refl _

theorem Trades.refs (h : SimInv cfg sim) (ht : Trades cfg sim sim') :
    (∀ ref, cfg.externalRefLimit ≤ ref → sim'.InBook ref → sim.InBook ref)
      ∧ (sim'.hidden.map Hidden.ref).Sublist (sim.hidden.map Hidden.ref) := by
  induction ht with
  | refl => exact ⟨fun _ _ hr => hr, List.Sublist.refl _⟩
  | tail hab hb ih =>
      obtain ⟨h1, h2⟩ := hb.1.refs (Trades.inv h hab)
      exact ⟨fun ref ho hr => ih.1 ref ho (h1 ref ho hr), h2.trans ih.2⟩

theorem trades_unique (hu : sim.RefUnique) (h : SimInv cfg sim) (ht : Trades cfg sim sim') :
    sim'.RefUnique := by
  obtain ⟨hbook, hledger⟩ := Trades.refs h ht
  have h' := Trades.inv h ht
  refine { book := fun i j hi hj => simInv_refs h' hi hj, across := fun ref hb hl => ?_,
           ledger := hu.ledger.sublist hledger }
  have hl0 : sim.InLedger ref :=
    (inLedger_iff sim ref).mpr (hledger.subset ((inLedger_iff sim' ref).mp hl))
  exact hu.across ref (hbook ref (hl0.own h) hb) hl0

/-! ## Calls -/

/-- A new order in the book, under a name the ledger does not hold. -/
theorem RefUnique.rested (hu : sim.RefUnique) (h' : SimInv cfg sim') {i : Nat} {v : OrderView}
    (hr : OrderBook.Rested sim.book sim.book.levelSlots sim'.book i v)
    (hl : sim'.hidden = sim.hidden) (hno : ¬ sim.InLedger v.orderRef) : sim'.RefUnique where
  book i j hi hj := simInv_refs h' hi hj
  across ref hb hled := by
    have hled' : sim.InLedger ref := by rw [InLedger, hl] at hled; exact hled
    obtain ⟨j, hj, href⟩ := hb
    rcases hr.back hj with ⟨_, he, _⟩ | ⟨hlj, he, _⟩
    · rw [he] at href
      exact hno (href ▸ hled')
    · exact hu.across ref ⟨j, hlj, he ▸ href⟩ hled'
  ledger := by rw [hl]; exact hu.ledger

/-- An order that leaves the book. -/
theorem RefUnique.reduced (hu : sim.RefUnique) (h' : SimInv cfg sim') {i : Nat} {qty : Int}
    (hr : OrderBook.Reduced sim.book sim.book.levelSlots sim'.book i qty) (hq : 0 ≤ qty)
    (hl : sim'.hidden = sim.hidden) : sim'.RefUnique where
  book i j hi hj := simInv_refs h' hi hj
  across ref hb hled := by
    have hled' : sim.InLedger ref := by rw [InLedger, hl] at hled; exact hled
    obtain ⟨j, hj, href⟩ := hb
    obtain ⟨hlj, he, _⟩ := hr.back hq hj
    exact hu.across ref ⟨j, hlj, he ▸ href⟩ hled'
  ledger := by rw [hl]; exact hu.ledger

theorem eraseHidden_sublist (ref : Nat) (l : List Hidden) : (eraseHidden ref l).Sublist l := by
  induction l with
  | nil => exact List.Sublist.refl _
  | cons a l ih =>
      rw [eraseHidden]
      split
      · exact List.sublist_cons_self a l
      · exact ih.cons_cons a

theorem decide_unique {ts : Nat} (hu : sim.RefUnique) (h : SimInv cfg sim)
    (h' : SimInv cfg sim') (hn : order.Named cfg.externalRefLimit)
    (hno : Proceeds cfg sim order ts → ¬ sim.InLedger order.ref)
    (hd : DecideCase cfg sim order ts sim') : sim'.RefUnique := by
  obtain ⟨mid, ht, hmid, hcase⟩ := hd.market h
  have hum := trades_unique hu h (Exchanges.trades ht h)
  obtain ⟨hbook, hledger⟩ := Trades.refs h (Exchanges.trades ht h)
  rcases hcase with hs | ⟨o, remaining, hr, hfree, hpost, _, hp⟩
  · exact hum.congr hs.book hs.hidden
  obtain ⟨href, _⟩ := resolved_fields hr
  have hfresh := hno ⟨o, hr, hpost⟩
  -- what the sweep has left of the market does not know the name either
  have hnl : ¬ mid.InLedger o.ref := fun hl => hfresh (href ▸ (inLedger_iff sim _).mpr
    (hledger.subset ((inLedger_iff mid _).mp hl)))
  have hnb : ¬ mid.InBook o.ref := by
    intro hb
    obtain ⟨j, hj, hjr⟩ := hbook o.ref (href ▸ hn.1) hb
    rw [href] at hjr
    exact (h.book.idFind_null_iff hn.2).mp hfree j hj hjr
  cases hp with
  | nowhere hs => exact hum.congr hs.book hs.hidden
  | displayed i hrests hadd hrest hs => exact hum.rested h' hrest hs.hidden hnl
  | ledger hrests hs =>
      refine { book := fun i j hi hj => simInv_refs h' hi hj, across := fun ref hb hl => ?_,
               ledger := ?_ }
      · rw [inBook_congr hs.book] at hb
        rw [inLedger_iff, hs.hidden, List.map_append, List.mem_append] at hl
        rcases hl with hl | hl
        · exact hum.across ref hb ((inLedger_iff mid ref).mpr hl)
        · rw [List.map_singleton, List.mem_singleton] at hl
          have hname : ref = o.ref := hl
          exact hnb (hname ▸ hb)
      · rw [hs.hidden, List.map_append, List.map_singleton, List.nodup_append]
        refine ⟨hum.ledger, List.nodup_singleton _, fun a ha b hb hab => hnl ?_⟩
        rw [List.mem_singleton.mp hb] at hab
        rw [inLedger_iff, ← show a = o.ref from hab]
        exact ha

/-- The names in the ledger once its first entry of `orig` is rewritten, or erased. -/
theorem ledger_refs {orig : Nat} {l : List Hidden} {e : Hidden}
    (hfind : l.find? (fun h => h.ref = orig) = some e) :
    ∃ l₁ l₂, l.map Hidden.ref = l₁ ++ orig :: l₂
      ∧ (eraseHidden orig l).map Hidden.ref = l₁ ++ l₂
      ∧ ∀ fresh qty price,
        (replaceHidden orig fresh qty price l).map Hidden.ref = l₁ ++ fresh :: l₂ := by
  obtain ⟨href, l₁, l₂, h1, h2, h3⟩ := split_of_find hfind
  refine ⟨l₁.map Hidden.ref, l₂.map Hidden.ref, ?_, ?_, fun fresh qty price => ?_⟩
  · rw [h1, List.map_append, List.map_cons, href]
  · rw [h2, List.map_append]
  · rw [h3, List.map_append, List.map_cons]

theorem call_unique {c : SimCall} (hu : sim.RefUnique) (h : SimInv cfg sim)
    (hl : c.Legal cfg.externalRefLimit) (hsafe : RefSafe cfg sim c) :
    (sim.call cfg c).RefUnique := by
  have h' := call_inv h hl
  have hc := call_cases h hl
  -- names below the limit are nobody's in the ledger
  have hext : ∀ ref, ref < cfg.externalRefLimit → ¬ sim.InLedger ref := fun ref hlt hin => by
    have := hin.own h
    omega
  generalize sim.call cfg c = r at hc h'
  cases hc with
  | still => exact hu
  | flow _ _ _ ht => exact trades_unique hu h (Exchanges.trades ht h)
  | seed ref s qty price i b _ hrest => exact hu.rested h' hrest rfl (hext ref hl)
  | iceberg spec i b _ _ hrest => exact hu.rested h' hrest rfl (hext spec.ref hl.1)
  | submit | halt | stpMode => exact hu.congr rfl rfl
  | decide _ hne hd =>
      have hn := (Scheduler.popMin_holds h.wheel hne).1
      have hpop : ({ sim with wheel := sim.wheel.popMin.2 } : ExecutionSimulator k).RefUnique :=
        hu.congr rfl rfl
      exact decide_unique hpop (popped_inv h hne) h' hn (hsafe hne) hd
  | cancelled ref i mid t hh hw =>
      exact hu.reduced h' hw.book (Int.le_of_lt (h.book.pos i hh.own.1)) hw.hidden
  | cancelledHidden ref =>
      have hsub := (eraseHidden_sublist ref sim.hidden).map Hidden.ref
      refine { book := hu.book, across := fun x hb hin => hu.across x hb ?_,
               ledger := hu.ledger.sublist hsub }
      exact (inLedger_iff sim x).mpr (hsub.subset ((inLedger_iff _ x).mp hin))
  | replaced orig fresh qty price i j b _ hh hrep hd =>
      have hno := hsafe.1 i hh hrep
      refine { book := fun x y hx hy => simInv_refs h' hx hy, across := fun ref hb hin => ?_,
               ledger := by rw [hd.hidden]; exact hu.ledger }
      rw [InLedger, hd.hidden] at hin
      obtain ⟨x, hx, href⟩ := hb
      rcases hd.rested.back hx with ⟨_, he, _⟩ | ⟨hlx, he, _⟩
      · have hname : fresh = ref := he.symm.trans href
        rw [← hname] at hin
        exact hno hin
      · obtain ⟨hlx', he', _⟩ := hd.gone.back (Int.le_of_lt (h.book.pos i hh.own.1)) hlx
        exact hu.across ref ⟨x, hlx', by rw [← he', ← he]; exact href⟩ hin
  | replacedHidden orig fresh qty price e hno hfind =>
      have hmem := List.mem_of_find?_eq_some hfind
      have heref : e.ref = orig := by simpa using List.find?_some hfind
      obtain ⟨l₁, l₂, h1, _, hrep⟩ := ledger_refs hfind
      have h2 := hrep fresh qty price
      by_cases hsame : fresh = orig
      · -- the names are what they were
        have hnames : (replaceHidden orig fresh qty price sim.hidden).map Hidden.ref
            = sim.hidden.map Hidden.ref := by rw [h1, h2, hsame]
        refine { book := hu.book, across := fun x hb hin => hu.across x hb ?_, ledger := ?_ }
        · rw [inLedger_iff] at hin ⊢
          rwa [← hnames]
        · rw [hnames]
          exact hu.ledger
      · obtain ⟨hnb, hnl⟩ := hsafe.2 (fun i hi => hno i hi.own hi.ref_eq) ⟨e, hmem, heref⟩ hsame
        rw [inLedger_iff, h1] at hnl
        have hnd := hu.ledger
        rw [h1, List.nodup_middle] at hnd
        have hfresh : fresh ∉ l₁ ++ l₂ := fun hin => hnl (by
          rcases List.mem_append.mp hin with hin | hin
          · simp [hin]
          · simp [hin])
        refine { book := hu.book, across := fun x hb hin => ?_, ledger := ?_ }
        · rw [inLedger_iff, h2] at hin
          by_cases hx : x = fresh
          · exact hnb (hx ▸ hb)
          · refine hu.across x hb ((inLedger_iff sim x).mpr ?_)
            rw [h1]
            rcases List.mem_append.mp hin with hin | hin
            · exact List.mem_append_left _ hin
            · rcases List.mem_cons.mp hin with rfl | hin
              · exact absurd rfl hx
              · exact List.mem_append_right _ (List.mem_cons_of_mem _ hin)
        · rw [h2, List.nodup_middle]
          exact List.nodup_cons.mpr ⟨hfresh, (List.nodup_cons.mp hnd).2⟩

/-! ## What uniqueness gives -/

/-- A decision under a name in the book is turned down. -/
theorem decide_reused (h : SimInv cfg sim) (ts : Nat) (hb : sim.InBook order.ref) :
    MarketSame (sim.opened cfg ts) (sim.decide cfg order ts) := by
  obtain ⟨j, hj, href⟩ := hb
  have hne : order.ref ≠ 0 := href ▸ h.book.ref j hj
  have htaken : (sim.book.findHandle order.ref).index ≠ kNullIndex := fun hn =>
    (h.book.idFind_null_iff hne).mp hn j hj href
  have hd := decide_cases h order ts
  generalize sim.decide cfg order ts = r at hd
  cases hd with
  | unpriced => exact pushDecision_same _ _ _ _
  | duplicate => exact pushDecision_same _ _ _ _
  | wouldCross _ _ _ hfree => exact absurd hfree htaken
  | placed _ _ _ _ hfree => exact absurd hfree htaken
  | stopped _ _ _ _ hfree => exact absurd hfree htaken
  | swept _ _ _ _ _ hfree => exact absurd hfree htaken

/-- A replace by a name that another order in the book bears is turned down. -/
theorem replace_reused (h : SimInv cfg sim) {orig fresh i : Nat} {qty price : Int}
    (hi : Holds cfg sim orig i) (hfresh : fresh ≠ 0) (hne : fresh ≠ orig) (hb : sim.InBook fresh) :
    ¬ (sim.replaceStrategy orig fresh qty price).1.ok
      ∧ (sim.replaceStrategy orig fresh qty price).2 = sim := by
  have hc := replaceStrategy_cases h orig hfresh qty price
  generalize sim.replaceStrategy orig fresh qty price = r at hc
  cases hc with
  | refused _ _ _ _ hok => exact ⟨hok, rfl⟩
  | tracked x j b _ hx hrep =>
      -- the book itself looks the new name up
      obtain ⟨y, hy, hyr⟩ := hb
      rcases hrep.free with hsame | hfree
      · exact absurd (hsame.trans hx.ref_eq) hne
      · exact absurd hyr ((h.book.idFind_null_iff hfresh).mp hfree y hy)
  | hidden _ hno => exact absurd hi.ref_eq (hno i hi.own)
  | unknown hno => exact absurd hi.ref_eq (hno i hi.own)

/-- Cancelling an order leaves nothing under its name. -/
theorem cancel_leaves_nothing (hu : sim.RefUnique) (h : SimInv cfg sim) {ref : Nat}
    (hok : (sim.cancelStrategy ref).1 = true) :
    ¬ (sim.cancelStrategy ref).2.InBook ref ∧ ¬ (sim.cancelStrategy ref).2.InLedger ref := by
  have hc := cancelStrategy_cases h ref
  generalize sim.cancelStrategy ref = r at hc hok
  cases hc with
  | tracked i mid hh hw =>
      refine ⟨fun hb => ?_, fun hin => ?_⟩
      · obtain ⟨j, hj, href⟩ := hb
        obtain ⟨hlj, hno⟩ := (hw.book.live j).mp hj
        have hkept := (hw.book.kept hj).1
        have hji := simInv_refs h hlj hh.own.1 (hkept.symm.trans (href.trans hh.ref_eq.symm))
        exact hno ⟨hji, rfl⟩
      · have hin' : sim.InLedger ref := by
          rw [InLedger] at hin ⊢
          rw [← hw.hidden]
          exact hin
        exact hu.across ref ⟨i, hh.own.1, hh.ref_eq⟩ hin'
  | hidden hno hmem =>
      refine ⟨fun hb => hu.across ref hb hmem, fun hin => ?_⟩
      -- the only entry of the name is the one erased
      obtain ⟨e, hfind⟩ : ∃ e, sim.hidden.find? (fun h => h.ref = ref) = some e := by
        obtain ⟨e, he, href⟩ := hmem
        exact Option.isSome_iff_exists.mp (List.find?_isSome.mpr ⟨e, he, by simpa using href⟩)
      obtain ⟨l₁, l₂, h1, h2, _⟩ := ledger_refs hfind
      rw [inLedger_iff, h2] at hin
      have hnd := hu.ledger
      rw [h1, List.nodup_middle] at hnd
      exact (List.nodup_cons.mp hnd).1 hin
  | unknown => exact absurd hok Bool.false_ne_true

/-- Replacing an order by another name leaves nothing under the old one. -/
theorem replace_leaves_nothing (hu : sim.RefUnique) (h : SimInv cfg sim) {orig fresh : Nat}
    {qty price : Int} (hfresh : fresh ≠ 0) (hne : fresh ≠ orig)
    (hrest : (∃ i, Holds cfg sim orig i) ∨ sim.InLedger orig)
    (hok : (sim.replaceStrategy orig fresh qty price).1.ok) :
    ¬ (sim.replaceStrategy orig fresh qty price).2.InBook orig
      ∧ ¬ (sim.replaceStrategy orig fresh qty price).2.InLedger orig := by
  have hc := replaceStrategy_cases h orig hfresh qty price
  generalize sim.replaceStrategy orig fresh qty price = r at hc hok
  cases hc with
  | tracked i j b _ hh hrep _ hd =>
      refine ⟨fun hb => ?_, fun hin => ?_⟩
      · obtain ⟨x, hx, href⟩ := hb
        rcases hd.rested.back hx with ⟨_, he, _⟩ | ⟨hlx, he, _⟩
        · exact hne (he.symm.trans href)
        · obtain ⟨hlx', hno⟩ := (hd.gone.live x).mp hlx
          have hkept := (hd.gone.kept hlx).1
          have hxi := simInv_refs h hlx' hh.own.1
            (hkept.symm.trans (he.symm.trans (href.trans hh.ref_eq.symm)))
          exact hno ⟨hxi, rfl⟩
      · rw [InLedger, hd.hidden] at hin
        exact hu.across orig ⟨i, hh.own.1, hh.ref_eq⟩ hin
  | refused _ _ _ _ hno => exact absurd hok hno
  | hidden e hno hfind =>
      have hin : sim.InLedger orig :=
        ⟨e, List.mem_of_find?_eq_some hfind, by simpa using List.find?_some hfind⟩
      refine ⟨fun hb => hu.across orig hb hin, fun hin' => ?_⟩
      -- its one entry bears the new name now
      obtain ⟨l₁, l₂, h1, _, hrep⟩ := ledger_refs hfind
      have hnd := hu.ledger
      rw [h1, List.nodup_middle] at hnd
      rw [inLedger_iff, hrep fresh qty price] at hin'
      refine (List.nodup_cons.mp hnd).1 ?_
      rcases List.mem_append.mp hin' with hm | hm
      · exact List.mem_append_left _ hm
      · rcases List.mem_cons.mp hm with he | hm
        · exact absurd he.symm hne
        · exact List.mem_append_right _ hm
  | unknown hno hnot =>
      rcases hrest with ⟨i, hi⟩ | ⟨e, he, href⟩
      · exact absurd hi.ref_eq (hno i hi.own)
      · exact absurd href (hnot e he)

theorem RefUnique.sound (hu : sim.RefUnique) (h : SimInv cfg sim) : RefsSound cfg sim where
  unique := hu
  decision _ ts hb := decide_reused h ts hb
  replacement _ _ _ _ _ hi _ hfresh hne hb := replace_reused h hi hfresh hne hb
  cancelled _ hok := cancel_leaves_nothing hu h hok
  replaced _ _ _ _ _ hfresh hne hrest hok := replace_leaves_nothing hu h hfresh hne hrest hok

/--
**A reference names one order**, unless a call uses a name it does not look for.

In a run in which no decision that reaches the market is named like an entry of the
ledger, no replace that the book takes gives a name of the ledger, and no replace of an
entry gives a name that rests, references are unique in every state reached: reused names
are turned down without effect, and cancels and replaces act on the one order named.
-/
theorem refsSound_run (hc : OrderBook.ConfigOk k cfg.book)
    (h : Reaches cfg (RefSafe cfg) sim) : RefsSound cfg sim := by
  have hrun : sim.RefUnique := by
    induction h with
    | init =>
        refine { book := fun i j hi _ => ?_, across := fun ref _ hin => ?_, ledger := List.nodup_nil }
        · have hmem := ((OrderBook.init_inv (k := k) hc).mem _ _ i).mpr ⟨hi, rfl, rfl⟩
          exact absurd hmem List.not_mem_nil
        · obtain ⟨e, he, _⟩ := hin
          exact absurd he List.not_mem_nil
    | step hr c hl hok ih => exact call_unique ih (hr.simInv hc) hl hok
  exact hrun.sound (h.simInv hc)

/-- A hidden bid and a displayed one under names of their own; the second name is used again and
turned down, its order is replaced, and the hidden bid is cancelled. -/
def ownNames : List SimCall :=
  [.submit hiddenBid 0, .decideNext, .submit { ref := 101, qty := 4, price := 2 } 1, .decideNext,
    .submit { ref := 101, qty := 9, price := 1 } 2, .decideNext, .replaceStrategy 101 102 3 3,
    .cancelStrategy 100, .submit { hiddenBid with ref := 101 } 3, .decideNext]

/-- The replaced name is free for an entry of the ledger. -/
theorem refsSound_run_rested :
    RefsSound deskConfig (run deskConfig ownNames : ExecutionSimulator 4)
      ∧ (run deskConfig ownNames : ExecutionSimulator 4).hidden.map Hidden.ref = [101]
      ∧ (run deskConfig ownNames : ExecutionSimulator 4).book.remainingOf 102 = 3 := by
  refine ⟨refsSound_run deskConfig_ok (reaches_run (by decide) ⟨trivial, fun _ _ => ?_, trivial,
    fun _ _ => ?_, trivial, fun _ _ => ?_, ⟨fun _ _ _ => ?_, fun _ hin => ?_⟩, trivial, trivial,
    fun _ _ => ?_, trivial⟩), by decide +kernel, by decide +kernel⟩
  all_goals rw [inLedger_iff] at *
  · decide +kernel
  · decide +kernel
  · decide +kernel
  · decide +kernel
  · exact absurd hin (by decide +kernel)
  · decide +kernel

/-- A displayed bid of the same name is let in beside it. -/
theorem ledger_name_reused :
    Reachable deskConfig (run deskConfig [.submit hiddenBid 0, .decideNext,
        .submit { ref := 100, qty := 4, price := 2 } 0, .decideNext] : ExecutionSimulator 4)
      ∧ ¬ RefsSound deskConfig (run deskConfig [.submit hiddenBid 0, .decideNext,
        .submit { ref := 100, qty := 4, price := 2 } 0, .decideNext] : ExecutionSimulator 4) := by
  have hr : Reachable deskConfig (run deskConfig [.submit hiddenBid 0, .decideNext,
      .submit { ref := 100, qty := 4, price := 2 } 0, .decideNext] : ExecutionSimulator 4) :=
    reachable_run (by decide)
  refine ⟨hr, fun hs => ?_⟩
  have htracked : (run deskConfig [.submit hiddenBid 0, .decideNext,
      .submit { ref := 100, qty := 4, price := 2 } 0, .decideNext] :
      ExecutionSimulator 4).trackedIndexOf 100 ≠ kNullIndex := by decide +kernel
  obtain ⟨i, hi⟩ := holds_of_tracked (hr.simInv deskConfig_ok) htracked
  refine hs.unique.across 100 ⟨i, hi.own.1, hi.ref_eq⟩ ((inLedger_iff _ 100).mpr ?_)
  decide +kernel

end ExecutionSimulator

end Mog
