import Mog.Sim.Homes
import Mog.Sim.Marketable

/-!
# The book does not cross

A remainder comes to rest only where a sweep has found nothing left within its bound, or
where the opposite touch lay beyond the bound to begin with; a slice comes back to the
level its iceberg stands on. What can cross the book is a replace, which looks at no
touch, and a reserve whose reference has been given to an order on another level.
-/

namespace Mog

open QueueSum TrackTable

theorem better_opp (s : Side) (a b : Int) : better s.opp a b ↔ better s b a := by
  cases s <;> simp only [better, atLeastAsGood, Side.opp]

namespace OrderBook

variable {k : Nat} {b b' : OrderBook k}

/-- No order on the other side is reached from `price` on side `s`. -/
def Clear (b : OrderBook k) (s : Side) (price : Int) : Prop :=
  ∀ j, b.live j → (b.order j).side = s.opp → better s.opp price (b.order j).priceTicks

/-- No bid reaches an ask. -/
def Uncrossed (b : OrderBook k) : Prop :=
  ∀ i, b.live i → b.Clear (b.order i).side (b.order i).priceTicks

/-- Both sides show a price, and they lock or cross. -/
def Crossed (b : OrderBook k) : Prop :=
  b.bestBid ≠ kNoTick ∧ b.bestAsk ≠ kNoTick ∧ b.bestAsk ≤ b.bestBid

instance (b : OrderBook k) : Decidable b.Crossed := inferInstanceAs (Decidable (_ ∧ _))

theorem Uncrossed.not_crossed (h : b.Uncrossed) (hb : b.Valid) : ¬ b.Crossed := by
  rintro ⟨hbid, hask, hle⟩
  obtain ⟨i, l, hi⟩ := Sweep.front_of_best (s := .buy) hb hbid
  obtain ⟨j, l', hj⟩ := Sweep.front_of_best (s := .sell) hb hask
  have hclear := h i hi.live j hj.live (by rw [hi.side, hj.side]; rfl)
  rw [hi.side, hi.price, hj.price] at hclear
  exact hclear hle

/-- Fewer orders cross no book. -/
theorem Uncrossed.reduced {i : Nat} {qty : Int} (h : b.Uncrossed)
    (hr : Reduced b b.levelSlots b' i qty) : b'.Uncrossed := by
  intro x hx j hj hside
  obtain ⟨_, hp, hs⟩ := hr.kept hx
  obtain ⟨_, hp', hs'⟩ := hr.kept hj
  rw [hs] at hside ⊢
  rw [hp, hp']
  exact h x ((hr.live x).mp hx).1 j ((hr.live j).mp hj).1 (hs'.symm.trans hside)

theorem Clear.reduced {i : Nat} {qty price : Int} {s : Side} (h : b.Clear s price)
    (hr : Reduced b b.levelSlots b' i qty) : b'.Clear s price := by
  intro j hj hside
  obtain ⟨_, hp, hs⟩ := hr.kept hj
  rw [hp]
  exact h j ((hr.live j).mp hj).1 (hs.symm.trans hside)

/-- An order that comes to rest in the clear crosses no book. -/
theorem Uncrossed.rested {i : Nat} {v : OrderView} (h : b.Uncrossed)
    (hr : Rested b b.levelSlots b' i v) (hc : b.Clear v.side v.priceTicks) : b'.Uncrossed := by
  obtain ⟨_, his, hip⟩ := hr.fields
  -- the newcomer, or an order that was there before
  have hold : ∀ {x : Nat}, b'.live x → x ≠ i → b.live x ∧ (b'.order x).side = (b.order x).side
      ∧ (b'.order x).priceTicks = (b.order x).priceTicks := fun {x} hx hxi =>
    ⟨((hr.live x).mp hx).resolve_left hxi, (Order.view_eq (hr.frame x hxi)).2.2.2,
      (Order.view_eq (hr.frame x hxi)).2.2.1⟩
  intro x hx j hj hside
  by_cases hxi : x = i
  · rw [hxi, his] at hside ⊢
    have hji : j ≠ i := fun he => by
      rw [he, his] at hside
      exact Side.opp_ne _ hside.symm
    obtain ⟨hl, hs, hp⟩ := hold hj hji
    rw [hip, hp]
    exact hc j hl (hs.symm.trans hside)
  · obtain ⟨hl, hs, hp⟩ := hold hx hxi
    rw [hs] at hside ⊢
    rw [hp]
    by_cases hji : j = i
    · rw [hji, his] at hside
      rw [hji, hip, better_opp]
      have hb := hc x hl (by rw [hside, Side.opp_opp])
      rw [hside, Side.opp_opp] at hb
      exact hb
    · obtain ⟨hlj, hsj, hpj⟩ := hold hj hji
      rw [hpj]
      exact h x hl j hlj (hsj.symm.trans hside)

/-- The other side is clear of a price that its best is behind. -/
theorem clear_of_best (hb : b.Valid) {s : Side} {price : Int}
    (h : b.best s.opp = kNoTick ∨ better s.opp price (b.best s.opp)) : b.Clear s price := by
  intro j hj hside
  have hnil : b.levelSlots s.opp (b.order j).priceTicks ≠ [] := by
    intro hnil
    have hmem := hb.mem_queueOf hj
    rw [queueOf, hside, hnil] at hmem
    exact absurd hmem List.not_mem_nil
  obtain ⟨hne, hgood⟩ := hb.best_good hnil
  exact fun hle => h.resolve_left hne (atLeastAsGood_trans hgood hle)

end OrderBook

namespace ExecutionSimulator

open Sweep

variable {k : Nat} {cfg : SimConfig} {sim sim' : ExecutionSimulator k} {order : SimInbound}

/-- The orders of an iceberg's reference stand on the iceberg's level. -/
def Anchored (sim : ExecutionSimulator k) : Prop :=
  ∀ ib ∈ sim.icebergs, 0 < ib.hidden → ∀ i, sim.book.live i →
    (sim.book.order i).orderRef = ib.ref →
      (sim.book.order i).side = ib.side ∧ (sim.book.order i).priceTicks = ib.priceTicks

/-- The book is not crossed, and no slice can cross it. -/
structure CrossInv (sim : ExecutionSimulator k) : Prop where
  book : sim.book.Uncrossed
  anchored : sim.Anchored

theorem CrossInv.same (h : sim.CrossInv) (hi : sim'.icebergs = sim.icebergs)
    (hb : sim'.book = sim.book) : sim'.CrossInv where
  book := by rw [hb]; exact h.book
  anchored := by rw [Anchored, hi, hb]; exact h.anchored

theorem CrossInv.reduced {i : Nat} {qty : Int} (h : sim.CrossInv)
    (hi : sim'.icebergs = sim.icebergs)
    (hr : OrderBook.Reduced sim.book sim.book.levelSlots sim'.book i qty) : sim'.CrossInv := by
  refine ⟨h.book.reduced hr, fun ib hib hpos j hj href => ?_⟩
  rw [hi] at hib
  obtain ⟨hr', hp, hs⟩ := hr.kept hj
  rw [hp, hs]
  exact h.anchored ib hib hpos j ((hr.live j).mp hj).1 (hr'.symm.trans href)

/-- A newcomer in the clear, on the level of every reserve of its reference. -/
theorem CrossInv.rested {i : Nat} {v : OrderView} (h : sim.CrossInv)
    (hr : OrderBook.Rested sim.book sim.book.levelSlots sim'.book i v)
    (hc : sim.book.Clear v.side v.priceTicks)
    (hi : ∀ ib ∈ sim'.icebergs, 0 < ib.hidden →
      ∃ x : Iceberg, x.ref = ib.ref ∧ x.side = ib.side ∧ x.priceTicks = ib.priceTicks
        ∧ (x ∈ sim.icebergs ∧ 0 < x.hidden ∨ ∀ j, sim.book.live j →
          (sim.book.order j).orderRef ≠ ib.ref))
    (hv : ∀ ib ∈ sim'.icebergs, 0 < ib.hidden → ib.ref = v.orderRef →
      v.side = ib.side ∧ v.priceTicks = ib.priceTicks) : sim'.CrossInv := by
  obtain ⟨hir, his, hip⟩ := hr.fields
  refine ⟨h.book.rested hr hc, fun ib hib hpos j hj href => ?_⟩
  by_cases hji : j = i
  · rw [hji] at href ⊢
    rw [his, hip]
    exact hv ib hib hpos (href.symm.trans hir)
  · have hl := ((hr.live j).mp hj).resolve_left hji
    obtain ⟨hr', _, hp, hs⟩ := Order.view_eq (hr.frame j hji)
    rw [hp, hs]
    obtain ⟨x, hxr, hxs, hxp, hx⟩ := hi ib hib hpos
    rcases hx with ⟨hx, hxpos⟩ | hno
    · rw [← hxs, ← hxp]
      exact h.anchored x hx hxpos j hl (hr'.symm.trans (href.trans hxr.symm))
    · exact absurd (hr'.symm.trans href) (hno j hl)

theorem exchange_crossInv (h : sim.CrossInv) (he : Exchange cfg sim sim') : sim'.CrossInv := by
  cases he with
  | idle hi => exact h.same hi.icebergs hi.book
  | repeg hr => exact h.same (by rw [hr]; rfl) (by rw [hr]; rfl)
  | withdraw i _ hw => exact h.reduced hw.icebergs hw.book
  | tap t e kept l ht => exact h.same (by rw [ht.after]) (by rw [ht.after])
  | fill i take mid hf hs =>
      have hmid : mid.CrossInv := h.reduced hf.icebergs hf.book
      rcases hs with ⟨rfl, _⟩ | ⟨ib, rest, j, href, hr⟩
      · exact hmid
      -- the slice stands where the executed order stood
      have hib : ib ∈ sim.icebergs := by
        rw [← hf.icebergs]
        exact hr.entry.mem_iff.mpr List.mem_cons_self
      obtain ⟨hside, hprice⟩ := h.anchored ib hib hr.reserve i hf.live href.symm
      have hclear : mid.book.Clear ib.side ib.priceTicks := by
        rw [← hside, ← hprice]
        exact (h.book i hf.live).reduced hf.book
      have hback : ∀ x ∈ sim'.icebergs, 0 < x.hidden → ∃ y ∈ mid.icebergs, 0 < y.hidden
          ∧ y.ref = x.ref ∧ y.side = x.side ∧ y.priceTicks = x.priceTicks := by
        intro x hx hpos
        rcases List.mem_append.mp (hr.left.mem_iff.mp hx) with hx | hx
        · rw [SimInv.mem_afterSlice hx]
          exact ⟨ib, hr.entry.mem_iff.mpr List.mem_cons_self, hr.reserve, rfl, rfl, rfl⟩
        · exact ⟨x, hr.entry.mem_iff.mpr (List.mem_cons_of_mem _ hx), hpos, rfl, rfl, rfl⟩
      refine hmid.rested hr.book hclear (fun x hx hpos => ?_) (fun x hx hpos hxr => ?_)
      · obtain ⟨y, hy, hypos, hyr, hys, hyp⟩ := hback x hx hpos
        exact ⟨y, hyr, hys, hyp, Or.inl ⟨hy, hypos⟩⟩
      · obtain ⟨y, hy, hypos, hyr, hys, hyp⟩ := hback x hx hpos
        rw [hf.icebergs] at hy
        obtain ⟨hs', hp'⟩ := h.anchored y hy hypos i hf.live
          (href.symm.trans (hxr.symm.trans hyr.symm))
        dsimp only
        exact ⟨hside.symm.trans (hs'.trans hys), hprice.symm.trans (hp'.trans hyp)⟩

theorem exchanges_crossInv (h : sim.CrossInv) (he : Exchanges cfg sim sim') : sim'.CrossInv := by
  induction he with
  | refl => exact h
  | tail _ hb ih => exact exchange_crossInv ih hb.1

/-! ## Where a remainder comes to rest -/

/-- Behind its bound the other side is clear. -/
theorem clear_of_beyond {o : SimInbound}
    (h : ∀ j, sim.book.live j → (sim.book.order j).side = o.side.opp →
      beyond o (sim.book.order j).priceTicks) : sim.book.Clear o.side o.price := by
  intro j hj hside
  obtain ⟨_, hb⟩ := h j hj hside
  cases hs : o.side <;> rw [hs] at hb <;>
    simp only [better, atLeastAsGood, Side.opp, Int.not_le] <;> exact hb

/-- The opposite touch is not reached. -/
theorem clear_of_not_touches (h : SimInv cfg sim) {o : SimInbound} (hn : ¬ sim.touches o) :
    sim.book.Clear o.side o.price := by
  refine OrderBook.clear_of_best h.book ?_
  rw [touches, not_and_or, not_not] at hn
  refine hn.imp id (fun hn => ?_)
  cases hs : o.side <;> rw [hs] at hn <;>
    simp only [better, atLeastAsGood, Side.opp] at * <;> exact hn

/-- A displayed remainder is that of a limit order. -/
theorem limit_of_displayed {o : SimInbound} (hres : sim.resolved order = some o)
    (hrests : restsAfter o.type) (hshown : ¬ (o.nonDisplayed = true ∨ o.peg ≠ .none)) :
    o.type = .dayLimit ∨ o.type = .postOnly := by
  obtain ⟨hnd, _⟩ := not_or.mp hshown
  obtain ⟨_, _, _, htype⟩ := resolved_fields hres
  have hhid : o.nonDisplayed = (resolvePeg order).nonDisplayed := by
    unfold resolved at hres
    split at hres
    · split at hres
      · exact absurd hres (by simp)
      · exact (Option.some.inj hres) ▸ rfl
    · exact (Option.some.inj hres) ▸ rfl
  rcases hrests with h | h | h | h | h
  · exact Or.inl h
  · exact Or.inr h
  · exact absurd (by rw [hhid, resolvePeg, ← htype, h]) hnd
  · exact absurd (by rw [hhid, resolvePeg, ← htype, h]) hnd
  · exact absurd (by rw [hhid, resolvePeg, ← htype, h]) hnd

/-- **A remainder comes to rest in the clear**, unless the book is halted. -/
theorem finish_crossInv {o : SimInbound} {remaining : Int} {out : SimDecision} {vis : Nat}
    (h : sim.CrossInv) (hinv : SimInv cfg sim) (hown : cfg.externalRefLimit ≤ o.ref)
    (hclear : 0 < remaining → o.type = .dayLimit ∨ o.type = .postOnly →
      sim.book.Clear o.side o.price)
    (hlimit : restsAfter o.type → ¬ (o.nonDisplayed = true ∨ o.peg ≠ .none) →
      o.type = .dayLimit ∨ o.type = .postOnly)
    (hf : FinishCase sim o remaining out vis sim') : sim'.CrossInv := by
  cases hf with
  | refused => exact h.same rfl rfl
  | ledger => exact h.same rfl rfl
  | cancelled => exact h.same rfl rfl
  | displayed i b hrests hshown hadd hr =>
      have hrest : ({ sim with book := b } : ExecutionSimulator k).CrossInv := by
        refine h.rested hr (hclear hrests.2 (hlimit hrests.1 hshown))
          (fun ib hib hpos => ⟨ib, rfl, rfl, rfl, Or.inl ⟨hib, hpos⟩⟩) (fun ib hib _ href => ?_)
        have hext := (hinv.icebergs ib hib).external
        have hr' : ib.ref = o.ref := href
        omega
      exact hrest.same rfl rfl

theorem decide_crossInv {ts : Nat} (h : sim.CrossInv) (hinv : SimInv cfg sim)
    (hlive : sim.halted = false) (hn : order.Named cfg.externalRefLimit)
    (hd : DecideCase cfg sim order ts sim') : sim'.CrossInv := by
  have hopen := opened_exchanges hinv ts
  have hoinv := Exchanges.inv hinv hopen
  have ho := exchanges_crossInv h hopen
  have hswept : ∀ (o : SimInbound) (w : Sweep k),
      Sweep.Moves cfg o ((sim.opened cfg ts).crossStart o.qty) w → w.sim.CrossInv := by
    intro o w hm
    have hstart : ((sim.opened cfg ts).crossStart o.qty).sim.CrossInv := ho.same rfl rfl
    exact exchanges_crossInv hstart (hm.exchanges hoinv.clearSync).1
  cases hd with
  | unpriced => exact ho.same rfl rfl
  | duplicate => exact ho.same rfl rfl
  | wouldCross => exact ho.same rfl rfl
  | stopped o vis w hr hfree htype hcross hpos hm hw hrem hstop =>
      exact (hswept o w hm).same rfl rfl
  | placed o vis _ hr hfree hpost hno hf =>
      obtain ⟨href, _, _, htype⟩ := resolved_fields hr
      refine finish_crossInv ho hoinv (by rw [href]; exact hn.1) (fun hpos hlim => ?_)
        (limit_of_displayed hr) hf
      -- a limit order that does not cross does not reach the touch
      refine clear_of_not_touches hoinv (fun ht => hno ⟨⟨hlive, Or.inr ⟨ht, ?_⟩⟩, hpos⟩)
      tauto
  | swept o vis w _ hr hfree htype' hcross hpos hm hw hend hf =>
      obtain ⟨href, _, _, htype⟩ := resolved_fields hr
      have hset : SimInv cfg ((w.settle o.side.opp).counted o w.filled) :=
        (Sweep.settle_inv hw _).logged _
      have hw' : ((w.settle o.side.opp).counted o w.filled).CrossInv := (hswept o w hm).same rfl rfl
      refine finish_crossInv hw' hset (by rw [href]; exact hn.1) (fun hrem hlim => ?_)
        (limit_of_displayed hr) hf
      obtain ⟨⟨es, ha⟩, _⟩ := hm.accounts (Nat.zero_lt_of_lt (Nat.two_pow_pos 64))
      have hleft : w.remaining = o.qty - w.filled := by
        have h1 : w.filled = 0 + executedQty es := ha.filled
        have h2 : w.remaining = o.qty - executedQty es := ha.remaining
        omega
      rcases hend with hdone | ⟨_, hleave⟩
      · omega
      · exact clear_of_beyond (fun j hj hside => Sweep.leave_displayed hw hleave hj hside)

/-! ## Whole runs -/

/-- Seeds neither lock nor cross the book, and nothing is ever halted. -/
def SeedsClear (sim : ExecutionSimulator k) : SimCall → Prop
  | .seedExternal ref s qty price =>
      sim.book.Addable ref s qty price → ¬ sim.touches { side := s, price }
  | .seedIceberg spec =>
      sim.book.Addable spec.ref spec.side spec.display spec.price →
        ¬ sim.touches { side := spec.side, price := spec.price }
  | .setHalted h => h = false
  | _ => True

/-- No reserve of `ref` belongs to another level. -/
def NoReserveElsewhere (sim : ExecutionSimulator k) (ref : Nat) (s : Side) (price : Int) : Prop :=
  ∀ ib ∈ sim.icebergs, 0 < ib.hidden → ib.ref = ref → s = ib.side ∧ price = ib.priceTicks

/-- A replace that the book takes does not reach the opposite touch, and an accepted seed is
on the level of any reserve of its reference. -/
def CrossSafe (cfg : SimConfig) (sim : ExecutionSimulator k) : SimCall → Prop
  | .seedExternal ref s qty price =>
      sim.book.Addable ref s qty price → sim.NoReserveElsewhere ref s price
  | .seedIceberg spec =>
      sim.book.Addable spec.ref spec.side spec.display spec.price →
        sim.NoReserveElsewhere spec.ref spec.side spec.price
  | .replaceStrategy orig fresh qty price =>
      ∀ i, Holds cfg sim orig i → sim.book.Replaceable i fresh qty price →
        ¬ sim.touches { side := (sim.book.order i).side, price }
  | _ => True

/-- The price of a call that keeps clear of the touch. -/
theorem clear_of_price (h : SimInv cfg sim) {s : Side} {price : Int}
    (hn : ¬ sim.touches { side := s, price }) : sim.book.Clear s price :=
  clear_of_not_touches (o := { side := s, price }) h hn

theorem call_crossInv {c : SimCall} (h : sim.CrossInv) (hinv : SimInv cfg sim)
    (hlive : sim.halted = false)
    (hw : sim.wheel.Holds (fun e => e.order.Named cfg.externalRefLimit))
    (hl : c.Legal cfg.externalRefLimit) (hseed : SeedsClear sim c) (hsafe : CrossSafe cfg sim c) :
    (sim.call cfg c).CrossInv := by
  -- a seed that the book has taken
  have hadd : ∀ {ref : Nat} {s : Side} {qty price : Int},
      (sim.book.add ref s qty price).tick.ok → sim.book.Addable ref s qty price := by
    intro ref s qty price hok
    rcases OrderBook.add_cases hinv.book ref s qty price with ⟨ha, _⟩ | ⟨_, hno, _⟩
    · exact ha
    · exact absurd hok hno
  have hc := call_cases hinv hl
  generalize sim.call cfg c = r at hc
  cases hc with
  | still => exact h
  | flow _ _ _ ht => exact exchanges_crossInv h ht
  | submit | cancelledHidden | replacedHidden | halt | stpMode => exact h.same rfl rfl
  | seed ref s qty price i b hok hr =>
      have ha := hadd hok
      refine h.rested hr (clear_of_price hinv (hseed ha))
        (fun ib hib hpos => ⟨ib, rfl, rfl, rfl, Or.inl ⟨hib, hpos⟩⟩) (fun ib hib hpos href => ?_)
      exact hsafe ha ib hib hpos href
  | iceberg spec i b _ ha hr =>
      refine h.rested hr (clear_of_price hinv (hseed ha)) (fun ib hib hpos => ?_)
        (fun ib hib hpos href => ?_)
      · rcases List.mem_append.mp hib with hib | hib
        · exact ⟨ib, rfl, rfl, rfl, Or.inl ⟨hib, hpos⟩⟩
        · rw [List.mem_singleton.mp hib]
          -- the reference is free
          exact ⟨_, rfl, rfl, rfl, Or.inr ((hinv.book.idFind_null_iff ha.named).mp ha.free)⟩
      · rcases List.mem_append.mp hib with hib | hib
        · exact hsafe ha ib hib hpos href
        · rw [List.mem_singleton.mp hib]
          exact ⟨rfl, rfl⟩
  | decide sim' hne hd =>
      have hpop : ({ sim with wheel := sim.wheel.popMin.2 } : ExecutionSimulator k).CrossInv :=
        h.same rfl rfl
      exact decide_crossInv hpop (popped_inv hinv hne) hlive (Scheduler.popMin_holds hw hne).1 hd
  | cancelled ref i mid t hh hwd =>
      have hm : mid.CrossInv := h.reduced hwd.icebergs hwd.book
      exact hm.same rfl rfl
  | replaced orig fresh qty price i j b _ hh hcan hd =>
      have hgone : ({ sim with book := b } : ExecutionSimulator k).CrossInv := h.reduced rfl hd.gone
      have hclear := (clear_of_price hinv (hsafe i hh hcan)).reduced hd.gone
      refine hgone.rested hd.rested hclear (fun ib hib hpos => ?_) (fun ib hib hpos href => ?_)
      · rw [hd.icebergs] at hib
        exact ⟨ib, rfl, rfl, rfl, Or.inl ⟨hib, hpos⟩⟩
      · rw [hd.icebergs] at hib
        have hext := (hinv.icebergs ib hib).external
        have hfresh : ib.ref = fresh := href
        have := hl.1
        omega

/-- An iceberg at five, a bid at three, an order that takes the first slice of the iceberg and meets
the next; then the bid moves up to four. -/
def bidsBelow : List SimCall :=
  [.seedIceberg { ref := 1, side := .sell, price := 5, display := 2, total := 6 },
    .submit { ref := 100, qty := 2, price := 3 } 0, .decideNext,
    .submit { ref := 101, qty := 3, price := 6, type := .ioc } 1, .decideNext,
    .replaceStrategy 100 102 2 4]

/-- An offer at five, and the strategy's bid at three, which is replaced at six. -/
def bidReplacedUp : List SimCall :=
  [.seedExternal 1 .sell 4 5, .submit { ref := 100, qty := 2, price := 3 } 0, .decideNext,
    .replaceStrategy 100 101 2 6]

end ExecutionSimulator

end Mog
