import Mog.Ouch.Gateway
import Mog.Sim.Calls
import Mog.Sim.Exact

/-!
# Replaces, end to end

What a successful `replace_strategy` promises: the order was there, and afterwards the
new reference alone rests, on the new terms. A replace that fails leaves simulator and
session as they were. The tick of a reference that nobody knows is the default one,
which reads as a success; and the ledger takes any terms.

The replaced order is in the book, in the ledger or nowhere, and the three outcomes are proved
apart. What rests afterwards is counted over both places, because a replace in the ledger asks
neither of them for the new reference. The promise about the session is read off the gateway's
own step: it answers with the frame that the tick selects, and touches its tables on a success
only.
-/

namespace Mog

open QueueSum TrackTable

namespace ExecutionSimulator

variable {k : Nat} {cfg : SimConfig} {sim sim' : ExecutionSimulator k}

/-! ## What rests under a reference -/

/-- A strategy order `ref` of `qty` units at `price` rests, in the book or in the ledger. -/
def RestsAs (cfg : SimConfig) (sim : ExecutionSimulator k) (ref : Nat) (qty price : Int) : Prop :=
  (∃ i, Holds cfg sim ref i ∧ sim.book.rem i = qty ∧ (sim.book.order i).priceTicks = price)
    ∨ ∃ h ∈ sim.hidden, h.ref = ref ∧ 0 < h.qtyRemaining ∧ h.qtyRemaining = qty
      ∧ h.priceTicks = price

/-- The strategy's order `ref` is live. -/
def StrategyLive (cfg : SimConfig) (sim : ExecutionSimulator k) (ref : Nat) : Prop :=
  ∃ qty price, RestsAs cfg sim ref qty price

/-- A gateway answers a replace that has failed with a refusal, and goes on as before. -/
def Refused (sim : ExecutionSimulator k) (orig fresh : Nat) (qty price : Int) : Prop :=
  ∀ (g : Ouch.OuchGateway k) (wire : Ouch.ReplaceOrderWire) (arrivalTs : Nat), g.sim = sim →
    Ouch.idFromToken wire.existingOrderToken = orig →
    Ouch.idFromToken wire.replacementOrderToken = fresh →
    (wire.shares.toNat : Int) = qty → (wire.price.toNat : Int) = price →
    g.submitReplace wire arrivalTs = (false, g)

/-- A replace is reported as what it did. -/
structure ReplaceReported (cfg : SimConfig) (sim : ExecutionSimulator k) (orig fresh : Nat)
    (qty price : Int) : Prop where
  was : (sim.replaceStrategy orig fresh qty price).1.ok → StrategyLive cfg sim orig
  terms : (sim.replaceStrategy orig fresh qty price).1.ok → ∀ q p,
    RestsAs cfg (sim.replaceStrategy orig fresh qty price).2 fresh q p ↔ q = qty ∧ p = price
  gone : (sim.replaceStrategy orig fresh qty price).1.ok → fresh ≠ orig →
    ¬ StrategyLive cfg (sim.replaceStrategy orig fresh qty price).2 orig
  unchanged : ¬ (sim.replaceStrategy orig fresh qty price).1.ok →
    (sim.replaceStrategy orig fresh qty price).2 = sim
  refused : ¬ (sim.replaceStrategy orig fresh qty price).1.ok → Refused sim orig fresh qty price

/-- No live entry stands in the way of a replace: none named `fresh` on other terms, and none
named `orig` that would stay. -/
structure LedgerClear (l : List Hidden) (orig fresh : Nat) (qty price : Int) : Prop where
  terms : ∀ h ∈ l, h.ref = fresh → 0 < h.qtyRemaining → h.qtyRemaining = qty ∧ h.priceTicks = price
  gone : fresh ≠ orig → ∀ h ∈ l, h.ref = orig → ¬ 0 < h.qtyRemaining

/-- The order to replace rests under one name, in one place, and may take the new terms. -/
def ReplacesCleanly (cfg : SimConfig) (sim : ExecutionSimulator k) (orig fresh : Nat)
    (qty price : Int) : Prop :=
  (∃ i, Holds cfg sim orig i ∧ (sim.book.Replaceable i fresh qty price →
      LedgerClear sim.hidden orig fresh qty price))
    ∨ ((∀ i, ¬ Holds cfg sim orig i) ∧ 0 < qty ∧ (∃ h ∈ sim.hidden, h.ref = orig ∧ 0 < h.qtyRemaining)
      ∧ (∀ i, Holds cfg sim fresh i →
        sim.book.rem i = qty ∧ (sim.book.order i).priceTicks = price)
      ∧ LedgerClear (eraseHidden orig sim.hidden) orig fresh qty price)

theorem holds_congr (hb : sim'.book = sim.book) (ref i : Nat) :
    Holds cfg sim' ref i ↔ Holds cfg sim ref i :=
  ⟨fun h => ⟨hb ▸ h.own, hb ▸ h.ref_eq, hb ▸ h.handle⟩,
    fun h => ⟨hb.symm ▸ h.own, hb.symm ▸ h.ref_eq, hb.symm ▸ h.handle⟩⟩

theorem Holds.unique {ref i j : Nat} (h : Holds cfg sim ref i) (h' : Holds cfg sim ref j) :
    i = j := h.handle.symm.trans h'.handle

/-! ## The three outcomes -/

/-- A failed replace changes nothing, and a session answers it with a refusal. -/
theorem refused_of_failed {orig fresh : Nat} {qty price : Int}
    (hok : ¬ (sim.replaceStrategy orig fresh qty price).1.ok)
    (hsame : (sim.replaceStrategy orig fresh qty price).2 = sim) :
    Refused sim orig fresh qty price := by
  intro g wire arrivalTs hg ho hf hq hp
  unfold Ouch.OuchGateway.submitReplace
  dsimp only
  rw [hg, ho, hf, hq, hp, if_pos hok, hsame, ← hg]

/-- **An order in the book** is replaced by one that the book knows under `fresh` alone. -/
theorem reported_tracked {orig fresh i j : Nat} {qty price : Int} {b : OrderBook k}
    (h : SimInv cfg sim) (h' : SimInv cfg sim') (hh : Holds cfg sim orig i)
    (hc : sim.book.Replaceable i fresh qty price)
    (hr : Replaced cfg sim sim' i j fresh qty price b)
    (hfresh : cfg.externalRefLimit ≤ fresh) :
    ((∀ q p, RestsAs cfg sim' fresh q p ↔ q = qty ∧ p = price)
        ∧ (fresh ≠ orig → ¬ StrategyLive cfg sim' orig))
      ↔ LedgerClear sim.hidden orig fresh qty price := by
  have hlive : sim'.book.live j := (hr.rested.live j).mpr (Or.inl rfl)
  have href : (sim'.book.order j).orderRef = fresh := congrArg OrderView.orderRef hr.rested.self
  have hj : Holds cfg sim' fresh j := by
    have := holds_of_own h' (i := j) ⟨hlive, by rw [href]; exact hfresh⟩
    rwa [href] at this
  have hqty : sim'.book.rem j = qty := hr.rested.rem_self
  have hpx : (sim'.book.order j).priceTicks = price := hr.rested.price_self
  -- in the book, `orig` names nothing any more
  have hgone : fresh ≠ orig → ∀ x, ¬ Holds cfg sim' orig x := by
    intro hne x hx
    rcases (hr.rested.live x).mp hx.own.1 with rfl | hxb
    · exact hne (href.symm.trans hx.ref_eq)
    · obtain ⟨hxl, hno⟩ := (hr.gone.live x).mp hxb
      have hxj : x ≠ j := fun he => hr.rested.fresh (he ▸ hxb)
      have hx1 := (Order.view_eq (hr.rested.frame x hxj)).1
      have hx2 := (hr.gone.kept hxb).1
      have hxref : (sim.book.order x).orderRef = orig := by rw [← hx2, ← hx1, hx.ref_eq]
      have hxi := h.book.ref_inj hxl hh.own.1 (hxref.trans hh.ref_eq.symm)
      exact hno ⟨hxi, rfl⟩
  constructor
  · rintro ⟨hterms, hno⟩
    rw [← hr.hidden]
    exact ⟨fun e he href' hpos => (hterms _ _).mp (Or.inr ⟨e, he, href', hpos, rfl, rfl⟩),
      fun hne e he href' hpos => hno hne ⟨_, _, Or.inr ⟨e, he, href', hpos, rfl, rfl⟩⟩⟩
  · intro hcl
    refine ⟨fun q p => ⟨?_, ?_⟩, fun hne hlive' => ?_⟩
    · rintro (⟨x, hx, rfl, rfl⟩ | ⟨e, he, href', hpos, rfl, rfl⟩)
      · rw [hx.unique hj]
        exact ⟨hqty, hpx⟩
      · rw [hr.hidden] at he
        exact hcl.terms e he href' hpos
    · rintro ⟨rfl, rfl⟩
      exact Or.inl ⟨j, hj, hqty, hpx⟩
    · obtain ⟨q, p, ⟨x, hx, _⟩ | ⟨e, he, href', hpos, _⟩⟩ := hlive'
      · exact hgone hne x hx
      · rw [hr.hidden] at he
        exact hcl.gone hne e he href' hpos

/-- **An order in the ledger** takes the new name and terms, whatever they are. -/
theorem reported_hidden {orig fresh : Nat} {qty price : Int} {e : Hidden} (h : SimInv cfg sim)
    (hno : ∀ i, ¬ Holds cfg sim orig i)
    (hfind : sim.hidden.find? (fun h => h.ref = orig) = some e) (hb : sim'.book = sim.book)
    (hl : sim'.hidden = replaceHidden orig fresh qty price sim.hidden) :
    (StrategyLive cfg sim orig ∧ (∀ q p, RestsAs cfg sim' fresh q p ↔ q = qty ∧ p = price)
        ∧ (fresh ≠ orig → ¬ StrategyLive cfg sim' orig))
      ↔ 0 < qty ∧ (∃ h ∈ sim.hidden, h.ref = orig ∧ 0 < h.qtyRemaining)
        ∧ (∀ i, Holds cfg sim fresh i →
          sim.book.rem i = qty ∧ (sim.book.order i).priceTicks = price)
        ∧ LedgerClear (eraseHidden orig sim.hidden) orig fresh qty price := by
  obtain ⟨heref, l₁, l₂, hsplit, herase, hrep⟩ := split_of_find hfind
  -- afterwards: the entries that stay, and the one rewritten
  have hmem : ∀ x, x ∈ sim'.hidden ↔ x ∈ eraseHidden orig sim.hidden
      ∨ x = { e with ref := fresh, priceTicks := price, qtyRemaining := qty } := by
    intro x
    rw [hl, hrep, herase]
    simp only [List.mem_append, List.mem_cons]
    constructor
    · rintro (h | h | h)
      · exact Or.inl (Or.inl h)
      · exact Or.inr h
      · exact Or.inl (Or.inr h)
    · rintro ((h | h) | h)
      · exact Or.inl h
      · exact Or.inr (Or.inr h)
      · exact Or.inr (Or.inl h)
  have hlive : StrategyLive cfg sim orig ↔ ∃ h ∈ sim.hidden, h.ref = orig ∧ 0 < h.qtyRemaining := by
    constructor
    · rintro ⟨q, p, ⟨i, hi, _⟩ | ⟨x, hx, href, hpos, _⟩⟩
      · exact absurd hi (hno i)
      · exact ⟨x, hx, href, hpos⟩
    · rintro ⟨x, hx, href, hpos⟩
      exact ⟨_, _, Or.inr ⟨x, hx, href, hpos, rfl, rfl⟩⟩
  constructor
  · rintro ⟨hwas, hterms, hgone⟩
    refine ⟨?_, hlive.mp hwas, fun i hi => ?_, ⟨fun x hx href hpos => ?_, fun hne x hx href hpos => ?_⟩⟩
    · obtain ⟨i, hi, rfl, _⟩ | ⟨x, _, _, hpos, rfl, _⟩ := (hterms qty price).mpr ⟨rfl, rfl⟩
      · rw [hb]
        exact h.book.pos i ((holds_congr hb fresh i).mp hi).own.1
      · exact hpos
    · exact (hterms _ _).mp (Or.inl ⟨i, (holds_congr hb fresh i).mpr hi, by rw [hb], by rw [hb]⟩)
    · exact (hterms _ _).mp (Or.inr ⟨x, (hmem x).mpr (Or.inl hx), href, hpos, rfl, rfl⟩)
    · exact hgone hne ⟨_, _, Or.inr ⟨x, (hmem x).mpr (Or.inl hx), href, hpos, rfl, rfl⟩⟩
  · rintro ⟨hqty, hwas, hbook, hcl⟩
    refine ⟨hlive.mpr hwas, fun q p => ⟨?_, ?_⟩, fun hne hlive' => ?_⟩
    · rintro (⟨i, hi, rfl, rfl⟩ | ⟨x, hx, href, hpos, rfl, rfl⟩)
      · rw [hb]
        exact hbook i ((holds_congr hb fresh i).mp hi)
      · rcases (hmem x).mp hx with hx | rfl
        · exact hcl.terms x hx href hpos
        · exact ⟨rfl, rfl⟩
    · rintro ⟨rfl, rfl⟩
      exact Or.inr ⟨_, (hmem _).mpr (Or.inr rfl), rfl, hqty, rfl, rfl⟩
    · obtain ⟨q, p, ⟨i, hi, _⟩ | ⟨x, hx, href, hpos, _⟩⟩ := hlive'
      · exact hno i ((holds_congr hb orig i).mp hi)
      · rcases (hmem x).mp hx with hx | rfl
        · exact hcl.gone hne x hx href hpos
        · exact hne href

/--
**A replace is reported as what it did**, under one condition.

In a reachable state the tick of `replace_strategy` tells the truth exactly when the
order to replace rests under its name in one place: in the book, with no live entry of
the ledger in the way of a replace that the book takes, or in the ledger alone, with a
positive quantity before and after and no other order in the way. A name that nothing
rests under gets a tick that reads as a success.
-/
theorem replaceReported_iff (hc : OrderBook.ConfigOk k cfg.book) (h : Reachable cfg sim)
    (orig : Nat) {fresh : Nat} (qty price : Int) (hl : cfg.externalRefLimit ≤ fresh ∧ fresh ≠ 0) :
    ReplaceReported cfg sim orig fresh qty price
      ↔ ReplacesCleanly cfg sim orig fresh qty price := by
  have hinv := h.simInv hc
  have hinv' := replaceStrategy_inv hinv orig hl qty price
  have hcase := replaceStrategy_cases hinv orig hl.2 qty price
  -- a tick that reads as a success leaves the three promises of a success
  have hsplit : (sim.replaceStrategy orig fresh qty price).1.ok →
      (ReplaceReported cfg sim orig fresh qty price ↔ StrategyLive cfg sim orig
        ∧ (∀ q p, RestsAs cfg (sim.replaceStrategy orig fresh qty price).2 fresh q p
          ↔ q = qty ∧ p = price)
        ∧ (fresh ≠ orig → ¬ StrategyLive cfg (sim.replaceStrategy orig fresh qty price).2 orig)) :=
    fun hok => ⟨fun hr => ⟨hr.was hok, hr.terms hok, hr.gone hok⟩,
      fun hr => ⟨fun _ => hr.1, fun _ => hr.2.1, fun _ => hr.2.2, fun hn => absurd hok hn,
        fun hn => absurd hok hn⟩⟩
  have hunheld : (∀ i, sim.book.Own cfg.externalRefLimit i → (sim.book.order i).orderRef ≠ orig) →
      ∀ i, ¬ Holds cfg sim orig i := fun hno i hi => hno i hi.own hi.ref_eq
  generalize hr : sim.replaceStrategy orig fresh qty price = r at hcase
  cases hcase with
  | tracked i j b _ hh hrep hok hd =>
      rw [← hr] at hok hd
      have hlive : StrategyLive cfg sim orig := ⟨_, _, Or.inl ⟨i, hh, rfl, rfl⟩⟩
      have hclear := reported_tracked hinv hinv' hh hrep hd hl.1
      rw [hsplit hok]
      constructor
      · intro hrr
        exact Or.inl ⟨i, hh, fun _ => hclear.mp hrr.2⟩
      · rintro (⟨x, hx, hcl⟩ | ⟨hno, _⟩)
        · rw [hx.unique hh] at hcl
          exact ⟨hlive, hclear.mpr (hcl hrep)⟩
        · exact absurd hh (hno i)
  | refused i tick hh hno hok =>
      have hbad : ¬ (sim.replaceStrategy orig fresh qty price).1.ok := by rw [hr]; exact hok
      have hsame : (sim.replaceStrategy orig fresh qty price).2 = sim := by rw [hr]
      refine ⟨fun _ => Or.inl ⟨i, hh, fun hrep => absurd hrep hno⟩, fun _ => ?_⟩
      exact ⟨fun hn => absurd hn hbad, fun hn => absurd hn hbad, fun hn => absurd hn hbad,
        fun _ => hsame, fun _ => refused_of_failed hbad hsame⟩
  | hidden e hno hfind =>
      have hok : (sim.replaceStrategy orig fresh qty price).1.ok := by rw [hr]; exact TickKind.noConfusion
      have hbook : (sim.replaceStrategy orig fresh qty price).2.book = sim.book := by rw [hr]
      have hledger : (sim.replaceStrategy orig fresh qty price).2.hidden
          = replaceHidden orig fresh qty price sim.hidden := by rw [hr]
      rw [hsplit hok, reported_hidden hinv (hunheld hno) hfind hbook hledger]
      constructor
      · intro hrr
        exact Or.inr ⟨hunheld hno, hrr⟩
      · rintro (⟨x, hx, _⟩ | ⟨_, hrr⟩)
        · exact absurd hx (hunheld hno x)
        · exact hrr
  | unknown hno hnot =>
      -- the default tick reads as a success
      have hok : (sim.replaceStrategy orig fresh qty price).1.ok := by rw [hr]; exact TickKind.noConfusion
      rw [hsplit hok]
      constructor
      · rintro ⟨⟨q, p, ⟨x, hx, _⟩ | ⟨e, he, href, _⟩⟩, _⟩
        · exact absurd hx (hunheld hno x)
        · exact absurd href (hnot e he)
      · rintro (⟨x, hx, _⟩ | ⟨_, _, ⟨e, he, href, _⟩, _⟩)
        · exact absurd hx (hunheld hno x)
        · exact absurd href (hnot e he)

/-- The front one of two bids moves to another price. -/
theorem replaceReported_iff_bid :
    ReplaceReported deskConfig (run deskConfig twoBids : ExecutionSimulator 4) 100 102 6 4 := by
  have h : Reachable deskConfig (run deskConfig twoBids : ExecutionSimulator 4) :=
    reachable_run (by decide)
  have hempty : (run deskConfig twoBids : ExecutionSimulator 4).hidden = [] := by decide +kernel
  obtain ⟨i, hi⟩ : ∃ i, Holds deskConfig (run deskConfig twoBids : ExecutionSimulator 4) 100 i :=
    holds_of_tracked (h.simInv deskConfig_ok) (by decide +kernel)
  refine (replaceReported_iff deskConfig_ok h 100 6 4 (by decide)).mpr (Or.inl ⟨i, hi, fun _ => ?_⟩)
  rw [hempty]
  exact ⟨fun e he => absurd he List.not_mem_nil, fun _ e he => absurd he List.not_mem_nil⟩

/-- The request of a client to replace order 100, which never was, by 101. -/
def unknownReplace : Ouch.ReplaceOrderWire :=
  { existingOrderToken := Ouch.tokenFromId 100, replacementOrderToken := Ouch.tokenFromId 101
    shares := 5, price := 3 }

/-- A session over a simulator that has seen nothing. -/
def idleSession : Ouch.OuchGateway 4 :=
  { sim := run deskConfig [], defaultSymbol := .replicate 8 32 }

/-- It is accepted, answered with a frame, and nothing rests. -/
theorem unknown_replace_reported :
    Reachable deskConfig (run deskConfig [] : ExecutionSimulator 4)
      ∧ ((run deskConfig [] : ExecutionSimulator 4).replaceStrategy 100 101 5 3).1.ok
      ∧ (idleSession.submitReplace unknownReplace 0).1 = true
      ∧ (idleSession.submitReplace unknownReplace 0).2.drainOutboundStream.1
        = [.replaced 0 (Ouch.tokenFromId 101) (some .buy) 5 (.replicate 8 32) 3 101
            (Ouch.tokenFromId 100)]
      ∧ ¬ ReplaceReported deskConfig (run deskConfig [] : ExecutionSimulator 4) 100 101 5 3 := by
  have h : Reachable deskConfig (run deskConfig [] : ExecutionSimulator 4) :=
    reachable_run (by decide)
  refine ⟨h, by decide +kernel, by decide +kernel, by decide +kernel, fun hr => ?_⟩
  obtain ⟨q, p, ⟨i, hi, _⟩ | ⟨e, he, _⟩⟩ := hr.was (by decide +kernel)
  · have hidx := hi.trackedIndexOf (h.simInv deskConfig_ok)
    have hnull : (run deskConfig [] : ExecutionSimulator 4).trackedIndexOf 100 = kNullIndex := by
      decide +kernel
    exact hidx.2 (hidx.1.symm.trans hnull)
  · exact absurd he List.not_mem_nil

end ExecutionSimulator

end Mog
