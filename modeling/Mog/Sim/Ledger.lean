import Mog.Sim.Calls

/-!
# The non-displayed ledger

Taps of a ledger of positive entries give what they take and no more, and a sweep that
meets such a ledger fills between nothing and all of its order. The ledger is positive
along every run in which no replace rewrites an entry to a quantity that is not, and the
fill reports, cut to 32 bits, are positive when no resting order is wider than that.
-/

namespace Mog

open QueueSum TrackTable

/-- A positive quantity that fits its field is reported as positive. -/
theorem toU32_pos {q : Int} (h0 : 0 < q) (h1 : q < 2 ^ 32) : 0 < toU32 q := by
  unfold toU32
  omega

namespace OrderBook

variable {k : Nat} {b b' : OrderBook k}

/-- An order that is live after a reduction was live before, under its name, and has not grown. -/
theorem Reduced.back {i j : Nat} {qty : Int} (h : Reduced b b.levelSlots b' i qty) (hq : 0 ≤ qty)
    (hj : b'.live j) :
    b.live j ∧ (b'.order j).orderRef = (b.order j).orderRef ∧ b'.rem j ≤ b.rem j := by
  refine ⟨((h.live j).mp hj).1, (h.kept hj).1, ?_⟩
  by_cases hji : j = i
  · have hne : b.rem i ≠ qty := fun he => ((h.live j).mp hj).2 ⟨hji, he⟩
    rw [hji, h.rem_self hne]
    omega
  · exact Int.le_of_eq (h.rem_other hji)

/-- An order that is live once another has come to rest is that one, or was live before. -/
theorem Rested.back {i j : Nat} {v : OrderView} (h : Rested b b.levelSlots b' i v)
    (hj : b'.live j) : (j = i ∧ (b'.order j).orderRef = v.orderRef ∧ b'.rem j = v.qtyRemaining)
      ∨ (b.live j ∧ (b'.order j).orderRef = (b.order j).orderRef ∧ b'.rem j = b.rem j) := by
  by_cases hji : j = i
  · rw [hji]
    exact Or.inl ⟨rfl, congrArg OrderView.orderRef h.self, h.rem_self⟩
  · exact Or.inr ⟨((h.live j).mp hj).resolve_left hji, (Order.view_eq (h.frame j hji)).1,
      h.rem_other hji⟩

end OrderBook

namespace ExecutionSimulator

variable {k : Nat} {cfg : SimConfig} {sim sim' : ExecutionSimulator k} {order : SimInbound}

/-! ## Quantities that rest -/

/-- Taking a part of a quantity keeps `P`. -/
def KeptByTaking (P : Int → Prop) : Prop :=
  ∀ r q, 0 < r → P q → q - min r q ≠ 0 → P (q - min r q)

section entries

variable {P : Int → Prop}

theorem Trade.entries (hP : KeptByTaking P) (h : ∀ e ∈ sim.hidden, P e.qtyRemaining)
    (ht : Trade cfg sim sim') : ∀ e ∈ sim'.hidden, P e.qtyRemaining := by
  cases ht with
  | idle hi => rw [hi.hidden]; exact h
  | repeg hr =>
      subst hr
      intro x hx
      obtain ⟨a, ha, rfl⟩ := List.mem_map.mp hx
      have := h a ha
      -- a new price, or none
      dsimp only
      split
      · split
        · exact this
        · exact this
      · exact this
  | fill i take hf => rw [hf.hidden]; exact h
  | slice ib rest i hr => rw [hr.hidden]; exact h
  | withdraw i hown ht => rw [ht.hidden]; exact h
  | tap t e kept l he =>
      intro x hx
      have hmem : e ∈ sim.hidden := by rw [he.before]; simp
      rcases he.mem hx with hx | ⟨hne, rfl⟩
      · exact h x hx
      · exact hP t.remaining e.qtyRemaining he.remaining (h e hmem) hne

/-- **What taking keeps of the ledger's quantities**, elementary changes keep. -/
theorem Trades.entries (hP : KeptByTaking P) (h : ∀ e ∈ sim.hidden, P e.qtyRemaining)
    (ht : Trades cfg sim sim') : ∀ e ∈ sim'.hidden, P e.qtyRemaining := by
  induction ht with
  | refl => exact h
  | tail _ hb ih => exact hb.1.entries hP ih

end entries

/-- No displayed order of the strategy is wider than a report's field. -/
def ShownNarrow (cfg : SimConfig) (sim : ExecutionSimulator k) : Prop :=
  ∀ i, sim.book.Own cfg.externalRefLimit i → sim.book.rem i < 2 ^ 32

theorem ShownNarrow.reduced (h : ShownNarrow cfg sim) {i : Nat} {qty : Int}
    (hr : OrderBook.Reduced sim.book sim.book.levelSlots sim'.book i qty) (hq : 0 ≤ qty) :
    ShownNarrow cfg sim' := by
  intro j hj
  obtain ⟨hl, href, hrem⟩ := hr.back hq hj.1
  have := h j ⟨hl, href ▸ hj.2⟩
  omega

theorem ShownNarrow.rested (h : ShownNarrow cfg sim) {i : Nat} {v : OrderView}
    (hr : OrderBook.Rested sim.book sim.book.levelSlots sim'.book i v)
    (hv : cfg.externalRefLimit ≤ v.orderRef → v.qtyRemaining < 2 ^ 32) : ShownNarrow cfg sim' := by
  intro j hj
  rcases hr.back hj.1 with ⟨_, href, hrem⟩ | ⟨hl, href, hrem⟩
  · rw [hrem]
    exact hv (href ▸ hj.2)
  · rw [hrem]
    exact h j ⟨hl, href ▸ hj.2⟩

theorem Trade.shownNarrow (h : ShownNarrow cfg sim) (hinv : SimInv cfg sim)
    (ht : Trade cfg sim sim') : ShownNarrow cfg sim' := by
  cases ht with
  | idle hi => rw [ShownNarrow, hi.book]; exact h
  | repeg hr => rw [hr]; exact h
  | fill i take hf => exact h.reduced hf.book (Int.le_of_lt hf.pos)
  | slice ib rest i hr =>
      -- slices are external
      have hext := (hinv.icebergs ib (hr.entry.mem_iff.mpr (by simp))).external
      exact h.rested hr.book (fun hown => by dsimp only at hown; omega)
  | withdraw i hown ht => exact h.reduced ht.book (Int.le_of_lt (hinv.book.pos i hown.1))
  | tap t e kept l he => rw [he.after]; exact h

theorem Trades.shownNarrow (h : ShownNarrow cfg sim) (hinv : SimInv cfg sim)
    (ht : Trades cfg sim sim') : ShownNarrow cfg sim' := by
  induction ht with
  | refl => exact h
  | tail hab hb ih => exact hb.1.shownNarrow ih (Trades.inv hinv hab)

/-- A remainder that the next decision may place. -/
def NextRemainder (cfg : SimConfig) (sim : ExecutionSimulator k) (remaining : Int) : Prop :=
  ∃ o, ({ sim with wheel := sim.wheel.popMin.2 } : ExecutionSimulator k).resolved
      sim.wheel.popMin.1.order = some o
    ∧ LeftOver cfg (({ sim with wheel := sim.wheel.popMin.2 } : ExecutionSimulator k).opened cfg
      sim.wheel.popMin.1.visibleTs) o remaining
    ∧ restsAfter o.type ∧ 0 < remaining

/-- **What taking keeps of the ledger's quantities, a call keeps**, if what it adds has it. -/
theorem call_entries {P : Int → Prop} {c : SimCall} (hP : KeptByTaking P)
    (h : ∀ e ∈ sim.hidden, P e.qtyRemaining) (hinv : SimInv cfg sim)
    (hl : c.Legal cfg.externalRefLimit)
    (hplaced : c = .decideNext → ¬ sim.wheel.empty →
      ∀ remaining, NextRemainder cfg sim remaining → P remaining)
    (hrewrite : ∀ orig fresh qty price, c = .replaceStrategy orig fresh qty price →
      (∀ i, ¬ Holds cfg sim orig i) → (∃ h ∈ sim.hidden, h.ref = orig) → P qty) :
    ∀ e ∈ (sim.call cfg c).hidden, P e.qtyRemaining := by
  have hc := call_cases hinv hl
  generalize sim.call cfg c = r at hc
  cases hc with
  | still | seed | iceberg | submit | halt | stpMode => exact h
  | flow _ _ _ ht => exact Trades.entries hP h (Exchanges.trades ht hinv)
  | decide sim' hne hd =>
      obtain ⟨mid, ht, _, hcase⟩ := hd.market (popped_inv hinv hne)
      have hpop : ∀ e ∈ ({ sim with wheel := sim.wheel.popMin.2 } : ExecutionSimulator k).hidden,
          P e.qtyRemaining := h
      have hmid := Trades.entries hP hpop (Exchanges.trades ht (popped_inv hinv hne))
      rcases hcase with hs | ⟨o, remaining, hr, _, _, hleft, hp⟩
      · rw [hs.hidden]
        exact hmid
      · cases hp with
        | nowhere hs => rw [hs.hidden]; exact hmid
        | displayed _ _ _ _ hs => rw [hs.hidden]; exact hmid
        | ledger hrests hs =>
            intro x hx
            rw [hs.hidden] at hx
            rcases List.mem_append.mp hx with hx | hx
            · exact hmid x hx
            · rw [List.mem_singleton.mp hx]
              exact hplaced rfl hne remaining ⟨o, hr, hleft, hrests⟩
  | cancelled ref i mid t hh hw =>
      show ∀ e ∈ mid.hidden, P e.qtyRemaining
      rw [hw.hidden]
      exact h
  | cancelledHidden ref => exact fun x hx => h x (mem_eraseHidden hx)
  | replaced _ _ _ _ _ _ _ _ _ _ hd => rw [hd.hidden]; exact h
  | replacedHidden orig fresh qty price e hno hfind =>
      have hmem := List.mem_of_find?_eq_some hfind
      have href : e.ref = orig := by simpa using List.find?_some hfind
      have hqty := hrewrite orig fresh qty price rfl (fun i hi => hno i hi.own hi.ref_eq)
        ⟨e, hmem, href⟩
      intro x hx
      rcases mem_replaceHidden hx with hx | ⟨a, _, _, rfl⟩
      · exact h x hx
      · exact hqty

/-- The strategy shows narrow orders as long as it is given narrow ones. -/
theorem call_shownNarrow {c : SimCall} (h : ShownNarrow cfg sim) (hinv : SimInv cfg sim)
    (hl : c.Legal cfg.externalRefLimit)
    (hplaced : c = .decideNext → ¬ sim.wheel.empty →
      ∀ remaining, NextRemainder cfg sim remaining → remaining < 2 ^ 32)
    (hreplaced : ∀ orig fresh qty price, c = .replaceStrategy orig fresh qty price →
      ∀ i, Holds cfg sim orig i → sim.book.Replaceable i fresh qty price → qty < 2 ^ 32) :
    ShownNarrow cfg (sim.call cfg c) := by
  have hc := call_cases hinv hl
  generalize sim.call cfg c = r at hc
  cases hc with
  | still | submit | cancelledHidden | replacedHidden | halt | stpMode => exact h
  | flow _ _ _ ht => exact Trades.shownNarrow h hinv (Exchanges.trades ht hinv)
  | seed ref s qty price i b _ hrest =>
      have hext : ref < cfg.externalRefLimit := hl
      have hnext : ShownNarrow cfg { sim with book := b } :=
        h.rested hrest (fun hown => by dsimp only at hown; omega)
      exact hnext
  | iceberg spec i b _ _ hrest =>
      have hext : spec.ref < cfg.externalRefLimit := hl.1
      have hnext : ShownNarrow cfg { sim with book := b } :=
        h.rested hrest (fun hown => by dsimp only at hown; omega)
      exact hnext
  | decide sim' hne hd =>
      obtain ⟨mid, ht, _, hcase⟩ := hd.market (popped_inv hinv hne)
      have hpop : ShownNarrow cfg { sim with wheel := sim.wheel.popMin.2 } := h
      have hmid := Trades.shownNarrow hpop (popped_inv hinv hne)
        (Exchanges.trades ht (popped_inv hinv hne))
      rcases hcase with hs | ⟨o, remaining, hr, _, _, hleft, hp⟩
      · rw [ShownNarrow, hs.book]
        exact hmid
      · cases hp with
        | nowhere hs => rw [ShownNarrow, hs.book]; exact hmid
        | ledger _ hs => rw [ShownNarrow, hs.book]; exact hmid
        | displayed i hrests _ hrest _ =>
            exact hmid.rested hrest (fun _ => hplaced rfl hne remaining ⟨o, hr, hleft, hrests⟩)
  | cancelled ref i mid t hh hw =>
      have hgone : ShownNarrow cfg mid :=
        h.reduced hw.book (Int.le_of_lt (hinv.book.pos i hh.own.1))
      exact hgone
  | replaced orig fresh qty price i j b _ hh hrep hd =>
      have hgone : ShownNarrow cfg { sim with book := b } :=
        h.reduced hd.gone (Int.le_of_lt (hinv.book.pos i hh.own.1))
      exact hgone.rested hd.rested (fun _ => hreplaced orig fresh qty price rfl i hh hrep)

/-! ## What is promised of the ledger -/

/-- The ledger is positive, and what draws on it neither adds nor loses quantity. -/
structure LedgerSound (cfg : SimConfig) (sim : ExecutionSimulator k) : Prop where
  positive : ∀ h ∈ sim.hidden, 0 < h.qtyRemaining
  /-- A tap, here or at any moment of the next event. -/
  tap : ∀ mid, Trades cfg sim mid → ∀ s price remaining notional, 0 ≤ remaining →
    (mid.tapHidden cfg s price remaining notional).2.remaining ≤ remaining
      ∧ 0 ≤ (mid.tapHidden cfg s price remaining notional).2.filled
      ∧ (mid.tapHidden cfg s price remaining notional).2.filled ≤ remaining
  reports : ∀ r ∈ sim.log.reports, 0 < r.qty
  /-- A sweep, from the state a decision is taken in. -/
  cross : ∀ ts o q, 0 < q →
    ((sim.opened cfg ts).crossLoop cfg o q).2 ≠ .outOfFuel
      ∧ 0 ≤ ((sim.opened cfg ts).cross cfg o q).filled
      ∧ ((sim.opened cfg ts).cross cfg o q).filled ≤ q

/-- An order whose remainder may rest is no wider than a report's field. -/
def SimInbound.Narrow (o : SimInbound) : Prop := restsAfter o.type → o.qty < 2 ^ 32

/-- No order that can rest is wider than a report's field, and no replace rewrites an entry of
the ledger to a quantity that is not positive. -/
def LedgerSafe (cfg : SimConfig) (sim : ExecutionSimulator k) : SimCall → Prop
  | .submit order _ => SimInbound.Narrow order
  | .replaceStrategy orig fresh qty price =>
      (∀ i, Holds cfg sim orig i → sim.book.Replaceable i fresh qty price → qty < 2 ^ 32)
        ∧ ((∀ i, ¬ Holds cfg sim orig i) → (∃ h ∈ sim.hidden, h.ref = orig) →
          0 < qty ∧ qty < 2 ^ 32)
  | _ => True

/-! ## The invariant -/

/-- What elementary changes keep. -/
structure LedgerInv (cfg : SimConfig) (sim : ExecutionSimulator k) : Prop where
  entry : ∀ h ∈ sim.hidden, 0 < h.qtyRemaining ∧ h.qtyRemaining < 2 ^ 32
  shown : ∀ i, sim.book.Own cfg.externalRefLimit i → sim.book.rem i < 2 ^ 32
  reports : ∀ r ∈ sim.log.reports, 0 < r.qty

theorem LedgerInv.congr (h : LedgerInv cfg sim) (hb : sim'.book = sim.book)
    (hl : sim'.hidden = sim.hidden) (hr : sim'.log.reports = sim.log.reports) :
    LedgerInv cfg sim' where
  entry := by rw [hl]; exact h.entry
  shown := by rw [hb]; exact h.shown
  reports := by rw [hr]; exact h.reports

/-- One more report keeps the reports positive if it is itself. -/
theorem reports_settle {l : FillLog} (h : ∀ r ∈ l.reports, 0 < r.qty) {vis ref : Nat}
    {price qty : Int} {side : Side} (h0 : 0 < qty) (h1 : qty < 2 ^ 32) :
    ∀ r ∈ (l.settle cfg vis ref price qty side).reports, 0 < r.qty := by
  intro r hr
  rcases List.mem_append.mp hr with hr | hr
  · exact h r hr
  · rw [List.mem_singleton.mp hr]
    exact toU32_pos h0 h1

/-- A positive quantity that fits a report's field, in part or whole. -/
theorem keptByTaking_positive : KeptByTaking (fun q => 0 < q ∧ q < 2 ^ 32) := by
  rintro r q hr ⟨h0, h1⟩ hne
  omega

theorem trade_ledgerInv (h : LedgerInv cfg sim) (hinv : SimInv cfg sim)
    (ht : Trade cfg sim sim') : LedgerInv cfg sim' := by
  refine { entry := ht.entries keptByTaking_positive h.entry, shown := ht.shownNarrow h.shown hinv,
           reports := ?_ }
  cases ht with
  | idle hi => rw [hi.log.reports]; exact h.reports
  | repeg hr => rw [hr]; exact h.reports
  | fill i take hf =>
      have hle := hf.le
      rw [hf.log]
      rcases FillLog.displayedFill_cases sim.log cfg (sim.executionOf i take) with
        ⟨_, heq⟩ | ⟨hown, vis, heq⟩
      · rw [heq]
        exact h.reports
      · rw [heq]
        have hlt := h.shown i ⟨hf.live, hown⟩
        exact reports_settle (l := ((sim.log.execute (sim.executionOf i take)).drawJitter cfg).2)
          h.reports hf.pos (show take < 2 ^ 32 by omega)
  | slice ib rest i hr => rw [hr.log]; exact h.reports
  | withdraw i hown ht => rw [ht.log]; exact h.reports
  | tap t e kept l he =>
      have hmem : e ∈ sim.hidden := by rw [he.before]; simp
      obtain ⟨h0, h1⟩ := h.entry e hmem
      have hrem := he.remaining
      -- what is taken is positive and no more than the entry has
      have hamt : 0 < t.amount e ∧ t.amount e ≤ e.qtyRemaining := by
        unfold Tap.amount
        omega
      rw [he.after]
      refine reports_settle (l := t.log.execute (t.execution e)) ?_ hamt.1 (by omega)
      show ∀ r ∈ t.log.reports, 0 < r.qty
      rw [he.log]
      exact h.reports

theorem trades_ledgerInv (h : LedgerInv cfg sim) (hinv : SimInv cfg sim)
    (ht : Trades cfg sim sim') : LedgerInv cfg sim' := by
  induction ht with
  | refl => exact h
  | tail hab hb ih => exact trade_ledgerInv ih (Trades.inv hinv hab) hb.1

/-- **A sweep over a positive ledger** fills and leaves what it was given, nothing below zero. -/
theorem moves_filled {w w' : Sweep k} (h : LedgerInv cfg w.sim) (hinv : SimInv cfg w.sim)
    (hrem : 0 ≤ w.remaining) (hm : Sweep.Moves cfg order w w') :
    LedgerInv cfg w'.sim ∧ SimInv cfg w'.sim ∧ w.filled ≤ w'.filled ∧ 0 ≤ w'.remaining
      ∧ w'.filled + w'.remaining = w.filled + w.remaining := by
  induction hm with
  | refl => exact ⟨h, hinv, Int.le_refl _, hrem, rfl⟩
  | @tail a b _ hb ih =>
      obtain ⟨hl, hi, h1, h2, h3⟩ := ih
      obtain ⟨hmove, hnext⟩ := hb
      refine ⟨trades_ledgerInv hl hi (hmove.exchange.trades hi hnext), hnext, ?_⟩
      cases hmove with
      | fill i l take mid ht hstp hf htake hs hc =>
          have := hf.pos
          have := hc.filled
          have := hc.remaining
          exact ⟨by omega, by omega, by omega⟩
      | tap t e kept l hside hbound he hrem' hc =>
          have hmem : e ∈ a.sim.hidden := by rw [he.before]; simp
          have hpos := (hl.entry e hmem).1
          have htr := he.remaining
          have hamt : 0 < t.amount e ∧ t.amount e ≤ a.remaining := by
            unfold Tap.amount
            omega
          have := hc.filled
          have := hc.remaining
          exact ⟨by omega, by omega, by omega⟩
      | remove i l ht hown hstp hr =>
          have := hr.filled
          have := hr.remaining
          exact ⟨by omega, by omega, by omega⟩

/-- The loop of a sweep ends on a condition of its own. -/
theorem crossLoop_ended (h : SimInv cfg sim) (o : SimInbound) (q : Int) :
    Sweep.Ended cfg o (sim.crossLoop cfg o q).1 (sim.crossLoop cfg o q).2 :=
  (Sweep.loop_rule (I := fun _ => True) (fun _ _ _ _ _ _ => trivial) (sim.crossStart q).fuel
    (sim.crossStart q) h.clearSync trivial (by rw [Sweep.fuel_eq]; exact Nat.lt_succ_self _)).2.2

/-- What the invariant promises of the state it holds in. -/
theorem LedgerInv.sound (h : LedgerInv cfg sim) (hinv : SimInv cfg sim) : LedgerSound cfg sim where
  positive e he := (h.entry e he).1
  reports := h.reports
  tap mid ht s price remaining notional hrem := by
    have hmid := trades_ledgerInv h hinv ht
    have hind := tapLoop_induction cfg s price
      (I := fun l t => (∀ e ∈ l, 0 < e.qtyRemaining) ∧ 0 ≤ t.remaining ∧ 0 ≤ t.filled
        ∧ t.filled + t.remaining = remaining) ?_ mid.hidden []
      { log := mid.log, remaining, notional }
      ⟨fun e he => (hmid.entry e he).1, hrem, Int.le_refl _, by simp⟩
    · obtain ⟨_, h1, h2, h3⟩ := hind
      have hr : (mid.tapHidden cfg s price remaining notional).2
          = (tapLoop cfg s price mid.hidden { log := mid.log, remaining, notional }).2 := rfl
      rw [hr]
      exact ⟨by omega, by omega, by omega⟩
    · rintro kept e l t ⟨hall, h1, h2, h3⟩ hpos _ _
      have he := hall e (by simp)
      have hamt : 0 ≤ t.amount e ∧ t.amount e ≤ t.remaining ∧ t.amount e ≤ e.qtyRemaining := by
        unfold Tap.amount
        omega
      refine ⟨fun x hx => ?_, ?_, ?_, ?_⟩
      · rcases List.mem_append.mp hx with hx | hx
        · exact hall x (by simp [hx])
        rcases List.mem_append.mp hx with hx | hx
        · obtain ⟨hne, rfl⟩ := mem_stays hx
          dsimp only
          omega
        · exact hall x (by simp [hx])
      · show 0 ≤ t.remaining - t.amount e
        omega
      · show 0 ≤ t.filled + t.amount e
        omega
      · show t.filled + t.amount e + (t.remaining - t.amount e) = remaining
        omega
  cross ts o q hq := by
    have hopen := Exchanges.inv hinv (opened_exchanges hinv ts)
    have hledger := trades_ledgerInv h hinv (Exchanges.trades (opened_exchanges hinv ts) hinv)
    refine ⟨fun hend => ?_, ?_⟩
    · have hended := crossLoop_ended hopen o q
      rw [hend] at hended
      cases hended
    · obtain ⟨w, _, hm, hcase⟩ := cross_moves hopen o q
      have hstart : LedgerInv cfg ((sim.opened cfg ts).crossStart q).sim :=
        hledger.congr rfl rfl rfl
      obtain ⟨_, _, h1, h2, h3⟩ := moves_filled hstart hopen.clearSync (Int.le_of_lt hq) hm
      have h4 : ((sim.opened cfg ts).crossStart q).filled = 0 := rfl
      have h5 : ((sim.opened cfg ts).crossStart q).remaining = q := rfl
      rw [h4] at h1 h3
      rw [h5] at h3
      generalize (sim.opened cfg ts).cross cfg o q = c at *
      cases hcase with
      | stopped => exact ⟨h1, by dsimp only; omega⟩
      | done => exact ⟨h1, by dsimp only; omega⟩

/-! ## Whole runs -/

/-- What a decision may place is positive and narrow, as its order is. -/
theorem LedgerInv.nextRemainder (h : LedgerInv cfg sim) (hinv : SimInv cfg sim)
    (hw : sim.wheel.Holds (fun e => SimInbound.Narrow e.order)) (hne : ¬ sim.wheel.empty)
    {remaining : Int} (hr : NextRemainder cfg sim remaining) : 0 < remaining ∧ remaining < 2 ^ 32 := by
  obtain ⟨o, hres, hleft, hrests, hpos⟩ := hr
  obtain ⟨_, _, hqty, htype⟩ := resolved_fields hres
  obtain ⟨hnarrow, _⟩ := Scheduler.popMin_holds hw hne
  have hpop := popped_inv hinv hne
  have hopen := opened_exchanges hpop sim.wheel.popMin.1.visibleTs
  have hstart : LedgerInv cfg { sim with wheel := sim.wheel.popMin.2 } := h.congr rfl rfl rfl
  have hledger := trades_ledgerInv hstart hpop (Exchanges.trades hopen hpop)
  have hlt : o.qty < 2 ^ 32 := by
    rw [hqty]
    exact hnarrow (htype ▸ hrests)
  refine ⟨hpos, ?_⟩
  -- a sweep leaves no more than the order came with
  rcases hleft with rfl | ⟨hq, w, hm, rfl⟩
  · exact hlt
  · obtain ⟨_, _, h1, _⟩ := moves_filled (hledger.congr rfl rfl rfl)
      (Exchanges.inv hpop hopen).clearSync (Int.le_of_lt hq) hm
    have h4 : ((({ sim with wheel := sim.wheel.popMin.2 } : ExecutionSimulator k).opened cfg
      sim.wheel.popMin.1.visibleTs).crossStart o.qty).filled = 0 := rfl
    omega

theorem call_ledgerInv {c : SimCall} (h : LedgerInv cfg sim) (hinv : SimInv cfg sim)
    (hw : sim.wheel.Holds (fun e => SimInbound.Narrow e.order))
    (hl : c.Legal cfg.externalRefLimit) (hsafe : LedgerSafe cfg sim c) :
    LedgerInv cfg (sim.call cfg c) := by
  have hnext : c = .decideNext → ¬ sim.wheel.empty → ∀ remaining, NextRemainder cfg sim remaining →
      0 < remaining ∧ remaining < 2 ^ 32 := fun _ hne _ hr => h.nextRemainder hinv hw hne hr
  have hentry := call_entries (P := fun q => 0 < q ∧ q < 2 ^ 32) keptByTaking_positive h.entry hinv
    hl hnext (fun orig fresh qty price hc => by subst hc; exact hsafe.2)
  have hshown := call_shownNarrow h.shown hinv hl (fun hc hne r hr => (hnext hc hne r hr).2)
    (fun orig fresh qty price hc => by subst hc; exact hsafe.1)
  refine { entry := hentry, shown := hshown, reports := ?_ }
  have hc := call_cases hinv hl
  generalize sim.call cfg c = r at hc
  cases hc with
  | still | seed | iceberg | submit | cancelledHidden | replacedHidden | halt | stpMode =>
      exact h.reports
  | flow _ _ _ ht => exact (trades_ledgerInv h hinv (Exchanges.trades ht hinv)).reports
  | decide sim' hne hd =>
      obtain ⟨mid, ht, _, hcase⟩ := hd.market (popped_inv hinv hne)
      have hpop : LedgerInv cfg { sim with wheel := sim.wheel.popMin.2 } := h.congr rfl rfl rfl
      have hmid := (trades_ledgerInv hpop (popped_inv hinv hne)
        (Exchanges.trades ht (popped_inv hinv hne))).reports
      rcases hcase with hs | ⟨o, remaining, _, _, _, _, hp⟩
      · rw [hs.reports]
        exact hmid
      · cases hp with
        | nowhere hs => rw [hs.reports]; exact hmid
        | displayed _ _ _ _ hs => rw [hs.reports]; exact hmid
        | ledger _ hs => rw [hs.reports]; exact hmid
  | cancelled ref i mid t hh hw' =>
      show ∀ r ∈ mid.log.reports, 0 < r.qty
      rw [hw'.log]
      exact h.reports
  | replaced _ _ _ _ _ _ _ _ _ _ hd => rw [hd.log]; exact h.reports

/--
**A positive ledger stays positive, and nothing is created from it.**

In a run in which every order that can rest, and every replace, is narrower than a
report's field, and no replace rewrites an entry of the ledger to a quantity that is not
positive, every state reached has a positive ledger: taps give between nothing and what
they are asked for, every report is of a positive quantity, and every sweep ends having
filled between nothing and its order.
-/
theorem ledgerSound_run (hc : OrderBook.ConfigOk k cfg.book)
    (h : Reaches cfg (LedgerSafe cfg) sim) : LedgerSound cfg sim := by
  have hrun : LedgerInv cfg sim ∧ sim.wheel.Holds (fun e => SimInbound.Narrow e.order) := by
    induction h with
    | init =>
        refine ⟨⟨fun e he => absurd he List.not_mem_nil, fun i hi => ?_,
          fun r hr => absurd hr List.not_mem_nil⟩, fun j hj => absurd hj (Nat.not_lt_zero j)⟩
        have hmem := ((OrderBook.init_inv (k := k) hc).mem _ _ i).mpr ⟨hi.1, rfl, rfl⟩
        exact absurd hmem List.not_mem_nil
    | step hr c hl hok ih =>
        have hinv := hr.simInv hc
        refine ⟨call_ledgerInv ih.1 hinv ih.2 hl hok, call_wheel hinv ih.2 hl ?_⟩
        rintro order ts rfl
        exact hok
  exact hrun.1.sound (h.simInv hc)

/-- A hidden bid. -/
def hiddenBid : SimInbound := { ref := 100, qty := 5, price := 3, nonDisplayed := true }

/-- It is tapped for two by an order and for one by external flow, replaced by four, and tapped once
more. -/
def tappedBid : List SimCall :=
  [.submit hiddenBid 0, .decideNext,
    .submit { ref := 101, side := .sell, qty := 2, price := 3, type := .market } 1, .decideNext,
    .applyExternal .buy 3 1, .replaceStrategy 100 102 4 3, .applyExternal .buy 3 3]

/-- One unit is left in the ledger, and three fills have been reported. -/
theorem ledgerSound_run_rested :
    LedgerSound deskConfig (run deskConfig tappedBid : ExecutionSimulator 4)
      ∧ (run deskConfig tappedBid : ExecutionSimulator 4).hidden.map Hidden.qtyRemaining = [1]
      ∧ (run deskConfig tappedBid : ExecutionSimulator 4).log.reports.map SimFillReport.qty
        = [2, 1, 3] :=
  ⟨ledgerSound_run deskConfig_ok (reaches_run (by decide) ⟨fun _ => by decide, trivial,
    fun _ => by decide, trivial, trivial, ⟨fun _ _ _ => by decide, fun _ _ => by decide⟩, trivial,
    trivial⟩), by decide +kernel, by decide +kernel⟩

/-- It is replaced by one of minus five units; a sweep for four then fills minus five. -/
theorem negative_replace_fills :
    Reachable deskConfig (run deskConfig [.submit hiddenBid 0, .decideNext,
        .replaceStrategy 100 101 (-5) 3] : ExecutionSimulator 4)
      ∧ ¬ LedgerSound deskConfig (run deskConfig [.submit hiddenBid 0, .decideNext,
        .replaceStrategy 100 101 (-5) 3] : ExecutionSimulator 4)
      ∧ ((run deskConfig [.submit hiddenBid 0, .decideNext, .replaceStrategy 100 101 (-5) 3] :
          ExecutionSimulator 4).cross deskConfig
          { ref := 102, side := .sell, qty := 4, price := 3, type := .market } 4).filled = -5 := by
  refine ⟨reachable_run (by decide), fun hs => ?_, by decide +kernel⟩
  have hmem : (run deskConfig [.submit hiddenBid 0, .decideNext, .replaceStrategy 100 101 (-5) 3] :
      ExecutionSimulator 4).hidden.map Hidden.qtyRemaining = [-5] := by decide +kernel
  obtain ⟨e, he, hq⟩ := List.mem_map.mp (hmem ▸ List.mem_singleton.mpr rfl)
  have := hs.positive e he
  rw [hq] at this
  exact absurd this (by decide)

end ExecutionSimulator

end Mog
