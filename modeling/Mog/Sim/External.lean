import Mog.Sim.Conserve

/-!
# External prints

An external print is split once, into what is displayed at its level and what is left over
for the ledger. Icebergs of the level show their next slices while the first part is
executed, behind it: the level grows, the split does not, and so a print takes what is
displayed and what the ledger holds, and the reserves only where nobody asks for them.

Everything a print takes is counted in three places: the displayed level, the reserves of its
icebergs and the ledger's entries at the price. The loop of the level is followed with a sum
over the level and its reserves, the ledger's tap with a sum over entries; other levels are
shown to be untouched by both.
-/

namespace Mog

open QueueSum TrackTable

theorem ledgerAt_nonneg {l : List Hidden} (h : LedgerCounted l) (s : Side) (p : Int) :
    0 ≤ ledgerAt l s p := by
  refine List.sum_nonneg (fun x hx => ?_)
  obtain ⟨e, he, rfl⟩ := List.mem_map.mp hx
  split
  · exact h e he
  · exact Int.le_refl 0

theorem ledgerAt_eq_zero {l : List Hidden} {s : Side} {p : Int}
    (h : ∀ e ∈ l, ¬ (e.side = s ∧ e.priceTicks = p)) : ledgerAt l s p = 0 := by
  refine List.sum_eq_zero (fun x hx => ?_)
  obtain ⟨e, he, rfl⟩ := List.mem_map.mp hx
  exact if_neg (h e he)

namespace ExecutionSimulator

variable {k : Nat} {cfg : SimConfig} {sim sim' sim'' : ExecutionSimulator k} {s : Side} {p : Int}

/-! ## Printing on one level -/

/-- `es` have been executed, all on one level, and what is left of every order has changed by
its own executions. -/
structure Printed (sim sim' : ExecutionSimulator k) (s : Side) (p : Int) (es : List Execution) :
    Prop where
  executions : sim'.log.executions = sim.log.executions ++ es
  level : ∀ e ∈ es, e.side = s ∧ e.price = p
  /-- Displayed orders, with the reserves behind them. -/
  book : ∀ ref, ref ≠ 0 → sim'.book.remainingOf ref + reserveOf sim'.icebergs ref + shownOf es ref
    = sim.book.remainingOf ref + reserveOf sim.icebergs ref
  /-- Entries of the ledger. -/
  ledger : ∀ ref, ledgerQty sim'.hidden ref + tappedOf es ref = ledgerQty sim.hidden ref

/-- Nothing is printed where book, registry, ledger quantities and executions stay. -/
theorem Printed.still (hb : sim'.book = sim.book) (hi : sim'.icebergs = sim.icebergs)
    (hh : ∀ ref, ledgerQty sim'.hidden ref = ledgerQty sim.hidden ref)
    (hx : sim'.log.executions = sim.log.executions) : Printed sim sim' s p [] where
  executions := by rw [hx, List.append_nil]
  level := fun _ he => absurd he List.not_mem_nil
  book := by
    intro ref _
    rw [hb, hi]
    exact Int.add_zero _
  ledger := fun ref => (Int.add_zero _).trans (hh ref)

theorem Printed.trans {es es' : List Execution} (h : Printed sim sim' s p es)
    (h' : Printed sim' sim'' s p es') : Printed sim sim'' s p (es ++ es') where
  executions := by rw [h'.executions, h.executions, List.append_assoc]
  level := fun e he => (List.mem_append.mp he).elim (h.level e) (h'.level e)
  book := by
    intro ref hne
    have h1 := h.book ref hne
    have h2 := h'.book ref hne
    rw [shownOf_append]
    omega
  ledger := by
    intro ref
    have h1 := h.ledger ref
    have h2 := h'.ledger ref
    rw [tappedOf_append]
    omega

/-- What is lost on one level without a withdrawal is printed there. -/
theorem Lost.printed {es : List Execution} (h : Lost sim sim' es [])
    (hl : ∀ e ∈ es, e.side = s ∧ e.price = p) : Printed sim sim' s p es where
  executions := h.executions
  level := hl
  book ref hne := (Int.add_zero _).symm.trans (h.orders ref hne)
  ledger := h.entries

/-- One execution of external flow, with the slice that follows it. -/
theorem Consumed.printed {mid : ExecutionSimulator k} {i : Nat} {l : List Nat} {take : Int}
    (hc : Consumed cfg sim mid sim' i take) (h : SimInv cfg sim) (hf : sim.book.Front s p i l)
    (hpos : 0 < take) (hle : take ≤ sim.book.rem i) :
    Printed sim sim' s p [sim.executionOf i take] := by
  have hfill := hc.filled hf hpos hle
  have hshown : Shown mid sim' (sim.book.order i).orderRef := hc.shown
  refine ((hfill.lost h).trans (hshown.lost (hfill.inv h))).printed fun e he => ?_
  rw [List.mem_singleton.mp he]
  exact ⟨hf.side, hf.price⟩

/-- **The displayed part of a print**: all of it is executed. -/
theorem consumeLevel_printed (h : SimInv cfg sim) {q : Int} (h0 : 0 ≤ q)
    (hq : q ≤ sim.book.qtyAt s p) :
    (sim.consumeLevel cfg s p q).hidden = sim.hidden ∧
      ∃ es, Printed sim (sim.consumeLevel cfg s p q) s p es ∧ executedQty es = q := by
  have hclear := h.clearSync
  obtain ⟨off, hr⟩ := subtractLevel_repositioned hclear.mirror hclear.book s p q false
  have hsub := hclear.repositioned hr
  unfold consumeLevel
  dsimp only
  generalize ({ sim.track with recentSync := [] } : TrackTable).subtractLevel sim.book s p q false
    = t at *
  -- what is printed so far, and that the rest of the print is still displayed
  have hrule := consumeLoop_rule (s := s) (p := p) (q := q)
    (I := fun applied x => x.hidden = sim.hidden
      ∧ (∃ es, Printed sim x s p es ∧ executedQty es = applied)
      ∧ sim.book.qtyAt s p - applied ≤ x.book.qtyAt s p)
    (fun a mid b applied i l take hinv hI hlt hf htake hpos hc => by
      obtain ⟨hhid, ⟨es, hes, hsum⟩, hdepth⟩ := hI
      have hle : take ≤ a.book.rem i := by omega
      refine ⟨?_, ⟨es ++ [a.executionOf i take], hes.trans (hc.printed hinv hf hpos hle), ?_⟩, ?_⟩
      · rw [(Shown.fields hc.shown).1, hc.exec.hidden, hhid]
      · rw [executedQty_append, executedQty_single, hsum]
        rfl
      · have := hc.qtyAt_le hinv hf
        omega)
    q.toNat 0 { sim with track := t } hsub
    ⟨rfl, ⟨[], .still rfl rfl (fun _ => rfl) rfl, rfl⟩, Int.le_of_eq (Int.sub_zero _)⟩ h0 (by omega)
  generalize consumeLoop cfg s p q q.toNat 0 { sim with track := t } = r at hrule
  obtain ⟨hinv, ⟨hhid, ⟨es, hes, hsum⟩, hdepth⟩, hle, hend⟩ := hrule
  have hall : executedQty es = q := by
    rcases hend with hend | hempty
    · exact hsum.trans hend
    · rw [hinv.book.qtyAt_eq, hempty] at hdepth
      change sim.book.qtyAt s p - r.2 ≤ 0 at hdepth
      omega
  split
  · refine ⟨hhid, es, ?_, hall⟩
    have hquiet := (FillLog.quiet_emitTrade r.1.log s p r.2).executions
    have hlog : Printed r.1 { r.1 with log := r.1.log.emitTrade s p r.2 } s p [] :=
      .still rfl rfl (fun _ => rfl) hquiet
    rw [← List.append_nil es]
    exact hes.trans hlog
  · exact ⟨hhid, es, hes, hall⟩

/-- One entry of the ledger tapped. -/
theorem EntryTapped.printed {t : Tap} {e : Hidden} {kept l : List Hidden}
    (he : EntryTapped cfg sim sim' t e kept l) (hs : e.side = s) (hp : e.priceTicks = p) :
    Printed sim sim' s p [t.execution e] :=
  he.lost.printed fun x hx => by
    rw [List.mem_singleton.mp hx]
    exact ⟨hs, hp⟩

/-- **The part for the ledger**: as much of it as the ledger holds at the level. -/
theorem tapHidden_printed (hl : LedgerCounted sim.hidden) {r : Int} (h0 : 0 ≤ r) (notional : Nat) :
    ∃ es, Printed sim (sim.tapHidden cfg s p r notional).1 s p es ∧
      executedQty es = min r (ledgerAt sim.hidden s p) := by
  have hind := tapLoop_induction cfg s p
    (I := fun l t => LedgerCounted l ∧ 0 ≤ t.remaining
      ∧ ∃ es, Printed sim { sim with hidden := l, log := t.log } s p es
        ∧ executedQty es = r - t.remaining
        ∧ executedQty es + ledgerAt l s p = ledgerAt sim.hidden s p) ?_ sim.hidden []
    { log := sim.log, remaining := r, notional }
    ⟨hl, h0, [], .still rfl rfl (fun _ => rfl) rfl, (Int.sub_self r).symm, Int.zero_add _⟩
  · obtain ⟨hcount, hrem, es, hes, htaken, hleft⟩ := hind
    refine ⟨es, hes, ?_⟩
    have hnonneg := ledgerAt_nonneg hcount s p
    rw [List.nil_append] at hleft hnonneg
    have hend := @tapLoop_exhausts cfg s p sim.hidden { log := sim.log, remaining := r, notional }
    rcases hend with hdone | hnone
    · omega
    · rw [ledgerAt_eq_zero hnone] at hleft
      omega
  · intro kept e l t ⟨hcount, hrem', es, hes, htaken, hleft⟩ hrem hs hp
    have hpos : 0 ≤ e.qtyRemaining := hcount e (by simp)
    have htapped : EntryTapped cfg { sim with hidden := kept ++ e :: l, log := t.log }
        { sim with hidden := kept ++ (t.stays e ++ l), log := (t.take cfg e).log } t e kept l :=
      { before := rfl, log := rfl, remaining := hrem, after := rfl }
    have hamount : t.amount e ≤ t.remaining ∧ t.amount e ≤ e.qtyRemaining :=
      ⟨Int.min_le_left _ _, Int.min_le_right _ _⟩
    refine ⟨?_, ?_, es ++ [t.execution e], hes.trans (htapped.printed hs hp), ?_, ?_⟩
    · intro x hx
      rcases htapped.mem hx with hx | ⟨_, rfl⟩
      · exact hcount x hx
      · show 0 ≤ e.qtyRemaining - t.amount e
        omega
    · show 0 ≤ t.remaining - t.amount e
      omega
    · rw [executedQty_append, executedQty_single, htaken]
      show r - t.remaining + t.amount e = r - (t.remaining - t.amount e)
      omega
    · have hstays := ledgerAt_stays t e s p
      rw [if_pos ⟨hs, hp⟩, if_pos ⟨hs, hp⟩] at hstays
      rw [ledgerAt_append, ledgerAt_cons, if_pos ⟨hs, hp⟩] at hleft
      rw [executedQty_append, executedQty_single, ledgerAt_append, ledgerAt_append]
      show executedQty es + t.amount e + _ = _
      omega

/-! ## The whole print -/

/-- An iceberg whose slice is displayed on the level. -/
def ShownAt (sim : ExecutionSimulator k) (s : Side) (p : Int) (ib : Iceberg) : Prop :=
  ib.side = s ∧ ib.priceTicks = p ∧ (sim.book.findHandle ib.ref).index ≠ kNullIndex
    ∧ (sim.book.order (sim.book.findHandle ib.ref).index).side = s
    ∧ (sim.book.order (sim.book.findHandle ib.ref).index).priceTicks = p

instance (sim : ExecutionSimulator k) (s : Side) (p : Int) (ib : Iceberg) :
    Decidable (sim.ShownAt s p ib) := inferInstanceAs (Decidable (_ ∧ _ ∧ _ ∧ _ ∧ _))

/-- The reserves of the icebergs displayed on a level. -/
def reservesAt (sim : ExecutionSimulator k) (s : Side) (p : Int) : Int :=
  (sim.icebergs.map fun ib => if sim.ShownAt s p ib then ib.hidden else 0).sum

/-- What is displayed on a level or rests there in the ledger, once repegged. -/
def takeableAt (sim : ExecutionSimulator k) (s : Side) (p : Int) : Int :=
  sim.book.qtyAt s p + ledgerAt sim.repegHidden.hidden s p

/-- Everything available on a level. -/
def availableAt (sim : ExecutionSimulator k) (s : Side) (p : Int) : Int :=
  sim.book.qtyAt s p + sim.reservesAt s p + ledgerAt sim.repegHidden.hidden s p

/-- A print of `q` units takes all that it can: everything available, if it is as much. -/
def PrintsAll (cfg : SimConfig) (sim : ExecutionSimulator k) (s : Side) (p q : Int) : Prop :=
  ∃ es, Printed sim (sim.applyExternal cfg s p q) s p es ∧ executedQty es = min q (sim.availableAt s p)

theorem reservesAt_nonneg (h : SimInv cfg sim) (s : Side) (p : Int) : 0 ≤ sim.reservesAt s p := by
  refine List.sum_nonneg (fun x hx => ?_)
  obtain ⟨ib, hib, rfl⟩ := List.mem_map.mp hx
  split
  · exact (h.icebergs ib hib).hidden
  · exact Int.le_refl 0

theorem qtyAt_nonneg (h : SimInv cfg sim) (s : Side) (p : Int) : 0 ≤ sim.book.qtyAt s p := by
  rw [h.book.qtyAt_eq]
  refine List.sum_nonneg (fun x hx => ?_)
  obtain ⟨j, hj, rfl⟩ := List.mem_map.mp hx
  exact Int.le_of_lt (h.book.pos j ((h.book.mem _ _ j).mp hj).1)

/--
**What an external print takes.**

A print executes what is displayed on its level and then what the ledger holds there,
nothing on any other level, and leaves every order with what it had less its executions.
-/
theorem applyExternal_printed (h : SimInv cfg sim) (hl : LedgerCounted sim.hidden)
    (hh : sim.halted = false) (s : Side) (p : Int) {q : Int} (hq : 0 ≤ q) :
    ∃ es, Printed sim (sim.applyExternal cfg s p q) s p es ∧
      executedQty es = min q (sim.takeableAt s p) := by
  have hinv := h.repegHidden
  have hcount : LedgerCounted sim.repegHidden.hidden :=
    Trades.counted hl (Exchanges.trades (repegHidden_exchanges h) h)
  have hdisplayed := qtyAt_nonneg hinv s p
  have hledger := ledgerAt_nonneg hcount s p
  have hrepeg : Printed sim sim.repegHidden s p [] := .still rfl rfl (ledgerQty_repeg sim) rfl
  have hsame : sim.repegHidden.book = sim.book := rfl
  unfold applyExternal takeableAt
  rw [if_neg (by rw [hh]; exact Bool.false_ne_true)]
  dsimp only
  generalize sim.repegHidden = a at *
  rw [← hsame]
  obtain ⟨hhid, es, hes, hsum⟩ := consumeLevel_printed (s := s) (p := p) (q := min q (a.book.qtyAt s p))
    hinv (by omega) (Int.min_le_right _ _)
  generalize a.consumeLevel cfg s p (min q (a.book.qtyAt s p)) = b at *
  have hfirst := hrepeg.trans hes
  rw [List.nil_append] at hfirst
  by_cases hmore : a.book.qtyAt s p < q
  · rw [if_pos hmore]
    rw [← hhid] at hcount hledger ⊢
    obtain ⟨es', hes', hsum'⟩ := tapHidden_printed (s := s) (p := p) (r := q - a.book.qtyAt s p)
      hcount (by omega) 0
    refine ⟨es ++ es', hfirst.trans hes', ?_⟩
    rw [executedQty_append, hsum, hsum']
    omega
  · rw [if_neg hmore]
    refine ⟨es, hfirst, ?_⟩
    rw [hsum]
    omega

end ExecutionSimulator

end Mog
