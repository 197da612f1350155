import Mog.Sim.Account
import Mog.Sim.Icebergs
import Mog.Sim.Refs

/-!
# What executions take

An execution is logged, and the order it names loses what was executed: in the book, in
the reserve of an iceberg, whose next slice only moves quantity from the one to the other,
or in the ledger. The same holds of the levels. An order of the strategy's that
`cancel_oldest` takes off the way of a sweep loses all it has without an execution; such
withdrawals are listed beside the executions.
-/

namespace Mog

open QueueSum TrackTable

/-! ## Sums -/

/-- The quantity the ledger holds under a reference. -/
def ledgerQty (l : List Hidden) (ref : Nat) : Int :=
  (l.map (fun e => if e.ref = ref then e.qtyRemaining else 0)).sum

theorem ledgerQty_append (l l' : List Hidden) (ref : Nat) :
    ledgerQty (l ++ l') ref = ledgerQty l ref + ledgerQty l' ref := by
  simp [ledgerQty]

theorem ledgerQty_cons (e : Hidden) (l : List Hidden) (ref : Nat) :
    ledgerQty (e :: l) ref = (if e.ref = ref then e.qtyRemaining else 0) + ledgerQty l ref := by
  simp [ledgerQty]

/-- What a ledger holds at a level. -/
def ledgerAt (l : List Hidden) (s : Side) (p : Int) : Int :=
  (l.map fun e => if e.side = s ∧ e.priceTicks = p then e.qtyRemaining else 0).sum

theorem ledgerAt_append (l l' : List Hidden) (s : Side) (p : Int) :
    ledgerAt (l ++ l') s p = ledgerAt l s p + ledgerAt l' s p := by
  simp [ledgerAt]

theorem ledgerAt_cons (e : Hidden) (l : List Hidden) (s : Side) (p : Int) :
    ledgerAt (e :: l) s p
      = (if e.side = s ∧ e.priceTicks = p then e.qtyRemaining else 0) + ledgerAt l s p := by
  simp [ledgerAt]

/-- The reserves registered at a level. -/
def reserveAt (l : List Iceberg) (s : Side) (p : Int) : Int :=
  (l.map fun ib => if ib.side = s ∧ ib.priceTicks = p then ib.hidden else 0).sum

theorem reserveAt_perm {l l' : List Iceberg} (h : l.Perm l') (s : Side) (p : Int) :
    reserveAt l s p = reserveAt l' s p := (h.map _).sum_eq

theorem reserveAt_cons (ib : Iceberg) (l : List Iceberg) (s : Side) (p : Int) :
    reserveAt (ib :: l) s p
      = (if ib.side = s ∧ ib.priceTicks = p then ib.hidden else 0) + reserveAt l s p := by
  simp [reserveAt]

theorem reserveAt_append (l l' : List Iceberg) (s : Side) (p : Int) :
    reserveAt (l ++ l') s p = reserveAt l s p + reserveAt l' s p := by
  simp [reserveAt]

theorem executedOf_append (l l' : List Execution) (ref : Nat) :
    executedOf (l ++ l') ref = executedOf l ref + executedOf l' ref := by
  simp [executedOf]

/-- What has been executed at a level. -/
def executedAt (es : List Execution) (s : Side) (p : Int) : Int :=
  (es.map fun e => if e.side = s ∧ e.price = p then e.qty else 0).sum

/-- What has been executed against the displayed orders of `ref`. -/
def shownOf (es : List Execution) (ref : Nat) : Int :=
  executedOf (es.filter fun e => e.displayed) ref

/-- What has been executed against the entries of the ledger that are named `ref`. -/
def tappedOf (es : List Execution) (ref : Nat) : Int :=
  executedOf (es.filter fun e => ¬ e.displayed) ref

/-- What has been executed against the displayed orders of a level. -/
def shownAt (es : List Execution) (s : Side) (p : Int) : Int :=
  executedAt (es.filter fun e => e.displayed) s p

/-- What has been executed against the ledger at a level. -/
def tappedAt (es : List Execution) (s : Side) (p : Int) : Int :=
  executedAt (es.filter fun e => ¬ e.displayed) s p

theorem executedAt_append (l l' : List Execution) (s : Side) (p : Int) :
    executedAt (l ++ l') s p = executedAt l s p + executedAt l' s p := by
  simp [executedAt]

theorem shownOf_append (l l' : List Execution) (ref : Nat) :
    shownOf (l ++ l') ref = shownOf l ref + shownOf l' ref := by
  rw [shownOf, List.filter_append, executedOf_append]
  rfl

theorem tappedOf_append (l l' : List Execution) (ref : Nat) :
    tappedOf (l ++ l') ref = tappedOf l ref + tappedOf l' ref := by
  rw [tappedOf, List.filter_append, executedOf_append]
  rfl

theorem shownAt_append (l l' : List Execution) (s : Side) (p : Int) :
    shownAt (l ++ l') s p = shownAt l s p + shownAt l' s p := by
  rw [shownAt, List.filter_append, executedAt_append]
  rfl

theorem tappedAt_append (l l' : List Execution) (s : Side) (p : Int) :
    tappedAt (l ++ l') s p = tappedAt l s p + tappedAt l' s p := by
  rw [tappedAt, List.filter_append, executedAt_append]
  rfl

/-- An order of the strategy's, taken out of the book without an execution. -/
structure Withdrawal where
  ref : Nat
  side : Side
  price : Int
  qty : Int

def withdrawnOf (ws : List Withdrawal) (ref : Nat) : Int :=
  (ws.map fun x => if x.ref = ref then x.qty else 0).sum

def withdrawnAt (ws : List Withdrawal) (s : Side) (p : Int) : Int :=
  (ws.map fun x => if x.side = s ∧ x.price = p then x.qty else 0).sum

theorem withdrawnOf_append (l l' : List Withdrawal) (ref : Nat) :
    withdrawnOf (l ++ l') ref = withdrawnOf l ref + withdrawnOf l' ref := by
  simp [withdrawnOf]

theorem withdrawnAt_append (l l' : List Withdrawal) (s : Side) (p : Int) :
    withdrawnAt (l ++ l') s p = withdrawnAt l s p + withdrawnAt l' s p := by
  simp [withdrawnAt]

/-- What stays of an entry is what was not taken. -/
theorem ledgerQty_stays (t : Tap) (e : Hidden) (ref : Nat) :
    ledgerQty (t.stays e) ref + (if e.ref = ref then t.amount e else 0)
      = if e.ref = ref then e.qtyRemaining else 0 := by
  unfold Tap.stays
  split
  · rename_i hz
    split
    · show 0 + t.amount e = e.qtyRemaining
      omega
    · rfl
  · rw [ledgerQty_cons]
    show (if e.ref = ref then e.qtyRemaining - t.amount e else 0) + 0 + _ = _
    split <;> omega

theorem ledgerAt_stays (t : Tap) (e : Hidden) (s : Side) (p : Int) :
    ledgerAt (t.stays e) s p + (if e.side = s ∧ e.priceTicks = p then t.amount e else 0)
      = if e.side = s ∧ e.priceTicks = p then e.qtyRemaining else 0 := by
  unfold Tap.stays
  split
  · rename_i hz
    split
    · show 0 + t.amount e = e.qtyRemaining
      omega
    · rfl
  · rw [ledgerAt_cons]
    show (if e.side = s ∧ e.priceTicks = p then e.qtyRemaining - t.amount e else 0) + 0 + _ = _
    split <;> omega

namespace ExecutionSimulator

variable {k : Nat} {cfg : SimConfig} {sim sim' sim'' : ExecutionSimulator k} {order : SimInbound}

/-- What is taken from an entry leaves the ledger. -/
theorem EntryTapped.ledger {t : Tap} {e : Hidden} {kept l : List Hidden}
    (he : EntryTapped cfg sim sim' t e kept l) (ref : Nat) :
    ledgerQty sim'.hidden ref + (if e.ref = ref then t.amount e else 0)
      = ledgerQty sim.hidden ref := by
  have hstay := ledgerQty_stays t e ref
  rw [he.after, he.before]
  dsimp only
  rw [ledgerQty_append, ledgerQty_append, ledgerQty_append, ledgerQty_cons]
  omega

theorem EntryTapped.ledgerLevel {t : Tap} {e : Hidden} {kept l : List Hidden}
    (he : EntryTapped cfg sim sim' t e kept l) (s : Side) (p : Int) :
    ledgerAt sim'.hidden s p + (if e.side = s ∧ e.priceTicks = p then t.amount e else 0)
      = ledgerAt sim.hidden s p := by
  have hstay := ledgerAt_stays t e s p
  rw [he.after, he.before]
  dsimp only
  rw [ledgerAt_append, ledgerAt_append, ledgerAt_append, ledgerAt_cons]
  omega

/-! ## Losses -/

theorem if_level_comm (s s' : Side) (p p' x : Int) :
    (if s = s' ∧ p = p' then x else 0) = if s' = s ∧ p' = p then x else 0 :=
  if_congr (and_congr eq_comm eq_comm) rfl rfl

/-- From `sim` to `sim'` the executions `es` and the withdrawals `ws` are all that orders, levels
and ledger have lost. -/
structure Lost (sim sim' : ExecutionSimulator k) (es : List Execution) (ws : List Withdrawal) :
    Prop where
  executions : sim'.log.executions = sim.log.executions ++ es
  /-- Displayed orders, with the reserves behind them. -/
  orders : ∀ ref, ref ≠ 0 → sim'.book.remainingOf ref + reserveOf sim'.icebergs ref + shownOf es ref
    + withdrawnOf ws ref = sim.book.remainingOf ref + reserveOf sim.icebergs ref
  levels : ∀ s p, sim'.book.qtyAt s p + reserveAt sim'.icebergs s p + shownAt es s p
    + withdrawnAt ws s p = sim.book.qtyAt s p + reserveAt sim.icebergs s p
  /-- Entries of the ledger. -/
  entries : ∀ ref, ledgerQty sim'.hidden ref + tappedOf es ref = ledgerQty sim.hidden ref
  ledger : ∀ s p, ledgerAt sim'.hidden s p + tappedAt es s p = ledgerAt sim.hidden s p

/-- Nothing is lost where book, registry, ledger and executions stay. -/
theorem Lost.still (hb : sim'.book = sim.book) (hi : sim'.icebergs = sim.icebergs)
    (hh : sim'.hidden = sim.hidden) (hx : sim'.log.executions = sim.log.executions) :
    Lost sim sim' [] [] where
  executions := by rw [hx, List.append_nil]
  orders ref _ := by
    rw [hb, hi]
    exact (Int.add_zero _).trans (Int.add_zero _)
  levels s p := by
    rw [hb, hi]
    exact (Int.add_zero _).trans (Int.add_zero _)
  entries ref := by
    rw [hh]
    exact Int.add_zero _
  ledger s p := by
    rw [hh]
    exact Int.add_zero _

theorem Lost.trans {es es' : List Execution} {ws ws' : List Withdrawal} (h : Lost sim sim' es ws)
    (h' : Lost sim' sim'' es' ws') : Lost sim sim'' (es ++ es') (ws ++ ws') where
  executions := by rw [h'.executions, h.executions, List.append_assoc]
  orders ref hne := by
    have h1 := h.orders ref hne
    have h2 := h'.orders ref hne
    rw [shownOf_append, withdrawnOf_append]
    omega
  levels s p := by
    have h1 := h.levels s p
    have h2 := h'.levels s p
    rw [shownAt_append, withdrawnAt_append]
    omega
  entries ref := by
    have h1 := h.entries ref
    have h2 := h'.entries ref
    rw [tappedOf_append]
    omega
  ledger s p := by
    have h1 := h.ledger s p
    have h2 := h'.ledger s p
    rw [tappedAt_append]
    omega

/-- **An execution** takes what is executed from its order and its level. -/
theorem Filled.lost {i : Nat} {take : Int} (hf : Filled cfg sim sim' i take) (h : SimInv cfg sim) :
    Lost sim sim' [sim.executionOf i take] [] where
  executions := by rw [hf.log, FillLog.displayedFill_executions]
  orders ref hne := by
    have hrem := hf.remaining h hne
    have hone : shownOf [sim.executionOf i take] ref
        = if (sim.book.order i).orderRef = ref then take else 0 := Int.add_zero _
    have hnone : withdrawnOf [] ref = 0 := rfl
    rw [hone, hnone, hf.icebergs]
    omega
  levels s p := by
    have hlevel := hf.book.qtyAt h.book hf.live s p
    have hone : shownAt [sim.executionOf i take] s p
        = if (sim.book.order i).side = s ∧ (sim.book.order i).priceTicks = p then take else 0 :=
      Int.add_zero _
    have hnone : withdrawnAt [] s p = 0 := rfl
    rw [hone, hnone, hf.icebergs, hlevel, if_level_comm]
    omega
  entries ref := by
    rw [hf.hidden]
    exact Int.add_zero _
  ledger s p := by
    rw [hf.hidden]
    exact Int.add_zero _

/-- **The next slice** moves from the reserve to the level. -/
theorem Replenished.lost {ib : Iceberg} {rest : List Iceberg} {i : Nat}
    (hr : Replenished sim sim' ib rest i) (h : SimInv cfg sim) : Lost sim sim' [] [] where
  executions := by rw [hr.log, List.append_nil]
  orders ref hne := by
    have hrem := hr.remaining h hne
    have hnone : shownOf [] ref = 0 ∧ withdrawnOf [] ref = 0 := ⟨rfl, rfl⟩
    omega
  levels s p := by
    have hentry := reserveAt_perm hr.entry s p
    have hleft := reserveAt_perm hr.left s p
    have hlevel := hr.book.qtyAt h.book s p
    have hslice : reserveAt (afterSlice ib) s p
        = if ib.side = s ∧ ib.priceTicks = p then ib.hidden - nextSlice ib else 0 := by
      unfold afterSlice
      by_cases hz : ib.hidden - nextSlice ib = 0
      · rw [if_pos hz, hz]
        split <;> rfl
      · rw [if_neg hz, reserveAt_cons]
        exact Int.add_zero _
    have hnone : shownAt [] s p = 0 ∧ withdrawnAt [] s p = 0 := ⟨rfl, rfl⟩
    rw [reserveAt_cons] at hentry
    rw [reserveAt_append, hslice] at hleft
    dsimp only at hlevel
    rw [hlevel, hleft, hentry, if_level_comm]
    split <;> omega
  entries ref := by
    rw [hr.hidden]
    exact Int.add_zero _
  ledger s p := by
    rw [hr.hidden]
    exact Int.add_zero _

theorem Shown.lost {ref : Nat} (hs : Shown sim sim' ref) (h : SimInv cfg sim) :
    Lost sim sim' [] [] := by
  rcases hs with ⟨rfl, _⟩ | ⟨ib, rest, j, _, hrep⟩
  · exact .still rfl rfl rfl rfl
  · exact hrep.lost h

/-- **A tap** takes from its entry. -/
theorem EntryTapped.lost {t : Tap} {e : Hidden} {kept l : List Hidden}
    (he : EntryTapped cfg sim sim' t e kept l) : Lost sim sim' [t.execution e] [] where
  executions := by
    rw [he.after]
    show t.log.executions ++ [t.execution e] = _
    rw [he.log]
  orders ref _ := by
    rw [he.after]
    exact (Int.add_zero _).trans (Int.add_zero _)
  levels s p := by
    rw [he.after]
    exact (Int.add_zero _).trans (Int.add_zero _)
  entries ref := by
    have hone : tappedOf [t.execution e] ref = if e.ref = ref then t.amount e else 0 :=
      Int.add_zero _
    rw [hone]
    exact he.ledger ref
  ledger s p := by
    have hone : tappedAt [t.execution e] s p
        = if e.side = s ∧ e.priceTicks = p then t.amount e else 0 := Int.add_zero _
    rw [hone]
    exact he.ledgerLevel s p

end ExecutionSimulator

/-! ## Sweeps -/

namespace Sweep

open ExecutionSimulator

variable {k : Nat} {cfg : SimConfig} {w w' : Sweep k} {order : SimInbound}

/-- What a sweep withdraws: an order of the strategy's on the opposing side, whole. -/
structure Withdraws (cfg : SimConfig) (order : SimInbound) (sim sim' : ExecutionSimulator k)
    (x : Withdrawal) : Prop where
  mode : sim.stp = .cancelOldest
  own : cfg.externalRefLimit ≤ x.ref
  side : x.side = order.side.opp
  pos : 0 < x.qty
  found : sim.InBook x.ref
  gone : ¬ sim'.InBook x.ref

/-- The victim of `cancel_oldest` leaves its level. -/
theorem Removed.lost {i : Nat} (hr : Removed cfg w w' i) (h : SimInv cfg w.sim)
    (hi : w.sim.book.live i) :
    Lost w.sim w'.sim [] [⟨(w.sim.book.order i).orderRef, (w.sim.book.order i).side,
      (w.sim.book.order i).priceTicks, w.sim.book.rem i⟩] where
  executions := by rw [hr.log, List.append_nil]
  orders ref hne := by
    have hrem := remainingOf_loses h.book hi hr.book hne
    have hone : withdrawnOf [⟨(w.sim.book.order i).orderRef, (w.sim.book.order i).side,
        (w.sim.book.order i).priceTicks, w.sim.book.rem i⟩] ref
          = if (w.sim.book.order i).orderRef = ref then w.sim.book.rem i else 0 := Int.add_zero _
    have hnone : shownOf [] ref = 0 := rfl
    rw [hone, hnone, hr.icebergs]
    omega
  levels s p := by
    have hlevel := hr.book.qtyAt h.book hi s p
    have hone : withdrawnAt [⟨(w.sim.book.order i).orderRef, (w.sim.book.order i).side,
        (w.sim.book.order i).priceTicks, w.sim.book.rem i⟩] s p
          = if (w.sim.book.order i).side = s ∧ (w.sim.book.order i).priceTicks = p then
              w.sim.book.rem i else 0 := Int.add_zero _
    have hnone : shownAt [] s p = 0 := rfl
    rw [hone, hnone, hr.icebergs, hlevel, if_level_comm]
    omega
  entries ref := by
    rw [hr.hidden]
    exact Int.add_zero _
  ledger s p := by
    rw [hr.hidden]
    exact Int.add_zero _

/-- **One move of a sweep** takes what it executes, or withdraws a victim. -/
theorem Move.lost (hm : Move cfg order w w') (h : SimInv cfg w.sim) :
    ∃ es ws, Lost w.sim w'.sim es ws ∧ ∀ x ∈ ws, Withdraws cfg order w.sim w'.sim x := by
  cases hm with
  | fill i l take mid ht hstp hf htake hs hc =>
      refine ⟨[w.sim.executionOf i take], [], ?_, fun _ hx => absurd hx List.not_mem_nil⟩
      exact (hf.lost h).trans (hs.lost (hf.inv h))
  | tap t e kept l hside hbound he hrem hc =>
      exact ⟨_, [], he.lost, fun _ hx => absurd hx List.not_mem_nil⟩
  | remove i l ht hown hstp hr =>
      refine ⟨[], _, hr.lost h ht.front.live, fun x hx => ?_⟩
      rw [List.mem_singleton.mp hx]
      refine ⟨hstp, hown.2, ht.front.side, h.book.pos i ht.front.live, ⟨i, ht.front.live, rfl⟩, ?_⟩
      rintro ⟨j, hj, href⟩
      obtain ⟨hjl, hno⟩ := (hr.book.live j).mp hj
      rw [(hr.book.kept hj).1] at href
      exact hno ⟨h.book.ref_inj hjl ht.front.live href, rfl⟩

/-- **A sweep takes what it executes** from the orders that its executions name. -/
theorem Moves.lost (hm : Moves cfg order w w') (h : SimInv cfg w.sim) :
    ∃ es ws, Lost w.sim w'.sim es ws ∧ ∀ x ∈ ws, Withdraws cfg order w.sim w'.sim x := by
  induction hm with
  | refl => exact ⟨[], [], .still rfl rfl rfl rfl, fun _ hx => absurd hx List.not_mem_nil⟩
  | tail hab hb ih =>
      obtain ⟨es, ws, hlost, hws⟩ := ih
      obtain ⟨hex, hinv⟩ := Moves.exchanges hab h
      obtain ⟨es', ws', hlost', hws'⟩ := hb.1.lost hinv
      refine ⟨_, _, hlost.trans hlost', fun x hx => ?_⟩
      have hmode := (Exchanges.modes hex).2
      rcases List.mem_append.mp hx with hx | hx
      · -- what has been withdrawn does not come back
        have hold := hws x hx
        have htrades := Exchanges.trades (Relation.ReflTransGen.single ⟨hb.1.exchange, hb.2⟩) hinv
        exact { hold with gone := fun hin => hold.gone ((Trades.refs hinv htrades).1 _ hold.own hin) }
      · have hnew := hws' x hx
        exact { hnew with
          mode := hmode.symm.trans hnew.mode
          found := (Trades.refs h (Exchanges.trades hex h)).1 _ hnew.own hnew.found }

end Sweep

end Mog
