import Mog.Sim.Reach

/-!
# Elementary changes

Whatever the sweep and the external flow do to the book, the iceberg registry and the
ledger is a sequence of elementary changes: a fill of the order at the front of its
queue, the next slice of an iceberg, an order withdrawn, one entry of the ledger tapped,
the ledger repegged. `DecideCase` says what a decision adds to such a sequence.
-/

namespace Mog

open QueueSum TrackTable

namespace FillLog

/-- Nothing has been executed, reported, decided or counted. -/
structure Quiet (l l' : FillLog) : Prop where
  executions : l'.executions = l.executions
  reports : l'.reports = l.reports
  decisions : l'.decisions = l.decisions
  totalFilledNotional : l'.totalFilledNotional = l.totalFilledNotional
  totalFees : l'.totalFees = l.totalFees
  fillCount : l'.fillCount = l.fillCount
  modelFilled : l'.modelFilled = l.modelFilled
  aggressiveFilled : l'.aggressiveFilled = l.aggressiveFilled

theorem Quiet.refl (l : FillLog) : Quiet l l := ⟨rfl, rfl, rfl, rfl, rfl, rfl, rfl, rfl⟩

theorem quiet_drawJitter (l : FillLog) (cfg : SimConfig) : Quiet l (l.drawJitter cfg).2 :=
  ⟨rfl, rfl, rfl, rfl, rfl, rfl, rfl, rfl⟩

theorem quiet_emitTrade (l : FillLog) (s : Side) (price qty : Int) :
    Quiet l (l.emitTrade s price qty) := ⟨rfl, rfl, rfl, rfl, rfl, rfl, rfl, rfl⟩

theorem quiet_nowHint (l : FillLog) (ts : Nat) : Quiet l { l with nowHint := ts } :=
  ⟨rfl, rfl, rfl, rfl, rfl, rfl, rfl, rfl⟩

/-- An execution is logged, and settled with a report when the order is the strategy's. -/
theorem displayedFill_cases (l : FillLog) (cfg : SimConfig) (e : Execution) :
    (e.ref < cfg.externalRefLimit ∧ l.displayedFill cfg e = l.execute e)
      ∨ (cfg.externalRefLimit ≤ e.ref ∧ ∃ vis, l.displayedFill cfg e
        = ((l.execute e).drawJitter cfg).2.settle cfg vis e.ref e.price e.qty e.side) := by
  unfold displayedFill
  by_cases hown : cfg.externalRefLimit ≤ e.ref
  · rw [if_pos hown]
    exact Or.inr ⟨hown, _, rfl⟩
  · rw [if_neg hown]
    exact Or.inl ⟨Nat.lt_of_not_le hown, rfl⟩

theorem displayedFill_executions (l : FillLog) (cfg : SimConfig) (e : Execution) :
    (l.displayedFill cfg e).executions = l.executions ++ [e] := by
  rcases displayedFill_cases l cfg e with ⟨_, h⟩ | ⟨_, vis, h⟩
  · rw [h]
    rfl
  · rw [h]
    rfl

theorem displayedFill_decisions (l : FillLog) (cfg : SimConfig) (e : Execution) :
    (l.displayedFill cfg e).decisions = l.decisions := by
  rcases displayedFill_cases l cfg e with ⟨_, h⟩ | ⟨_, vis, h⟩
  · rw [h]
    rfl
  · rw [h]
    rfl

end FillLog

namespace ExecutionSimulator

variable {k : Nat} {cfg : SimConfig} {sim sim' : ExecutionSimulator k}

/-- At most the trackers, the clock and the latency draws have changed. -/
structure Idle (sim sim' : ExecutionSimulator k) : Prop where
  book : sim'.book = sim.book
  icebergs : sim'.icebergs = sim.icebergs
  hidden : sim'.hidden = sim.hidden
  log : sim.log.Quiet sim'.log
  wheel : sim'.wheel = sim.wheel
  halted : sim'.halted = sim.halted
  stp : sim'.stp = sim.stp

/-- `take` units of the order in slot `i`, the first of its queue, have been executed. -/
structure Filled (cfg : SimConfig) (sim sim' : ExecutionSimulator k) (i : Nat) (take : Int) :
    Prop where
  live : sim.book.live i
  front : ∃ l, sim.book.queueOf i = i :: l
  pos : 0 < take
  le : take ≤ sim.book.rem i
  book : OrderBook.Reduced sim.book sim.book.levelSlots sim'.book i take
  mirror : Mirror cfg.externalRefLimit sim'.book sim'.track
  icebergs : sim'.icebergs = sim.icebergs
  hidden : sim'.hidden = sim.hidden
  log : sim'.log = sim.log.displayedFill cfg (sim.executionOf i take)
  env : SameEnv sim sim'

/-- Something has been taken from the entry `e` of the ledger. -/
structure EntryTapped (cfg : SimConfig) (sim sim' : ExecutionSimulator k) (t : Tap) (e : Hidden)
    (kept l : List Hidden) : Prop where
  before : sim.hidden = kept ++ e :: l
  log : t.log = sim.log
  remaining : 0 < t.remaining
  after : sim' = { sim with hidden := kept ++ (t.stays e ++ l), log := (t.take cfg e).log }

/-- Slot `i`'s order has been taken out of the book whole. -/
structure TakenOut (sim sim' : ExecutionSimulator k) (i : Nat) : Prop where
  book : OrderBook.Reduced sim.book sim.book.levelSlots sim'.book i (sim.book.rem i)
  live : sim.book.live i
  icebergs : sim'.icebergs = sim.icebergs
  hidden : sim'.hidden = sim.hidden
  log : sim'.log = sim.log
  env : SameEnv sim sim'

/-- One elementary change. -/
inductive Trade (cfg : SimConfig) (sim sim' : ExecutionSimulator k) : Prop where
  | idle (h : Idle sim sim')
  | repeg (h : sim' = sim.repegHidden)
  | fill (i : Nat) (take : Int) (h : Filled cfg sim sim' i take)
  | slice (ib : Iceberg) (rest : List Iceberg) (i : Nat) (h : Replenished sim sim' ib rest i)
  | withdraw (i : Nat) (hown : sim.book.Own cfg.externalRefLimit i) (h : TakenOut sim sim' i)
  | tap (t : Tap) (e : Hidden) (kept l : List Hidden) (h : EntryTapped cfg sim sim' t e kept l)

/-- A sequence of elementary changes, each of which keeps the invariant. -/
abbrev Trades (cfg : SimConfig) : ExecutionSimulator k → ExecutionSimulator k → Prop :=
  Relation.ReflTransGen (fun a b => Trade cfg a b ∧ SimInv cfg b)

theorem Trades.inv (h : SimInv cfg sim) (ht : Trades cfg sim sim') : SimInv cfg sim' := by
  cases ht with
  | refl => exact h
  | tail _ hb => exact hb.2

theorem idle_track (sim : ExecutionSimulator k) (t : TrackTable) :
    Idle sim { sim with track := t } := ⟨rfl, rfl, rfl, .refl _, rfl, rfl, rfl⟩

theorem idle_log (sim : ExecutionSimulator k) {l : FillLog} (h : sim.log.Quiet l) :
    Idle sim { sim with log := l } := ⟨rfl, rfl, rfl, h, rfl, rfl, rfl⟩

/-- What waits in the scheduler waits on. -/
theorem Trade.wheel (h : Trade cfg sim sim') : sim'.wheel = sim.wheel := by
  cases h with
  | idle h => exact h.wheel
  | repeg h => rw [h]; rfl
  | fill _ _ h => exact h.env.wheel
  | slice _ _ _ h => exact h.env.wheel
  | withdraw _ _ h => exact h.env.wheel
  | tap _ _ _ _ h => rw [h.after]

theorem Trades.wheel (h : Trades cfg sim sim') : sim'.wheel = sim.wheel := by
  induction h with
  | refl => rfl
  | tail _ hb ih => exact hb.1.wheel.trans ih

theorem Trade.once (h : Trade cfg sim sim') (hinv : SimInv cfg sim') : Trades cfg sim sim' :=
  Relation.ReflTransGen.single ⟨h, hinv⟩

theorem Filled.inv {i : Nat} {take : Int} (hf : Filled cfg sim sim' i take) (h : SimInv cfg sim) :
    SimInv cfg sim' where
  book := hf.book.valid
  mirror := hf.mirror
  icebergs ib hib := by
    rw [hf.icebergs] at hib
    exact (h.icebergs ib hib).mono hf.book.config (fun s => by rw [hf.book.touched])
  hidden := by rw [hf.hidden]; exact h.hidden
  wheel := by rw [hf.env.wheel]; exact h.wheel

/-- What stays of an entry is that entry, but for its quantity. -/
theorem mem_stays {t : Tap} {e x : Hidden} (h : x ∈ t.stays e) :
    e.qtyRemaining - t.amount e ≠ 0
      ∧ x = { e with qtyRemaining := e.qtyRemaining - t.amount e } := by
  unfold Tap.stays at h
  split at h
  · exact absurd h (by simp)
  · rename_i hne
    exact ⟨hne, List.mem_singleton.mp h⟩

/-- An entry after a tap was there before, or is what stays of the one tapped. -/
theorem EntryTapped.mem {t : Tap} {e x : Hidden} {kept l : List Hidden}
    (he : EntryTapped cfg sim sim' t e kept l) (hx : x ∈ sim'.hidden) :
    x ∈ sim.hidden ∨ (e.qtyRemaining - t.amount e ≠ 0
      ∧ x = { e with qtyRemaining := e.qtyRemaining - t.amount e }) := by
  rw [he.after] at hx
  rw [he.before]
  rcases List.mem_append.mp hx with hx | hx
  · exact Or.inl (List.mem_append_left _ hx)
  rcases List.mem_append.mp hx with hx | hx
  · exact Or.inr (mem_stays hx)
  · exact Or.inl (List.mem_append_right _ (List.mem_cons_of_mem _ hx))

theorem EntryTapped.inv {t : Tap} {e : Hidden} {kept l : List Hidden}
    (he : EntryTapped cfg sim sim' t e kept l) (h : SimInv cfg sim) : SimInv cfg sim' := by
  have hmem : e ∈ sim.hidden := by rw [he.before]; simp
  have hall : ∀ x ∈ sim'.hidden, x.Named cfg.externalRefLimit := by
    intro x hx
    rcases he.mem hx with hx | ⟨_, rfl⟩
    · exact h.hidden x hx
    · exact h.hidden e hmem
  rw [he.after] at hall ⊢
  exact
    { book := h.book, mirror := h.mirror, icebergs := h.icebergs, hidden := hall, wheel := h.wheel }

/-- An elementary change, the execution of an iceberg's slice taken with the next one. -/
inductive Exchange (cfg : SimConfig) (sim sim' : ExecutionSimulator k) : Prop where
  | idle (h : Idle sim sim')
  | repeg (h : sim' = sim.repegHidden)
  | fill (i : Nat) (take : Int) (mid : ExecutionSimulator k) (h : Filled cfg sim mid i take)
      (hs : Shown mid sim' (sim.book.order i).orderRef)
  | withdraw (i : Nat) (hown : sim.book.Own cfg.externalRefLimit i) (h : TakenOut sim sim' i)
  | tap (t : Tap) (e : Hidden) (kept l : List Hidden) (h : EntryTapped cfg sim sim' t e kept l)

abbrev Exchanges (cfg : SimConfig) : ExecutionSimulator k → ExecutionSimulator k → Prop :=
  Relation.ReflTransGen (fun a b => Exchange cfg a b ∧ SimInv cfg b)

theorem Exchanges.inv (h : SimInv cfg sim) (he : Exchanges cfg sim sim') : SimInv cfg sim' := by
  cases he with
  | refl => exact h
  | tail _ hb => exact hb.2

theorem Exchange.once (h : Exchange cfg sim sim') (hinv : SimInv cfg sim') :
    Exchanges cfg sim sim' := Relation.ReflTransGen.single ⟨h, hinv⟩

theorem Exchange.trades (he : Exchange cfg sim sim') (h : SimInv cfg sim)
    (h' : SimInv cfg sim') : Trades cfg sim sim' := by
  cases he with
  | idle hi => exact (Trade.idle hi).once h'
  | repeg hr => exact (Trade.repeg hr).once h'
  | fill i take mid hf hs =>
      have hfirst : Trades cfg sim mid := (Trade.fill i take hf).once (hf.inv h)
      rcases hs with ⟨heq, _⟩ | ⟨ib, rest, j, _, hrep⟩
      · rw [heq]
        exact hfirst
      · exact hfirst.tail ⟨.slice ib rest j hrep, h'⟩
  | withdraw i hown hw => exact (Trade.withdraw i hown hw).once h'
  | tap t e kept l ht => exact (Trade.tap t e kept l ht).once h'

/-- **Exchanges are sequences of trades.** -/
theorem Exchanges.trades (he : Exchanges cfg sim sim') (h : SimInv cfg sim) :
    Trades cfg sim sim' := by
  induction he with
  | refl => exact .refl
  | tail hab hb ih => exact ih.trans (hb.1.trades (Exchanges.inv h hab) hb.2)

end ExecutionSimulator

/-! ## The moves of a sweep -/

namespace Sweep

open ExecutionSimulator

variable {k : Nat} {cfg : SimConfig} {w w' : Sweep k} {order : SimInbound}

/-- `qty` units executed at `price` have been counted. -/
structure Counts (w w' : Sweep k) (price qty : Int) : Prop where
  filled : w'.filled = w.filled + qty
  remaining : w'.remaining = w.remaining - qty
  notional : w'.notional = (w.notional + notionalOf price qty) % 2 ^ 64

/-- One elementary move of a sweep. -/
inductive Move (cfg : SimConfig) (order : SimInbound) (w w' : Sweep k) : Prop where
  | fill (i : Nat) (l : List Nat) (take : Int) (mid : ExecutionSimulator k)
      (ht : AtTouch order w i l)
      (hstp : w.sim.book.Own cfg.externalRefLimit i →
        w.sim.stp = .none ∨ w.sim.stp = .decrement)
      (hf : Filled cfg w.sim mid i take) (htake : take = min w.remaining (w.sim.book.rem i))
      (hs : Shown mid w'.sim (w.sim.book.order i).orderRef)
      (hc : Counts w w' (w.sim.book.order i).priceTicks take)
  | tap (t : Tap) (e : Hidden) (kept l : List Hidden) (hside : e.side = order.side.opp)
      (hbound : ¬ beyond order e.priceTicks) (h : EntryTapped cfg w.sim w'.sim t e kept l)
      (hrem : t.remaining = w.remaining) (hc : Counts w w' e.priceTicks (t.amount e))
  | remove (i : Nat) (l : List Nat) (ht : AtTouch order w i l)
      (hown : w.sim.book.Own cfg.externalRefLimit i) (hstp : w.sim.stp = .cancelOldest)
      (h : Removed cfg w w' i)

abbrev Moves (cfg : SimConfig) (order : SimInbound) : Sweep k → Sweep k → Prop :=
  Relation.ReflTransGen (fun a b => Move cfg order a b ∧ SimInv cfg b.sim)

/-- An execution of the head of the touch is a fill. -/
theorem Hit.moves {mid : ExecutionSimulator k} {i : Nat} {l : List Nat} {take : Int}
    (h : Hit cfg w mid w' i take) (ht : AtTouch order w i l)
    (hstp : w.sim.book.Own cfg.externalRefLimit i → w.sim.stp = .none ∨ w.sim.stp = .decrement)
    (hpos : 0 < take) (htake : take = min w.remaining (w.sim.book.rem i)) :
    Moves cfg order w w' := by
  have hq : w.sim.book.queueOf i = i :: l := by
    rw [OrderBook.queueOf, ht.front.side, ht.front.price, ht.front.slots]
  have hfill : Filled cfg w.sim mid i take :=
    { live := ht.front.live, front := ⟨l, hq⟩, pos := hpos, le := by omega, book := h.book,
      mirror := h.mirror, icebergs := h.icebergs, hidden := h.hidden, log := h.log, env := h.env }
  exact .single ⟨.fill i l take mid ht hstp hfill htake h.shown
    ⟨h.filled, h.remaining, h.notional⟩, h.inv⟩

/-- A tap goes entry by entry. -/
theorem tap_moves (h : SimInv cfg w.sim) {price : Int} (hb : ¬ beyond order price) :
    Moves cfg order w (w.tap cfg order.side.opp price) := by
  -- the sweep as it stands with ledger `l` and tap `t`
  let at' : List Hidden → Tap → Sweep k := fun l t =>
    { w with
      sim := { w.sim with hidden := l, log := t.log }
      remaining := t.remaining, filled := w.filled + t.filled, notional := t.notional }
  have hstart : at' w.sim.hidden { log := w.sim.log, remaining := w.remaining
                                   notional := w.notional } = w := by
    show ({ w with filled := w.filled + 0 } : Sweep k) = w
    rw [Int.add_zero]
  have hind := tapLoop_induction cfg order.side.opp price
    (I := fun l t => Moves cfg order w (at' l t) ∧ SimInv cfg (at' l t).sim) ?_ w.sim.hidden []
    { log := w.sim.log, remaining := w.remaining, notional := w.notional } ?_
  · exact hind.1
  · rintro kept e l t ⟨hm, hinv⟩ hrem hs hp
    have htapped : EntryTapped cfg (at' (kept ++ e :: l) t).sim
        (at' (kept ++ (t.stays e ++ l)) (t.take cfg e)).sim t e kept l :=
      { before := rfl, log := rfl, remaining := hrem, after := rfl }
    have hnext := htapped.inv hinv
    refine ⟨hm.tail ⟨.tap t e kept l hs (by rw [hp]; exact hb) htapped rfl
      ⟨?_, rfl, rfl⟩, hnext⟩, hnext⟩
    show w.filled + (t.filled + t.amount e) = w.filled + t.filled + t.amount e
    rw [Int.add_assoc]
  · rw [List.nil_append, hstart]
    exact ⟨.refl, h⟩

/-- **A pass of the sweep is a sequence of moves.** -/
theorem step_moves (h : SimInv cfg w.sim) (hrem : 0 < w.remaining)
    (hstep : w.step cfg order = .more w') : Moves cfg order w w' := by
  have hcase := step_cases order h
  rw [hstep] at hcase
  cases hcase with
  | tap hbetter hbound => exact tap_moves h hbound
  | execute i l ht hfree =>
      have hpos : 0 < min w.remaining (w.sim.book.rem i) := by
        have := h.book.pos i ht.front.live
        omega
      obtain ⟨mid, hhit⟩ := matchHead_hit h ht.front hpos (by omega)
      have hm := hhit.moves ht (fun ho => Or.inl (hfree ho)) hpos rfl
      rw [executeSlot, executeHead_eq]
      split
      · exact hm.trans (tap_moves hhit.inv ht.bound)
      · exact hm
  | remove i l ht hown hstp =>
      have hrm := removeVictim_removed h ht.front
      exact .single ⟨.remove i l ht hown hstp hrm, hrm.inv⟩
  | decrement i l ht hown hstp =>
      have hpos : 0 < min (w.sim.book.rem i) w.remaining := by
        have := h.book.pos i ht.front.live
        omega
      obtain ⟨mid, hhit⟩ := decrementVictim_hit h ht.front rfl hpos
      exact hhit.moves ht (fun _ => Or.inr hstp) hpos (Int.min_comm _ _)

theorem Move.exchange (hm : Move cfg order w w') : Exchange cfg w.sim w'.sim := by
  cases hm with
  | fill i l take mid ht hstp hf htake hs hc => exact .fill i take mid hf hs
  | tap t e kept l hside hbound he hrem hc => exact .tap t e kept l he
  | remove i l ht hown hstp hr =>
      exact .withdraw i hown ⟨hr.book, ht.front.live, hr.icebergs, hr.hidden, hr.log, hr.env⟩

theorem Moves.exchanges (hm : Moves cfg order w w') (h : SimInv cfg w.sim) :
    Exchanges cfg w.sim w'.sim ∧ SimInv cfg w'.sim := by
  induction hm with
  | refl => exact ⟨.refl, h⟩
  | tail _ hb ih => exact ⟨ih.1.tail ⟨hb.1.exchange, hb.2⟩, hb.2⟩

end Sweep

namespace ExecutionSimulator

variable {k : Nat} {cfg : SimConfig} {sim sim' : ExecutionSimulator k} {order : SimInbound}

/-- **A sweep is a sequence of moves** that ends as its loop does. -/
theorem cross_moves (h : SimInv cfg sim) (order : SimInbound) (remaining : Int) :
    ∃ w, SimInv cfg w.sim ∧ Sweep.Moves cfg order (sim.crossStart remaining) w
      ∧ CrossCase cfg order w (sim.cross cfg order remaining) :=
  cross_rule order remaining h .refl
    (fun _ _ hinv hm hrem hstep => hm.trans (Sweep.step_moves hinv hrem hstep))

theorem settle_idle (w : Sweep k) (opp : Side) : Idle w.sim (w.settle opp) := idle_track _ _

theorem crossStart_idle (sim : ExecutionSimulator k) (remaining : Int) :
    Idle sim (sim.crossStart remaining).sim := idle_track _ _

/-! ## External flow -/

/-- An execution of external flow is a fill. -/
theorem Consumed.filled {mid : ExecutionSimulator k} {s : Side} {p : Int} {i : Nat}
    {l : List Nat} {take : Int} (hc : Consumed cfg sim mid sim' i take)
    (hf : sim.book.Front s p i l) (hpos : 0 < take) (hle : take ≤ sim.book.rem i) :
    Filled cfg sim mid i take := by
  have hq : sim.book.queueOf i = i :: l := by
    rw [OrderBook.queueOf, hf.side, hf.price, hf.slots]
  have he := hc.exec
  exact
    { live := hf.live, front := ⟨l, hq⟩, pos := hpos, le := hle, book := he.book,
      mirror := he.mirror, icebergs := he.icebergs, hidden := he.hidden, log := he.log,
      env := he.env }

theorem Consumed.exchanges {mid : ExecutionSimulator k} {s : Side} {p : Int} {i : Nat}
    {l : List Nat} {take : Int} (hc : Consumed cfg sim mid sim' i take)
    (hf : sim.book.Front s p i l) (hpos : 0 < take) (hle : take ≤ sim.book.rem i) :
    Exchanges cfg sim sim' :=
  (Exchange.fill i take mid (hc.filled hf hpos hle) hc.shown).once hc.inv

theorem consumeLevel_exchanges (h : SimInv cfg sim) (s : Side) (p q : Int) :
    Exchanges cfg sim (sim.consumeLevel cfg s p q) := by
  have hclear := h.clearSync
  obtain ⟨off, hr⟩ := subtractLevel_repositioned hclear.mirror hclear.book s p q false
  have hsub := hclear.repositioned hr
  unfold consumeLevel
  dsimp only
  generalize ({ sim.track with recentSync := [] } : TrackTable).subtractLevel sim.book s p q false
    = t at *
  have hstart : Exchanges cfg sim { sim with track := t } := (Exchange.idle (idle_track sim t)).once hsub
  have hrun : Exchanges cfg sim (consumeLoop cfg s p q q.toNat 0 { sim with track := t }).1 := by
    by_cases hq : 0 ≤ q
    · refine (consumeLoop_rule (I := fun _ x => Exchanges cfg sim x) ?_ q.toNat 0
        { sim with track := t } hsub hstart hq (by omega)).2.1
      intro a mid b applied i l take hinv hI _ hf htake hpos hc
      exact hI.trans (hc.exchanges hf hpos (by omega))
    · rw [show q.toNat = 0 by omega]
      exact hstart
  split
  · exact hrun.tail
      ⟨.idle (idle_log _ (FillLog.quiet_emitTrade _ _ _ _)), (Exchanges.inv h hrun).logged _⟩
  · exact hrun

theorem tapHidden_exchanges (h : SimInv cfg sim) (s : Side) (price remaining : Int) (notional : Nat) :
    Exchanges cfg sim (sim.tapHidden cfg s price remaining notional).1 := by
  -- the ledger and the log as the tap goes
  have hind := tapLoop_induction cfg s price
    (I := fun l t => Exchanges cfg sim { sim with hidden := l, log := t.log }) ?_ sim.hidden []
    { log := sim.log, remaining, notional } .refl
  · exact hind
  · intro kept e l t ht hrem _ _
    have htapped : EntryTapped cfg { sim with hidden := kept ++ e :: l, log := t.log }
        { sim with hidden := kept ++ (t.stays e ++ l), log := (t.take cfg e).log } t e kept l :=
      { before := rfl, log := rfl, remaining := hrem, after := rfl }
    exact ht.tail ⟨.tap t e kept l htapped, htapped.inv (Exchanges.inv h ht)⟩

theorem repegHidden_exchanges (h : SimInv cfg sim) : Exchanges cfg sim sim.repegHidden :=
  (Exchange.repeg rfl).once h.repegHidden

theorem applyExternal_exchanges (h : SimInv cfg sim) (s : Side) (p qty : Int) :
    Exchanges cfg sim (sim.applyExternal cfg s p qty) := by
  unfold applyExternal
  split
  · exact .refl
  dsimp only
  have hrep := repegHidden_exchanges h
  have hcons := hrep.trans (consumeLevel_exchanges h.repegHidden s p
    (min qty (sim.repegHidden.book.qtyAt s p)))
  split
  · exact hcons.trans (tapHidden_exchanges (Exchanges.inv h hcons) _ _ _ _)
  · exact hcons

theorem depleteLoop_exchanges (s : Side) (scaled : Nat → Nat → Int) :
    ∀ fuel lvl tick rem (sim : ExecutionSimulator k), SimInv cfg sim →
      Exchanges cfg sim (depleteLoop cfg s scaled fuel lvl tick rem sim) := by
  intro fuel
  induction fuel with
  | zero => intro lvl tick rem sim _; exact .refl
  | succ fuel ih =>
      intro lvl tick rem sim h
      rw [depleteLoop]
      split
      · exact .refl
      · dsimp only
        generalize (if 0 < sim.book.qtyAt s tick then
          min (max 1 (scaled lvl rem)) (sim.book.qtyAt s tick) else 0) = applied
        have hcons : Exchanges cfg sim
            (if 0 < applied then sim.consumeLevel cfg s tick applied else sim) := by
          split
          · exact consumeLevel_exchanges h s tick applied
          · exact .refl
        exact hcons.trans (ih _ _ _ _ (Exchanges.inv h hcons))

theorem applyDepletion_exchanges (h : SimInv cfg sim) (s : Side) (qty : Nat)
    (scaled : Nat → Nat → Int) : Exchanges cfg sim (sim.applyDepletion cfg s qty scaled) := by
  unfold applyDepletion
  split
  · exact .refl
  split
  · dsimp only
    split
    · exact .refl
    split
    · exact .refl
    · exact consumeLevel_exchanges h _ _ _
  · exact depleteLoop_exchanges s scaled _ _ _ _ _ h

theorem advanceTime_exchanges (h : SimInv cfg sim) (dtNs drawnBuy drawnSell : Nat)
    (scaled : Side → Nat → Nat → Int) :
    Exchanges cfg sim (sim.advanceTime cfg dtNs drawnBuy drawnSell scaled) := by
  unfold advanceTime
  split
  · exact .refl
  dsimp only
  have hclock : SimInv cfg { sim with
      extNow := (sim.extNow + dtNs) % 2 ^ 64
      log := { sim.log with nowHint := (sim.extNow + dtNs) % 2 ^ 64 } } :=
    { book := h.book, mirror := h.mirror, icebergs := h.icebergs, hidden := h.hidden,
      wheel := h.wheel }
  have hidle : Idle sim { sim with
      extNow := (sim.extNow + dtNs) % 2 ^ 64
      log := { sim.log with nowHint := (sim.extNow + dtNs) % 2 ^ 64 } } :=
    ⟨rfl, rfl, rfl, FillLog.quiet_nowHint _ _, rfl, rfl, rfl⟩
  have hbuy := ((Exchange.idle hidle).once hclock).trans
    (applyDepletion_exchanges hclock .buy drawnBuy (scaled .buy))
  exact hbuy.trans (applyDepletion_exchanges (Exchanges.inv h hbuy) .sell drawnSell (scaled .sell))

/-! ## Decisions -/

/-- The state a decision is taken in: the clock set, the ledger repegged, the latency drawn. -/
def opened (sim : ExecutionSimulator k) (cfg : SimConfig) (decisionTs : Nat) :
    ExecutionSimulator k :=
  let sim := (sim.withLog (fun l => { l with nowHint := decisionTs })).repegHidden
  { sim with log := (sim.log.drawJitter cfg).2 }

/-- The order as it is decided, its peg priced; `none` when there is nothing to peg to. -/
def resolved (sim : ExecutionSimulator k) (order : SimInbound) : Option SimInbound :=
  if (resolvePeg order).peg ≠ .none then
    if sim.hiddenReference (resolvePeg order).peg (resolvePeg order).pegOffsetTicks = kNoTick then
      none
    else
      some { resolvePeg order with
        price := sim.hiddenReference (resolvePeg order).peg (resolvePeg order).pegOffsetTicks }
  else some (resolvePeg order)

/-- Pricing a peg changes nothing else that matters to an order. -/
theorem resolved_fields {o : SimInbound} (h : sim.resolved order = some o) :
    o.ref = order.ref ∧ o.side = order.side ∧ o.qty = order.qty ∧ o.type = order.type := by
  obtain ⟨h1, h2, h3, h4, _⟩ := resolvePeg_ref order
  unfold resolved at h
  split at h
  · split at h
    · exact absurd h (by simp)
    · cases Option.some.inj h
      exact ⟨h1, h2, h3, h4⟩
  · cases Option.some.inj h
    exact ⟨h1, h2, h3, h4⟩

theorem opened_exchanges (h : SimInv cfg sim) (decisionTs : Nat) :
    Exchanges cfg sim (sim.opened cfg decisionTs) := by
  have h1 : SimInv cfg (sim.withLog (fun l => { l with nowHint := decisionTs })) := h.logged _
  have hclock : Exchanges cfg sim (sim.withLog (fun l => { l with nowHint := decisionTs })) :=
    (Exchange.idle (idle_log sim (FillLog.quiet_nowHint _ _))).once h1
  have hrep := hclock.trans (repegHidden_exchanges h1)
  exact hrep.tail
    ⟨.idle (idle_log _ (FillLog.quiet_drawJitter _ cfg)), h1.repegHidden.logged _⟩

/-- **What a decision can do**, by the exit it takes. -/
inductive DecideCase (cfg : SimConfig) (sim : ExecutionSimulator k) (order : SimInbound)
    (decisionTs : Nat) : ExecutionSimulator k → Prop where
  /-- Pegged, and nothing to peg to. -/
  | unpriced (vis : Nat) (hr : sim.resolved order = none) :
      DecideCase cfg sim order decisionTs
        ((sim.opened cfg decisionTs).pushDecision {} vis (resolvePeg order))
  | duplicate (o : SimInbound) (vis : Nat) (hr : sim.resolved order = some o)
      (hdup : (sim.book.findHandle order.ref).index ≠ kNullIndex) :
      DecideCase cfg sim order decisionTs ((sim.opened cfg decisionTs).pushDecision {} vis o)
  | wouldCross (o : SimInbound) (vis : Nat) (hr : sim.resolved order = some o)
      (hfree : (sim.book.findHandle order.ref).index = kNullIndex)
      (htype : order.type = .postOnly) (hcross : (sim.opened cfg decisionTs).crosses o) :
      DecideCase cfg sim order decisionTs
        ((sim.opened cfg decisionTs).pushDecision { kind := .rejectedWouldCross } vis o)
  /-- Nothing to match: the order is placed as it is. -/
  | placed (o : SimInbound) (vis : Nat) (sim' : ExecutionSimulator k)
      (hr : sim.resolved order = some o)
      (hfree : (sim.book.findHandle order.ref).index = kNullIndex)
      (hpost : ¬ (order.type = .postOnly ∧ (sim.opened cfg decisionTs).crosses o))
      (hno : ¬ ((sim.opened cfg decisionTs).crosses o ∧ 0 < o.qty))
      (hf : FinishCase (sim.opened cfg decisionTs) o o.qty { decisionTs } vis sim') :
      DecideCase cfg sim order decisionTs sim'
  /-- The sweep has met an order of the strategy and stops there. -/
  | stopped (o : SimInbound) (vis : Nat) (w : Sweep k) (hr : sim.resolved order = some o)
      (hfree : (sim.book.findHandle order.ref).index = kNullIndex)
      (htype : order.type ≠ .postOnly)
      (hcross : (sim.opened cfg decisionTs).crosses o) (hpos : 0 < o.qty)
      (hm : Sweep.Moves cfg o ((sim.opened cfg decisionTs).crossStart o.qty) w)
      (hinv : SimInv cfg w.sim) (hrem : 0 < w.remaining) (hstop : w.step cfg o = .stpStop) :
      DecideCase cfg sim order decisionTs
        ((w.sim.counted o w.filled).pushDecision
          { sweepDecision cfg decisionTs w.filled 0 with
            kind := .rejectedStp, cancelledQty := toU32 (o.qty - w.filled) } vis o)
  | swept (o : SimInbound) (vis : Nat) (w : Sweep k) (sim' : ExecutionSimulator k)
      (hr : sim.resolved order = some o)
      (hfree : (sim.book.findHandle order.ref).index = kNullIndex)
      (htype : order.type ≠ .postOnly)
      (hcross : (sim.opened cfg decisionTs).crosses o) (hpos : 0 < o.qty)
      (hm : Sweep.Moves cfg o ((sim.opened cfg decisionTs).crossStart o.qty) w)
      (hinv : SimInv cfg w.sim)
      (hend : w.remaining ≤ 0 ∨ (0 < w.remaining ∧ w.step cfg o = .leave))
      (hf : FinishCase ((w.settle o.side.opp).counted o w.filled) o (o.qty - w.filled)
        (sweepDecision cfg decisionTs w.filled w.notional) vis sim') :
      DecideCase cfg sim order decisionTs sim'

theorem decideResolved_cases (h : SimInv cfg sim) {o : SimInbound} {decisionTs : Nat}
    (hr : sim.resolved order = some o) :
    DecideCase cfg sim order decisionTs
      ((sim.withLog (fun l => { l with nowHint := decisionTs })).repegHidden.decideResolved cfg o
        decisionTs) := by
  obtain ⟨href, _, _, htype⟩ := resolved_fields hr
  have hopen := Exchanges.inv h (opened_exchanges h decisionTs)
  have heq : (sim.withLog (fun l => { l with nowHint := decisionTs })).repegHidden.decideResolved
      cfg o decisionTs
      = if ((sim.opened cfg decisionTs).book.findHandle o.ref).index ≠ kNullIndex then
          (sim.opened cfg decisionTs).pushDecision {}
            ((decisionTs + cfg.wireLatencyNs + cfg.jitter sim.log.drawn) % 2 ^ 64) o
        else if o.type = .postOnly ∧ (sim.opened cfg decisionTs).crosses o then
          (sim.opened cfg decisionTs).pushDecision { kind := .rejectedWouldCross }
            ((decisionTs + cfg.wireLatencyNs + cfg.jitter sim.log.drawn) % 2 ^ 64) o
        else if (sim.opened cfg decisionTs).crosses o ∧ 0 < o.qty then
          (sim.opened cfg decisionTs).sweep cfg o decisionTs
            ((decisionTs + cfg.wireLatencyNs + cfg.jitter sim.log.drawn) % 2 ^ 64)
        else
          (sim.opened cfg decisionTs).finish o o.qty { decisionTs }
            ((decisionTs + cfg.wireLatencyNs + cfg.jitter sim.log.drawn) % 2 ^ 64) := rfl
  have hbook : (sim.opened cfg decisionTs).book.findHandle o.ref = sim.book.findHandle order.ref :=
    by rw [href]; rfl
  rw [heq, hbook]
  by_cases hdup : (sim.book.findHandle order.ref).index ≠ kNullIndex
  · rw [if_pos hdup]
    exact .duplicate o _ hr hdup
  rw [if_neg hdup]
  rw [not_not] at hdup
  by_cases hpost : o.type = .postOnly ∧ (sim.opened cfg decisionTs).crosses o
  · rw [if_pos hpost]
    exact .wouldCross o _ hr hdup (by rw [← htype]; exact hpost.1) hpost.2
  rw [if_neg hpost]
  by_cases hgo : (sim.opened cfg decisionTs).crosses o ∧ 0 < o.qty
  · rw [if_pos hgo, sweep_eq]
    have hnp : order.type ≠ .postOnly := fun hp => hpost ⟨by rw [htype]; exact hp, hgo.1⟩
    obtain ⟨w, hw, hm, hc⟩ := cross_moves hopen o o.qty
    generalize (sim.opened cfg decisionTs).cross cfg o o.qty = c at *
    cases hc with
    | stopped hrem hstop => exact .stopped o _ w hr hdup hnp hgo.1 hgo.2 hm hw hrem hstop
    | done hend =>
        have hset : SimInv cfg ((w.settle o.side.opp).counted o w.filled) :=
          (Sweep.settle_inv hw _).logged _
        exact .swept o _ w _ hr hdup hnp hgo.1 hgo.2 hm hw hend (finish_cases hset _ _ _ _)
  · rw [if_neg hgo]
    rw [htype] at hpost
    exact .placed o _ _ hr hdup hpost hgo (finish_cases hopen _ _ _ _)

theorem decide_cases (h : SimInv cfg sim) (order : SimInbound) (decisionTs : Nat) :
    DecideCase cfg sim order decisionTs (sim.decide cfg order decisionTs) := by
  have href : (sim.withLog (fun l => { l with nowHint := decisionTs })).repegHidden.hiddenReference
      (resolvePeg order).peg (resolvePeg order).pegOffsetTicks
      = sim.hiddenReference (resolvePeg order).peg (resolvePeg order).pegOffsetTicks := rfl
  unfold decide
  dsimp only
  rw [href]
  by_cases hpeg : (resolvePeg order).peg ≠ .none
  · rw [if_pos hpeg]
    by_cases hpx : sim.hiddenReference (resolvePeg order).peg (resolvePeg order).pegOffsetTicks
        = kNoTick
    · rw [if_pos hpx]
      exact .unpriced _ (by rw [resolved, if_pos hpeg, if_pos hpx])
    · rw [if_neg hpx]
      exact decideResolved_cases h (by rw [resolved, if_pos hpeg, if_neg hpx])
  · rw [if_neg hpeg]
    exact decideResolved_cases h (by rw [resolved, if_neg hpeg])

end ExecutionSimulator

end Mog
