import Mog.Book.Contracts
import Mog.Lib.Journal
import Mog.Sim.Reach

/-!
# Time travel

A session journals every mutating call it makes on its simulator and rebuilds any
earlier state by executing the journal again. Random draws come from one generator,
consumed in call order: what a call draws is a function of the generator, the
simulator and the call, and nothing else.

A journal entry keeps five fields of a submitted order. The fields it leaves out are
those of pegged and non-displayed orders, so such an order is replayed as a displayed
one; without them, the journal replays every history.
-/

namespace Mog

open Journal
open ExecutionSimulator (deskConfig)

inductive SimOpKind where
  | seedExternal
  | seedIceberg
  | setStp
  | submit
  | runUntil
  | drain
  | applyExternal
  | advanceTime
  | cancelStrategy
  | replaceStrategy
deriving DecidableEq, Repr

/-- One journaled call; which fields count depends on the kind. -/
structure SimOp where
  kind : SimOpKind
  ref : Nat := 0
  ref2 : Nat := 0
  side : Side := .buy
  qty : Int := 0
  price : Int := 0
  num : Int := 0
  num2 : Int := 0
  ts : Nat := 0
  type : SimOrderType := .dayLimit
  stp : StpMode := .none
deriving DecidableEq, Repr

/-- The calls a session journals, as they are made. -/
inductive SessionCall where
  | seedExternal (ref : Nat) (s : Side) (qty price : Int)
  | seedIceberg (spec : IcebergSpec)
  | setStpMode (m : StpMode)
  | submit (order : SimInbound) (arrivalTs : Nat)
  | runUntil (untilTs : Nat)
  | drain
  | applyExternal (s : Side) (price qty : Int)
  | advanceTime (dtNs : Nat)
  | cancelStrategy (ref : Nat)
  | replaceStrategy (orig fresh : Nat) (qty price : Int)
deriving DecidableEq, Repr

/-- What one call draws: jitters, depletions and their weighted parts. -/
structure Draws where
  jitter : Nat → Nat := fun _ => 0
  drawnBuy : Nat := 0
  drawnSell : Nat := 0
  scaled : Side → Nat → Nat → Int := fun _ _ _ => 0

/-- The seeded generator with the flow state that shapes its draws. -/
structure DrawSource (kPageShift : Nat) (R : Type) where
  seeded : R
  draw : R → ExecutionSimulator kPageShift → SessionCall → Draws × R

/-- A simulator and the generator it draws from. -/
structure Engine (kPageShift : Nat) (R : Type) where
  sim : ExecutionSimulator kPageShift
  rng : R

namespace Engine

variable {k : Nat} {R : Type} (src : DrawSource k R) (cfg : SimConfig) (e : Engine k R)

def init : Engine k R := { sim := .init cfg, rng := src.seeded }

def seedExternal (ref : Nat) (s : Side) (qty price : Int) : BookTick × Engine k R :=
  let r := e.sim.seedExternal ref s qty price
  (r.1, { e with sim := r.2 })

def seedIceberg (spec : IcebergSpec) : BookTick × Engine k R :=
  let r := e.sim.seedIceberg spec
  (r.1, { e with sim := r.2 })

def setStpMode (m : StpMode) : Engine k R := { e with sim := e.sim.setStpMode m }

/-- Run `f` under what the call `c` draws. -/
def drawing (c : SessionCall)
    (f : SimConfig → Draws → ExecutionSimulator k → ExecutionSimulator k) : Engine k R :=
  let d := src.draw e.rng e.sim c
  { sim := f { cfg with jitter := d.1.jitter } d.1 e.sim, rng := d.2 }

def submit (order : SimInbound) (arrivalTs : Nat) : Nat × Engine k R :=
  let d := src.draw e.rng e.sim (.submit order arrivalTs)
  ((e.sim.submit { cfg with jitter := d.1.jitter } order arrivalTs).1,
    e.drawing src cfg (.submit order arrivalTs) fun cfg _ sim => (sim.submit cfg order arrivalTs).2)

def runUntil (untilTs : Nat) : Engine k R :=
  e.drawing src cfg (.runUntil untilTs) fun cfg _ sim => sim.runUntil cfg untilTs

def drain : Engine k R := e.drawing src cfg .drain fun cfg _ sim => sim.drain cfg

def applyExternal (s : Side) (price qty : Int) : Engine k R :=
  e.drawing src cfg (.applyExternal s price qty) fun cfg _ sim => sim.applyExternal cfg s price qty

def advanceTime (dtNs : Nat) : Engine k R :=
  e.drawing src cfg (.advanceTime dtNs) fun cfg d sim =>
    sim.advanceTime cfg dtNs d.drawnBuy d.drawnSell d.scaled

def cancelStrategy (ref : Nat) : Bool × Engine k R :=
  let r := e.sim.cancelStrategy ref
  (r.1, { e with sim := r.2 })

def replaceStrategy (orig fresh : Nat) (qty price : Int) : BookTick × Engine k R :=
  let r := e.sim.replaceStrategy orig fresh qty price
  (r.1, { e with sim := r.2 })

/-- A plain simulator executes a call. -/
def exec : SessionCall → Engine k R
  | .seedExternal ref s qty price => (e.seedExternal ref s qty price).2
  | .seedIceberg spec => (e.seedIceberg spec).2
  | .setStpMode m => e.setStpMode m
  | .submit order arrivalTs => (e.submit src cfg order arrivalTs).2
  | .runUntil untilTs => e.runUntil src cfg untilTs
  | .drain => e.drain src cfg
  | .applyExternal s price qty => e.applyExternal src cfg s price qty
  | .advanceTime dtNs => e.advanceTime src cfg dtNs
  | .cancelStrategy ref => (e.cancelStrategy ref).2
  | .replaceStrategy orig fresh qty price => (e.replaceStrategy orig fresh qty price).2

/-- A call succeeds. -/
def Succeeds : SessionCall → Prop
  | .seedExternal ref s qty price => (e.seedExternal ref s qty price).1.ok
  | .seedIceberg spec => (e.seedIceberg spec).1.ok
  | .cancelStrategy ref => (e.cancelStrategy ref).1 = true
  | .replaceStrategy orig fresh qty price => (e.replaceStrategy orig fresh qty price).1.ok
  | _ => True

instance (c : SessionCall) : Decidable (e.Succeeds c) :=
  match c with
  | .seedExternal ref s qty price => inferInstanceAs (Decidable (e.seedExternal ref s qty price).1.ok)
  | .seedIceberg spec => inferInstanceAs (Decidable (e.seedIceberg spec).1.ok)
  | .cancelStrategy ref => inferInstanceAs (Decidable ((e.cancelStrategy ref).1 = true))
  | .replaceStrategy orig fresh qty price =>
      inferInstanceAs (Decidable (e.replaceStrategy orig fresh qty price).1.ok)
  | .setStpMode _ | .submit _ _ | .runUntil _ | .drain | .applyExternal _ _ _ | .advanceTime _ =>
      .isTrue trivial

/-- A plain simulator that executes the calls in order. -/
def plain (calls : List SessionCall) : Engine k R :=
  calls.foldl (fun e c => e.exec src cfg c) (init src cfg)

end Engine

structure TimeTravelSession (kPageShift : Nat) (R : Type) where
  engine : Engine kPageShift R
  log : List SimOp := []
  cursor : Nat := 0

namespace TimeTravelSession

variable {k : Nat} {R : Type} (src : DrawSource k R) (cfg : SimConfig) (ts : TimeTravelSession k R)

def init : TimeTravelSession k R := { engine := .init src cfg }

def opCount : Nat := ts.log.length

/-- Append to the journal; what lies past the cursor is erased first. -/
def record (op : SimOp) : TimeTravelSession k R :=
  let log := if ts.cursor < ts.log.length then ts.log.take ts.cursor else ts.log
  { ts with log := log ++ [op], cursor := ts.cursor + 1 }

/-! ## Recorded calls -/

def seedExternal (ref : Nat) (s : Side) (qty price : Int) : BookTick × TimeTravelSession k R :=
  let t := ts.engine.seedExternal ref s qty price
  let ts := { ts with engine := t.2 }
  (t.1, if t.1.ok then ts.record { kind := .seedExternal, ref, side := s, qty, price } else ts)

def seedIceberg (spec : IcebergSpec) : BookTick × TimeTravelSession k R :=
  let t := ts.engine.seedIceberg spec
  let ts := { ts with engine := t.2 }
  (t.1,
    if t.1.ok then
      ts.record
        { kind := .seedIceberg, ref := spec.ref, side := spec.side, price := spec.price
          num := spec.display, num2 := spec.total }
    else ts)

def setStpMode (m : StpMode) : TimeTravelSession k R :=
  ({ ts with engine := ts.engine.setStpMode m } : TimeTravelSession k R).record
    { kind := .setStp, stp := m }

def submit (order : SimInbound) (arrivalTs : Nat) : Nat × TimeTravelSession k R :=
  let d := ts.engine.submit src cfg order arrivalTs
  (d.1,
    ({ ts with engine := d.2 } : TimeTravelSession k R).record
      { kind := .submit, ref := order.ref, side := order.side, qty := order.qty
        price := order.price, ts := arrivalTs, type := order.type })

def runUntil (untilTs : Nat) : TimeTravelSession k R :=
  ({ ts with engine := ts.engine.runUntil src cfg untilTs } : TimeTravelSession k R).record
    { kind := .runUntil, ts := untilTs }

def drain : TimeTravelSession k R :=
  ({ ts with engine := ts.engine.drain src cfg } : TimeTravelSession k R).record { kind := .drain }

def applyExternal (s : Side) (price qty : Int) : TimeTravelSession k R :=
  ({ ts with engine := ts.engine.applyExternal src cfg s price qty } :
    TimeTravelSession k R).record { kind := .applyExternal, side := s, price, num := qty }

def advanceTime (dtNs : Nat) : TimeTravelSession k R :=
  ({ ts with engine := ts.engine.advanceTime src cfg dtNs } : TimeTravelSession k R).record
    { kind := .advanceTime, ts := dtNs }

def cancelStrategy (ref : Nat) : Bool × TimeTravelSession k R :=
  let r := ts.engine.cancelStrategy ref
  let ts := { ts with engine := r.2 }
  (r.1, if r.1 then ts.record { kind := .cancelStrategy, ref } else ts)

def replaceStrategy (orig fresh : Nat) (qty price : Int) : BookTick × TimeTravelSession k R :=
  let t := ts.engine.replaceStrategy orig fresh qty price
  let ts := { ts with engine := t.2 }
  (t.1,
    if t.1.ok then ts.record { kind := .replaceStrategy, ref := orig, ref2 := fresh, qty, price }
    else ts)

/-- Make a call. -/
def call : SessionCall → TimeTravelSession k R
  | .seedExternal ref s qty price => (ts.seedExternal ref s qty price).2
  | .seedIceberg spec => (ts.seedIceberg spec).2
  | .setStpMode m => ts.setStpMode m
  | .submit order arrivalTs => (ts.submit src cfg order arrivalTs).2
  | .runUntil untilTs => ts.runUntil src cfg untilTs
  | .drain => ts.drain src cfg
  | .applyExternal s price qty => ts.applyExternal src cfg s price qty
  | .advanceTime dtNs => ts.advanceTime src cfg dtNs
  | .cancelStrategy ref => (ts.cancelStrategy ref).2
  | .replaceStrategy orig fresh qty price => (ts.replaceStrategy orig fresh qty price).2

/-! ## Travel -/

/-- Execute a journal entry. -/
def apply (e : Engine k R) (op : SimOp) : Engine k R :=
  match op.kind with
  | .seedExternal => (e.seedExternal op.ref op.side op.qty op.price).2
  | .seedIceberg => (e.seedIceberg ⟨op.ref, op.side, op.price, op.num, op.num2⟩).2
  | .setStp => e.setStpMode op.stp
  | .submit =>
      (e.submit src cfg
        { ref := op.ref, side := op.side, qty := op.qty, price := op.price, type := op.type }
        op.ts).2
  | .runUntil => e.runUntil src cfg op.ts
  | .drain => e.drain src cfg
  | .applyExternal => e.applyExternal src cfg op.side op.price op.num
  | .advanceTime => e.advanceTime src cfg op.ts
  | .cancelStrategy => (e.cancelStrategy op.ref).2
  | .replaceStrategy => (e.replaceStrategy op.ref op.ref2 op.qty op.price).2

/-- The loop of `seek` and `fork_at`: apply the next `n` entries. -/
def applyNext (src : DrawSource k R) (cfg : SimConfig) :
    Nat → TimeTravelSession k R → TimeTravelSession k R
  | 0, ts => ts
  | n + 1, ts =>
      match ts.log[ts.cursor]? with
      | none => ts
      | some op =>
          applyNext src cfg n
            { ts with engine := apply src cfg ts.engine op, cursor := ts.cursor + 1 }

/-- Move the cursor to `n`. Rewinding starts from scratch. -/
def seek (n : Nat) : TimeTravelSession k R :=
  let ts := if n < ts.cursor then { ts with engine := .init src cfg, cursor := 0 } else ts
  applyNext src cfg (n - ts.cursor) ts

/-- Hand the first `n` entries to a fresh branch. -/
def forkAt (n : Nat) (branch : TimeTravelSession k R) : TimeTravelSession k R :=
  let branch := { branch with log := ts.log.take n }
  applyNext src cfg (n - branch.cursor) branch

end TimeTravelSession

/-! ## A failed call does nothing -/

theorem OrderBook.Told.book_eq {k : Nat} {b : OrderBook k} {r : BookResult k} (h : b.Told r)
    (hf : ¬ r.tick.ok) : r.book = b := by
  rcases h with hok | ⟨e, rfl⟩
  · exact absurd hok hf
  · rfl

namespace ExecutionSimulator

variable {k : Nat} (sim : ExecutionSimulator k)

theorem seedExternal_failed {ref : Nat} {s : Side} {qty price : Int}
    (hf : ¬ (sim.seedExternal ref s qty price).1.ok) :
    (sim.seedExternal ref s qty price).2 = sim := by
  have hb := (sim.book.told_add ref s qty price).book_eq hf
  show { sim with book := (sim.book.add ref s qty price).book } = sim
  rw [hb]

theorem seedIceberg_failed {spec : IcebergSpec} (hf : ¬ (sim.seedIceberg spec).1.ok) :
    (sim.seedIceberg spec).2 = sim := by
  unfold seedIceberg at hf ⊢
  dsimp only at hf ⊢
  by_cases hok : (sim.book.add spec.ref spec.side spec.display spec.price).tick.ok
  · rw [if_neg (not_not.mpr hok)] at hf
    exact absurd hok hf
  · rw [if_pos hok]
    show { sim with book := (sim.book.add spec.ref spec.side spec.display spec.price).book } = sim
    rw [(sim.book.told_add spec.ref spec.side spec.display spec.price).book_eq hok]

theorem cancelStrategy_failed {ref : Nat} (hf : (sim.cancelStrategy ref).1 ≠ true) :
    (sim.cancelStrategy ref).2 = sim := by
  unfold cancelStrategy at hf ⊢
  dsimp only at hf ⊢
  by_cases hidx : sim.trackedIndexOf ref = kNullIndex
  · rw [if_pos hidx] at hf ⊢
    by_cases hany : sim.hidden.any (fun h => h.ref = ref)
    · rw [if_pos hany] at hf
      exact absurd rfl hf
    · rw [if_neg hany]
  · rw [if_neg hidx] at hf ⊢
    by_cases hok : (sim.book.remove ref).tick.ok
    · rw [if_neg (not_not.mpr hok)] at hf
      exact absurd rfl hf
    · rw [if_pos hok]
      show { sim with book := (sim.book.remove ref).book } = sim
      rw [(sim.book.told_remove ref).book_eq hok]

theorem replaceStrategy_failed {orig fresh : Nat} {qty price : Int}
    (hf : ¬ (sim.replaceStrategy orig fresh qty price).1.ok) :
    (sim.replaceStrategy orig fresh qty price).2 = sim := by
  unfold replaceStrategy at hf ⊢
  dsimp only at hf ⊢
  by_cases hidx : sim.trackedIndexOf orig = kNullIndex
  · rw [if_pos hidx] at hf ⊢
    split
    · next h heq =>
        rw [heq] at hf
        exact absurd TickKind.noConfusion hf
    · rfl
  · rw [if_neg hidx] at hf ⊢
    split
    · rfl
    · next s hs =>
        rw [hs] at hf
        dsimp only at hf
        by_cases hok : (sim.book.replace orig fresh qty price).tick.ok
        · rw [if_neg (not_not.mpr hok)] at hf
          exact absurd hok hf
        · rw [if_pos hok]
          show { sim with book := (sim.book.replace orig fresh qty price).book } = sim
          rw [(sim.book.told_replace orig fresh qty price).book_eq hok]

end ExecutionSimulator

namespace Engine

variable {k : Nat} {R : Type} {src : DrawSource k R} {cfg : SimConfig} {e : Engine k R}

theorem exec_failed {c : SessionCall} (hf : ¬ e.Succeeds c) : e.exec src cfg c = e := by
  cases c with
  | seedExternal ref s qty price =>
      show { e with sim := (e.sim.seedExternal ref s qty price).2 } = e
      rw [e.sim.seedExternal_failed hf]
  | seedIceberg spec =>
      show { e with sim := (e.sim.seedIceberg spec).2 } = e
      rw [e.sim.seedIceberg_failed hf]
  | cancelStrategy ref =>
      show { e with sim := (e.sim.cancelStrategy ref).2 } = e
      rw [e.sim.cancelStrategy_failed hf]
  | replaceStrategy orig fresh qty price =>
      show { e with sim := (e.sim.replaceStrategy orig fresh qty price).2 } = e
      rw [e.sim.replaceStrategy_failed hf]
  | setStpMode => exact absurd trivial hf
  | submit => exact absurd trivial hf
  | runUntil => exact absurd trivial hf
  | drain => exact absurd trivial hf
  | applyExternal => exact absurd trivial hf
  | advanceTime => exact absurd trivial hf

theorem plain_append (l : List SessionCall) (c : SessionCall) :
    plain src cfg (l ++ [c]) = (plain src cfg l).exec src cfg c := by
  rw [plain, List.foldl_append]
  rfl

end Engine

/-! ## The journal -/

/-- The fields that an entry of the journal leaves out have their defaults. -/
def SimInbound.Displayed (order : SimInbound) : Prop :=
  order.peg = .none ∧ order.pegOffsetTicks = 0 ∧ order.nonDisplayed = false

/-- A submitted order is displayed and not pegged. -/
def SessionCall.Displayed : SessionCall → Prop
  | .submit order _ => order.Displayed
  | _ => True

/-- The entry of a call. -/
def SimOp.entry : SessionCall → SimOp
  | .seedExternal ref s qty price => { kind := .seedExternal, ref, side := s, qty, price }
  | .seedIceberg spec =>
      { kind := .seedIceberg, ref := spec.ref, side := spec.side, price := spec.price
        num := spec.display, num2 := spec.total }
  | .setStpMode m => { kind := .setStp, stp := m }
  | .submit order arrivalTs =>
      { kind := .submit, ref := order.ref, side := order.side, qty := order.qty
        price := order.price, ts := arrivalTs, type := order.type }
  | .runUntil untilTs => { kind := .runUntil, ts := untilTs }
  | .drain => { kind := .drain }
  | .applyExternal s price qty => { kind := .applyExternal, side := s, price, num := qty }
  | .advanceTime dtNs => { kind := .advanceTime, ts := dtNs }
  | .cancelStrategy ref => { kind := .cancelStrategy, ref }
  | .replaceStrategy orig fresh qty price =>
      { kind := .replaceStrategy, ref := orig, ref2 := fresh, qty, price }

namespace TimeTravelSession

variable {k : Nat} {R : Type} {src : DrawSource k R} {cfg : SimConfig} {ts : TimeTravelSession k R}

/-- **A call is executed, and journaled when it succeeds.** -/
theorem call_eq (c : SessionCall) :
    ts.call src cfg c
      = if ts.engine.Succeeds c then
          ({ ts with engine := ts.engine.exec src cfg c } : TimeTravelSession k R).record (.entry c)
        else ts := by
  have hfail : ¬ ts.engine.Succeeds c → { ts with engine := ts.engine.exec src cfg c } = ts := by
    intro hf
    rw [Engine.exec_failed hf]
  by_cases hok : ts.engine.Succeeds c
  · rw [if_pos hok]
    cases c with
    | seedExternal => exact if_pos hok
    | seedIceberg => exact if_pos hok
    | cancelStrategy => exact if_pos hok
    | replaceStrategy => exact if_pos hok
    | setStpMode => rfl
    | submit => rfl
    | runUntil => rfl
    | drain => rfl
    | applyExternal => rfl
    | advanceTime => rfl
  · rw [if_neg hok]
    refine Eq.trans ?_ (hfail hok)
    cases c with
    | seedExternal => exact if_neg hok
    | seedIceberg => exact if_neg hok
    | cancelStrategy => exact if_neg hok
    | replaceStrategy => exact if_neg hok
    | setStpMode => exact absurd trivial hok
    | submit => exact absurd trivial hok
    | runUntil => exact absurd trivial hok
    | drain => exact absurd trivial hok
    | applyExternal => exact absurd trivial hok
    | advanceTime => exact absurd trivial hok

theorem record_log (op : SimOp) : (ts.record op).log = ts.log.take ts.cursor ++ [op] := by
  unfold record
  dsimp only
  split
  · rfl
  · next h => rw [List.take_of_length_le (Nat.not_lt.mp h)]

/-- **The journal keeps a displayed order whole.** -/
theorem faithful_entry {c : SessionCall} (hc : c.Displayed) :
    Journal.Faithful (fun e c => Engine.exec src cfg e c) (apply src cfg) SimOp.entry c := by
  intro e
  cases c with
  | submit order arrivalTs =>
      obtain ⟨ref, side, qty, price, type, peg, off, nd⟩ := order
      obtain ⟨hpeg, hoff, hnd⟩ := hc
      dsimp only at hpeg hoff hnd
      subst hpeg hoff hnd
      rfl
  | seedExternal => rfl
  | seedIceberg => rfl
  | setStpMode => rfl
  | runUntil => rfl
  | drain => rfl
  | applyExternal => rfl
  | advanceTime => rfl
  | cancelStrategy => rfl
  | replaceStrategy => rfl

/-- Replaying the entries of displayed calls is making the calls. -/
theorem replay_plain {l : List SessionCall} (hl : ∀ c ∈ l, c.Displayed) :
    (l.map SimOp.entry).foldl (apply src cfg) (.init src cfg) = Engine.plain src cfg l :=
  foldl_entries (fun c hc => faithful_entry (hl c hc)) _

/-- The loop of `seek` and `fork_at` applies the entries it passes. -/
theorem applyNext_eq {n : Nat} (h : ts.cursor + n ≤ ts.log.length) :
    applyNext src cfg n ts
      = { ts with
          engine := ((ts.log.drop ts.cursor).take n).foldl (apply src cfg) ts.engine
          cursor := ts.cursor + n } := by
  induction n generalizing ts with
  | zero => rfl
  | succ n ih =>
      have hlt : ts.cursor < ts.log.length := by omega
      rw [applyNext, List.getElem?_eq_getElem hlt]
      dsimp only
      rw [ih (by show ts.cursor + 1 + n ≤ ts.log.length; omega), List.drop_eq_getElem_cons hlt,
        List.take_succ_cons, List.foldl_cons]
      dsimp only
      rw [Nat.add_assoc, Nat.add_comm 1 n]

/-! ## Runs -/

/-- `h` is the surviving history behind the session: the successful calls as they were
made, less those a later call has discarded. -/
inductive Travels (src : DrawSource k R) (cfg : SimConfig) (P : SessionCall → Prop) :
    TimeTravelSession k R → History SessionCall → Prop where
  | start : Travels src cfg P (init src cfg) {}
  | kept {ts : TimeTravelSession k R} {h : History SessionCall} (hrun : Travels src cfg P ts h)
      (c : SessionCall) (hc : P c) (hok : ts.engine.Succeeds c) :
      Travels src cfg P (ts.call src cfg c) (h.record c)
  | failed {ts : TimeTravelSession k R} {h : History SessionCall} (hrun : Travels src cfg P ts h)
      (c : SessionCall) (hf : ¬ ts.engine.Succeeds c) : Travels src cfg P (ts.call src cfg c) h
  | seek {ts : TimeTravelSession k R} {h : History SessionCall} (hrun : Travels src cfg P ts h)
      (n : Nat) (hn : n ≤ ts.opCount) : Travels src cfg P (ts.seek src cfg n) (h.seek n)

/-- The session stands where its surviving history has led a plain simulator. -/
structure Tracks (src : DrawSource k R) (cfg : SimConfig) (ts : TimeTravelSession k R)
    (h : History SessionCall) : Prop where
  log : ts.log = h.made.map SimOp.entry
  cursor : ts.cursor = h.cursor
  within : h.Within
  engine : ts.engine = Engine.plain src cfg h.visible

variable {h : History SessionCall}

theorem Tracks.init : Tracks src cfg (init src cfg) {} := ⟨rfl, rfl, Nat.le_refl _, rfl⟩

theorem Tracks.opCount (ht : Tracks src cfg ts h) : ts.opCount = h.made.length := by
  rw [TimeTravelSession.opCount, ht.log, List.length_map]

theorem Tracks.call (ht : Tracks src cfg ts h) {c : SessionCall} (hok : ts.engine.Succeeds c) :
    Tracks src cfg (ts.call src cfg c) (h.record c) := by
  rw [call_eq, if_pos hok]
  refine ⟨?_, ?_, ht.within.record c, ?_⟩
  · rw [record_log, ht.log, ht.cursor, ← List.map_take]
    show _ = List.map SimOp.entry (h.visible ++ [c])
    rw [List.map_append]
    rfl
  · show ts.cursor + 1 = h.cursor + 1
    rw [ht.cursor]
  · rw [ht.within.visible_record, Engine.plain_append, ← ht.engine]
    rfl

/-- Applying entries `ts.cursor` to `n` of the journal. -/
theorem Tracks.applyNext (ht : Tracks src cfg ts h) (hd : ∀ c ∈ h.made, c.Displayed) {n : Nat}
    (hle : ts.cursor ≤ n) (hn : n ≤ ts.opCount) :
    applyNext src cfg (n - ts.cursor) ts
      = { ts with engine := Engine.plain src cfg (h.made.take n), cursor := n } := by
  have htake : ∀ m, (ts.log.take m).foldl (apply src cfg) (.init src cfg)
      = Engine.plain src cfg (h.made.take m) := by
    intro m
    rw [ht.log, ← List.map_take]
    exact replay_plain (fun c hc => hd c (List.mem_of_mem_take hc))
  have hstart : ts.engine = (ts.log.take ts.cursor).foldl (apply src cfg) (.init src cfg) := by
    rw [ht.engine, htake, ht.cursor, History.visible]
  rw [applyNext_eq (by rw [Nat.add_sub_cancel' hle]; exact hn), Nat.add_sub_cancel' hle, hstart,
    ← foldl_take_of_le _ _ _ hle, htake]

theorem Tracks.seek_eq (ht : Tracks src cfg ts h) (hd : ∀ c ∈ h.made, c.Displayed) {n : Nat}
    (hn : n ≤ ts.opCount) :
    ts.seek src cfg n = { ts with engine := Engine.plain src cfg (h.made.take n), cursor := n } := by
  unfold TimeTravelSession.seek
  by_cases hback : n < ts.cursor
  · rw [if_pos hback]
    have hzero : Tracks src cfg { ts with engine := .init src cfg, cursor := 0 } (h.seek 0) :=
      ⟨ht.log, rfl, Nat.zero_le _, rfl⟩
    exact hzero.applyNext hd (Nat.zero_le _) hn
  · rw [if_neg hback]
    exact ht.applyNext hd (Nat.not_lt.mp hback) hn

theorem Tracks.seek (ht : Tracks src cfg ts h) (hd : ∀ c ∈ h.made, c.Displayed) {n : Nat}
    (hn : n ≤ ts.opCount) : Tracks src cfg (ts.seek src cfg n) (h.seek n) := by
  rw [ht.seek_eq hd hn]
  exact ⟨ht.log, rfl, by rw [ht.opCount] at hn; exact hn, rfl⟩

theorem Tracks.fork_eq (ht : Tracks src cfg ts h) (hd : ∀ c ∈ h.made, c.Displayed) {n : Nat}
    (hn : n ≤ ts.opCount) :
    ts.forkAt src cfg n (TimeTravelSession.init src cfg)
      = { engine := Engine.plain src cfg (h.made.take n), log := ts.log.take n, cursor := n } := by
  have hbranch : Tracks src cfg
      { TimeTravelSession.init src cfg with log := ts.log.take n } { made := h.made.take n } := by
    refine ⟨?_, rfl, Nat.zero_le _, rfl⟩
    show ts.log.take n = _
    rw [ht.log, List.map_take]
  have hlen : n ≤ (ts.log.take n).length := by
    rw [List.length_take]
    exact Nat.le_min.mpr ⟨Nat.le_refl n, hn⟩
  have happ := hbranch.applyNext (fun c hc => hd c (List.mem_of_mem_take hc)) (Nat.zero_le n) hlen
  rw [List.take_take, Nat.min_self] at happ
  exact happ

/-- What survives of a run of displayed calls is displayed, and the session tracks it. -/
theorem Travels.tracks (hrun : Travels src cfg SessionCall.Displayed ts h) :
    Tracks src cfg ts h ∧ ∀ c ∈ h.made, c.Displayed := by
  induction hrun with
  | start => exact ⟨Tracks.init, fun c hc => absurd hc List.not_mem_nil⟩
  | kept _ c hc hok ih =>
      refine ⟨ih.1.call hok, fun d hd => ?_⟩
      rcases List.mem_append.mp hd with hvis | hlast
      · exact ih.2 d (List.mem_of_mem_take hvis)
      · rw [List.mem_singleton.mp hlast]
        exact hc
  | failed _ c hf ih =>
      rw [call_eq, if_neg hf]
      exact ih
  | seek _ n hn ih => exact ⟨ih.1.seek ih.2 hn, ih.2⟩

/-! ## Reproducing history -/

/-- At every point of the journal, travelling there and forking there give the state of a
plain simulator that has made the surviving calls up to it, and a new call from there
discards the rest. -/
structure Reproduces (src : DrawSource k R) (cfg : SimConfig) (ts : TimeTravelSession k R)
    (h : History SessionCall) : Prop where
  count : ts.opCount = h.made.length
  seek : ∀ n ≤ ts.opCount, (ts.seek src cfg n).engine = Engine.plain src cfg (h.made.take n)
  fork : ∀ n ≤ ts.opCount, (ts.forkAt src cfg n (init src cfg)).engine
    = Engine.plain src cfg (h.made.take n)
  discard : ∀ n ≤ ts.opCount, ∀ c, (ts.seek src cfg n).engine.Succeeds c →
    ((ts.seek src cfg n).call src cfg c).log = ts.log.take n ++ [.entry c]
      ∧ ((ts.seek src cfg n).call src cfg c).engine
        = Engine.plain src cfg (h.made.take n ++ [c])
  keep : ∀ n ≤ ts.opCount, ∀ c, ¬ (ts.seek src cfg n).engine.Succeeds c →
    (ts.seek src cfg n).call src cfg c = ts.seek src cfg n

/--
**Time travel reproduces history.**

In every run of calls and seeks whose submitted orders are displayed and not pegged,
`seek(n)` and a fork at `n` reach the state of a plain simulator that makes the first
`n` surviving calls as they were made, and a call that succeeds after a rewind keeps
exactly the first `n` entries and its own.
-/
theorem travel_reproduces (hrun : Travels src cfg SessionCall.Displayed ts h) :
    Reproduces src cfg ts h := by
  obtain ⟨ht, hd⟩ := hrun.tracks
  refine ⟨ht.opCount, fun n hn => ?_, fun n hn => ?_, fun n hn c hok => ?_, fun n hn c hf => ?_⟩
  · rw [ht.seek_eq hd hn]
  · rw [ht.fork_eq hd hn]
  · have hs := ht.seek_eq hd hn
    rw [call_eq, if_pos hok]
    constructor
    · rw [record_log, hs]
    · show (ts.seek src cfg n).engine.exec src cfg c = _
      rw [Engine.plain_append, hs]
  · rw [call_eq, if_neg hf]

/-- A generator that draws nothing. -/
def calm : DrawSource 4 Unit := { seeded := (), draw := fun _ _ _ => ({}, ()) }

/-- A bid for five submitted and decided, after which the session rewinds. -/
theorem travel_reproduces_bid :
    Reproduces calm deskConfig
      ((((init calm deskConfig).call calm deskConfig
        (.submit { ref := 100, qty := 5, price := 3 } 0)).call calm deskConfig .drain).seek
          calm deskConfig 0)
      (((({} : History SessionCall).record (.submit { ref := 100, qty := 5, price := 3 } 0)).record
        .drain).seek 0) :=
  travel_reproduces
    (.seek (.kept (.kept .start (.submit { ref := 100, qty := 5, price := 3 } 0) ⟨rfl, rfl, rfl⟩
      trivial) .drain trivial trivial) 0 (Nat.zero_le _))

/-- A bid that is not to be displayed. -/
def darkBid : SimInbound := { ref := 100, qty := 5, price := 3, nonDisplayed := true }

/-- The bid is submitted and decided. -/
def darkSession : TimeTravelSession 4 Unit :=
  ((init calm deskConfig).call calm deskConfig (.submit darkBid 0)).call calm deskConfig .drain

def darkHistory : History SessionCall := { made := [.submit darkBid 0, .drain], cursor := 2 }

/-- **A non-displayed bid rests in the ledger; in a branch of its session it rests in the
book.** -/
theorem dark_bid_displayed :
    Travels calm deskConfig (fun _ => True) darkSession darkHistory
      ∧ ¬ Reproduces calm deskConfig darkSession darkHistory := by
  refine ⟨.kept (.kept .start (.submit darkBid 0) trivial trivial) .drain trivial trivial, ?_⟩
  intro hr
  have hfork := congrArg (fun e => e.sim.hidden.length) (hr.fork 2 (Nat.le_refl 2))
  have hbranch :
      (forkAt calm deskConfig darkSession 2 (init calm deskConfig)).engine.sim.hidden = [] := rfl
  have hplain : (Engine.plain calm deskConfig (darkHistory.made.take 2)).sim.hidden.length = 1 := rfl
  rw [hbranch, hplain] at hfork
  exact absurd hfork Nat.zero_ne_one

end TimeTravelSession

end Mog
