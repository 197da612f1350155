import Mathlib.Data.List.Forall2
import Mog.Replay.Agree

/-!
# What the prints say

A record is made for each execution that the book accepts, in the order of the stream. Its
price is the one at which the order stood when the message came, or the one on the wire,
and no more is printed under a reference than was added or replaced in under it.

The shares are counted by reference: what rests under it and what has been printed is never more
than what was added and replaced in. That holds for each message and so for every beginning of a
feed. The records are matched with the accepted executions one to one, in order, the price being
that of the resting order unless the message carries its own.
-/

namespace Mog

/-! ## Executions -/

/-- What an `E` or a `C` says; `E` has no price of its own and is printable. -/
structure ExecutionMsg where
  header : Header
  orderRef : Nat
  shares : Int
  matchNumber : Nat
  wirePrice : Option Int := none
  printable : Bool := true
deriving DecidableEq, Repr

namespace Message

def execution? : Message → Option ExecutionMsg
  | .orderExecuted v =>
      some { header := v.header, orderRef := v.orderRef, shares := v.executedShares
             matchNumber := v.matchNumber }
  | .orderExecutedWithPrice v =>
      some { header := v.header, orderRef := v.orderRef, shares := v.executedShares
             matchNumber := v.matchNumber, wirePrice := some v.executionPrice
             printable := v.printable }
  | _ => none

/-- The shares that a message adds or replaces in under a reference. -/
def sharesIn (ref : Nat) : Message → Int
  | .addOrder v => if v.orderRef = ref then v.shares else 0
  | .addOrderAttribution v => if v.orderRef = ref then v.shares else 0
  | .orderReplace v => if v.newOrderRef = ref then v.shares else 0
  | _ => 0

/-- The shares that a message executes under a reference. -/
def sharesOut (ref : Nat) (m : Message) : Int :=
  (m.execution?.map fun e => if e.orderRef = ref then e.shares else 0).getD 0

end Message

namespace OrderBook

variable {k : Nat}

/-- The messages of a feed, each with the book that it meets. -/
def stages : OrderBook k → List Message → List (OrderBook k × Message)
  | _, [] => []
  | b, m :: ms => (b, m) :: stages (b.apply m).book ms

/-- The messages of a feed that the book accepts. -/
def accepted (b : OrderBook k) (ms : List Message) : List (OrderBook k × Message) :=
  (b.stages ms).filter fun p => (p.1.apply p.2).tick.ok

/-- The executions of a feed that the book accepts. -/
def executions (b : OrderBook k) (ms : List Message) : List (OrderBook k × ExecutionMsg) :=
  (b.accepted ms).filterMap fun p => p.2.execution?.map fun e => (p.1, e)

/-- The order of a reference rests at a price, and nowhere else. -/
structure RestsAt (b : OrderBook k) (ref : Nat) (price : Int) : Prop where
  resting : ∃ s, ∃ o ∈ b.fifo s price, o.1 = ref
  only : ∀ s p, (∃ o ∈ b.fifo s p, o.1 = ref) → p = price

theorem Valid.restsAt {b : OrderBook k} (h : b.Valid) {i : Nat} (hi : b.live i) :
    b.RestsAt (b.order i).orderRef (b.order i).priceTicks where
  resting := ⟨(b.order i).side, _, List.mem_map_of_mem (h.mem_queueOf hi), rfl⟩
  only := by
    rintro s p ⟨o, ho, href⟩
    obtain ⟨j, hj, rfl⟩ := List.mem_map.mp ho
    obtain ⟨hlive, -, hp⟩ := (h.mem s p j).mp hj
    rw [← hp, h.ref_inj hlive hi href]

/-! ## The shares under a reference -/

theorem remainingOf_zero (b : OrderBook k) : b.remainingOf 0 = 0 := by
  unfold remainingOf
  rw [if_pos (Or.inl (congrArg GenHandle.index b.idFind_zero))]

theorem Valid.remainingOf_nonneg {b : OrderBook k} (h : b.Valid) (ref : Nat) :
    0 ≤ b.remainingOf ref := by
  by_cases hz : ref = 0
  · rw [hz, remainingOf_zero]
  by_cases hdead : ∀ i, b.live i → (b.order i).orderRef ≠ ref
  · rw [h.remainingOf_dead hz hdead]
  · push Not at hdead
    obtain ⟨i, hi, rfl⟩ := hdead
    rw [h.remainingOf_live hi]
    exact Int.le_of_lt (h.pos i hi)

variable {b : OrderBook k}

theorem add_remainingOf (h : b.Valid) (ref : Nat) (s : Side) (qty price : Int) (r : Nat) :
    (b.add ref s qty price).book.remainingOf r ≤ b.remainingOf r
      + if (b.add ref s qty price).tick.ok then if ref = r then qty else 0 else 0 := by
  rcases add_cases h ref s qty price with ⟨ha, hok, i, hi⟩ | ⟨-, hno, hbook⟩
  · rw [if_pos hok]
    have hlive : (b.add ref s qty price).book.live i := (hi.live i).mpr (Or.inl rfl)
    have hself : ((b.add ref s qty price).book.order i).orderRef = ref :=
      congrArg OrderView.orderRef hi.self
    by_cases hr : ref = r
    · subst hr
      have hnew := hi.valid.remainingOf_live hlive
      rw [hself, hi.rem_self] at hnew
      have hold := h.remainingOf_nonneg ref
      rw [if_pos rfl, hnew]
      show qty ≤ _
      omega
    · rw [if_neg hr]
      by_cases hz : r = 0
      · rw [hz, remainingOf_zero, remainingOf_zero]
        omega
      · rw [(hi.lookup h hz (Ne.symm hr)).2]
        omega
  · rw [if_neg hno, hbook]
    omega

/-- What an accepted `execute` takes, and at which price. -/
theorem execute_accepted (h : b.Valid) {ref : Nat} {qty : Int} (hok : (b.execute ref qty).tick.ok) :
    ∃ i, b.live i ∧ (b.order i).orderRef = ref ∧ 0 < qty ∧ qty ≤ b.rem i
      ∧ Reduced b b.levelSlots (b.execute ref qty).book i qty
      ∧ (b.execute ref qty).tick.priceTicks = (b.order i).priceTicks := by
  have hr : ref ≠ 0 := by
    rintro rfl
    have hnull : (b.idFindSlot 0).handle.index = kNullIndex :=
      congrArg GenHandle.index b.idFind_zero
    revert hok
    unfold execute
    split
    · exact fun hok => absurd hok (not_ok_tickError _)
    · dsimp only
      rw [if_pos hnull]
      exact fun hok => absurd hok (not_ok_tickError _)
  by_cases h1 : qty ≤ 0
  · rw [execute, if_pos h1] at hok
    exact absurd hok (not_ok_tickError _)
  by_cases h2 : (b.idFindSlot ref).handle.index = kNullIndex
  · rw [execute, if_neg h1] at hok
    dsimp only at hok
    rw [if_pos h2] at hok
    exact absurd hok (not_ok_tickError _)
  by_cases h3 : (b.arena.deref (b.idFindSlot ref).handle).qtyRemaining < qty
  · rw [execute, if_neg h1] at hok
    dsimp only at hok
    rw [if_neg h2, if_pos h3] at hok
    exact absurd hok (not_ok_tickError _)
  obtain ⟨hl, href, _⟩ := h.idFind_live hr h2
  have hle : qty ≤ b.rem (b.idFind ref).index := Int.not_lt.mp h3
  obtain ⟨hred, htick, -⟩ := execute_spec h hl (Int.not_le.mp h1) hle
  rw [href] at hred htick
  exact ⟨_, hl, href, Int.not_le.mp h1, hle, hred, by rw [htick]⟩

/-- An order that has lost quantity, by its reference. -/
theorem Reduced.remainingOf {b' : OrderBook k} {i : Nat} {qty : Int}
    (h : Reduced b b.levelSlots b' i qty) (hb : b.Valid) (hi : b.live i) (r : Nat) :
    b'.remainingOf r + (if (b.order i).orderRef = r then qty else 0) = b.remainingOf r := by
  by_cases hr : (b.order i).orderRef = r
  · subst hr
    rw [if_pos rfl, hb.remainingOf_live hi]
    by_cases hall : b.rem i = qty
    · have hdead : ∀ j, b'.live j → (b'.order j).orderRef ≠ (b.order i).orderRef := by
        intro j hj he
        obtain ⟨hjl, hji⟩ := (h.live j).mp hj
        rw [(h.kept hj).1] at he
        exact hji ⟨hb.ref_inj hjl hi he, hall⟩
      rw [h.valid.remainingOf_dead (hb.ref i hi) hdead]
      omega
    · have hlive : b'.live i := (h.live i).mpr ⟨hi, fun hh => hall hh.2⟩
      have hnew := h.valid.remainingOf_live hlive
      rw [(h.kept hlive).1, h.rem_self hall] at hnew
      rw [hnew]
      omega
  · rw [if_neg hr, Int.add_zero]
    by_cases hz : r = 0
    · rw [hz, remainingOf_zero, remainingOf_zero]
    · exact (h.lookup hb hz (Ne.symm hr)).2

theorem execute_remainingOf (h : b.Valid) (ref : Nat) (qty : Int) (r : Nat) :
    (b.execute ref qty).book.remainingOf r
        + (if (b.execute ref qty).tick.ok then if ref = r then qty else 0 else 0)
      = b.remainingOf r := by
  by_cases hok : (b.execute ref qty).tick.ok
  · obtain ⟨i, hi, href, -, -, hred, -⟩ := execute_accepted h hok
    have hrem := hred.remainingOf h hi r
    rw [href] at hrem
    rw [if_pos hok, hrem]
  · obtain ⟨e, he⟩ := (told_execute b ref qty).resolve_left hok
    rw [if_neg hok, he, Int.add_zero]
    rfl

theorem execute_remainingOf_le (h : b.Valid) (ref : Nat) (qty : Int) (r : Nat) :
    (b.execute ref qty).book.remainingOf r ≤ b.remainingOf r := by
  have heq := execute_remainingOf h ref qty r
  by_cases hok : (b.execute ref qty).tick.ok
  · obtain ⟨-, -, -, hpos, -⟩ := execute_accepted h hok
    split at heq <;> split at heq <;> omega
  · rw [if_neg hok] at heq
    omega

theorem remove_remainingOf (h : b.Valid) (ref r : Nat) :
    (b.remove ref).book.remainingOf r ≤ b.remainingOf r := by
  by_cases hz : ref = 0
  · rw [hz, remove_zero]
  rcases remove_cases h hz with ⟨i, -, hi, -, -, hred⟩ | ⟨-, -, hbook⟩
  · have hrem := hred.remainingOf h hi r
    have hpos := h.pos i hi
    split at hrem <;> omega
  · rw [hbook]

/-- An accepted replacement is a removal and an `add`. -/
theorem replace_accepted {origRef newRef : Nat} {qty price : Int}
    (hok : (b.replace origRef newRef qty price).tick.ok) : ∃ s,
    (b.replace origRef newRef qty price).book
        = ((b.remove origRef).book.add newRef s qty price).book
      ∧ 0 < qty := by
  revert hok
  unfold replace
  dsimp only
  split
  · exact fun hok => absurd hok (not_ok_tickError _)
  next hqty =>
    split
    · exact fun hok => absurd hok (not_ok_tickError _)
    split
    · exact fun hok => absurd hok (not_ok_tickError _)
    split
    · exact fun hok => absurd hok (not_ok_tickError _)
    split
    · exact fun hok => absurd hok (not_ok_tickError _)
    · exact fun _ => ⟨_, rfl, Int.not_le.mp hqty⟩

theorem replace_remainingOf (h : b.Valid) (origRef newRef : Nat) (qty price : Int) (r : Nat) :
    (b.replace origRef newRef qty price).book.remainingOf r ≤ b.remainingOf r
      + if (b.replace origRef newRef qty price).tick.ok then if newRef = r then qty else 0
        else 0 := by
  by_cases hok : (b.replace origRef newRef qty price).tick.ok
  · obtain ⟨s, hbook, hpos⟩ := replace_accepted hok
    have hremoved : (b.remove origRef).book.Valid := h.apply (.orderDelete ⟨⟨0, 0, 0⟩, origRef⟩)
    have hadd := add_remainingOf hremoved newRef s qty price r
    have hrem := remove_remainingOf h origRef r
    rw [if_pos hok, hbook]
    split at hadd <;> split <;> simp_all <;> omega
  · obtain ⟨e, he⟩ := (told_replace b origRef newRef qty price).resolve_left hok
    rw [if_neg hok, he, Int.add_zero]
    exact Int.le_refl _

/-- **One message**: what is left under a reference and what is printed are covered by what was
there and what comes in. -/
theorem apply_covered (h : b.Valid) (m : Message) (r : Nat) :
    (b.apply m).book.remainingOf r + (if (b.apply m).tick.ok then m.sharesOut r else 0)
      ≤ b.remainingOf r + if (b.apply m).tick.ok then m.sharesIn r else 0 := by
  have hquiet : ∀ {c : Prop} [Decidable c] (x : Int), x + (if c then 0 else 0) = x := by
    intro c _ x
    rw [ite_self, Int.add_zero]
  -- Orders that come in print nothing, the others bring nothing in.
  cases m with
  | addOrder v =>
      refine Int.le_trans (Int.le_of_eq (hquiet _)) ?_
      exact add_remainingOf h v.orderRef v.side v.shares v.price r
  | addOrderAttribution v =>
      refine Int.le_trans (Int.le_of_eq (hquiet _)) ?_
      exact add_remainingOf h v.orderRef v.side v.shares v.price r
  | orderReplace v =>
      refine Int.le_trans (Int.le_of_eq (hquiet _)) ?_
      exact replace_remainingOf h v.originalOrderRef v.newOrderRef v.shares v.price r
  | orderExecuted v =>
      refine Int.le_trans (Int.le_of_eq ?_) (Int.le_of_eq (hquiet _).symm)
      exact execute_remainingOf h v.orderRef v.executedShares r
  | orderExecutedWithPrice v =>
      refine Int.le_trans (Int.le_of_eq ?_) (Int.le_of_eq (hquiet _).symm)
      exact execute_remainingOf h v.orderRef v.executedShares r
  | orderCancel v =>
      refine Int.le_trans (Int.le_of_eq (hquiet _)) (Int.le_trans ?_ (Int.le_of_eq (hquiet _).symm))
      exact execute_remainingOf_le h v.orderRef v.cancelledShares r
  | orderDelete v =>
      refine Int.le_trans (Int.le_of_eq (hquiet _)) (Int.le_trans ?_ (Int.le_of_eq (hquiet _).symm))
      exact remove_remainingOf h v.orderRef r

/-! ## A whole feed -/

/-- The shares that the accepted messages of a feed bring in under a reference. -/
def sharesIn (b : OrderBook k) (ms : List Message) (r : Nat) : Int :=
  ((b.accepted ms).map fun p => p.2.sharesIn r).sum

/-- The shares that the accepted messages of a feed execute under a reference. -/
def sharesOut (b : OrderBook k) (ms : List Message) (r : Nat) : Int :=
  ((b.accepted ms).map fun p => p.2.sharesOut r).sum

theorem accepted_cons (b : OrderBook k) (m : Message) (ms : List Message) :
    b.accepted (m :: ms)
      = (if (b.apply m).tick.ok then [(b, m)] else []) ++ (b.apply m).book.accepted ms := by
  have hstages : b.stages (m :: ms) = (b, m) :: (b.apply m).book.stages ms := rfl
  unfold accepted
  rw [hstages]
  by_cases hok : (b.apply m).tick.ok
  · rw [if_pos hok, List.filter_cons_of_pos (by simpa using hok)]
    rfl
  · rw [if_neg hok, List.filter_cons_of_neg (by simpa using hok)]
    rfl

/-- A sum over the accepted messages, one step. -/
theorem accepted_sum (f : Message → Int) (b : OrderBook k) (m : Message) (ms : List Message) :
    ((b.accepted (m :: ms)).map fun p => f p.2).sum
      = (if (b.apply m).tick.ok then f m else 0)
        + (((b.apply m).book.accepted ms).map fun p => f p.2).sum := by
  rw [accepted_cons, List.map_append, List.sum_append]
  congr 1
  split
  · exact Int.add_zero _
  · rfl

/-- **No more is executed under a reference than comes in under it**, over any feed. -/
theorem applyAll_covered (ms : List Message) (r : Nat) : ∀ {b : OrderBook k}, b.Valid →
    (b.applyAll ms).remainingOf r + b.sharesOut ms r ≤ b.remainingOf r + b.sharesIn ms r := by
  induction ms with
  | nil => exact fun h => Int.le_refl _
  | cons m ms ih =>
      intro b h
      have hone := apply_covered h m r
      have hrest := ih (h.apply m)
      have hin := accepted_sum (Message.sharesIn r) b m ms
      have hout := accepted_sum (Message.sharesOut r) b m ms
      unfold sharesIn sharesOut at hrest ⊢
      rw [hin, hout]
      show ((b.apply m).book.applyAll ms).remainingOf r + _ ≤ _
      omega

theorem executions_cons (b : OrderBook k) (m : Message) (ms : List Message) :
    b.executions (m :: ms)
      = (if (b.apply m).tick.ok then (m.execution?.map fun e => (b, e)).toList else [])
        ++ (b.apply m).book.executions ms := by
  unfold executions
  rw [accepted_cons, List.filterMap_append]
  congr 1
  by_cases hok : (b.apply m).tick.ok
  · rw [if_pos hok, if_pos hok]
    cases he : m.execution? with
    | none =>
        rw [List.filterMap_cons_none (by rw [he]; rfl)]
        rfl
    | some e =>
        rw [List.filterMap_cons_some (by rw [he]; rfl)]
        rfl
  · rw [if_neg hok, if_neg hok]
    rfl

theorem executions_append (ms ms' : List Message) : ∀ b : OrderBook k,
    b.executions (ms ++ ms') = b.executions ms ++ (b.applyAll ms).executions ms' := by
  induction ms with
  | nil => exact fun b => rfl
  | cons m ms ih =>
      intro b
      rw [List.cons_append, executions_cons, executions_cons, ih, List.append_assoc]
      rfl

/-- The executed shares of a feed, execution by execution. -/
theorem executions_sum (b : OrderBook k) (ms : List Message) (r : Nat) :
    ((b.executions ms).map fun x => if x.2.orderRef = r then x.2.shares else 0).sum
      = b.sharesOut ms r := by
  unfold executions sharesOut
  induction b.accepted ms with
  | nil => rfl
  | cons p l ih =>
      rw [List.map_cons, List.sum_cons, ← ih]
      unfold Message.sharesOut
      cases he : p.2.execution? with
      | none =>
          rw [List.filterMap_cons_none (by rw [he]; rfl)]
          exact (Int.zero_add _).symm
      | some e =>
          rw [List.filterMap_cons_some (by rw [he]; rfl), List.map_cons, List.sum_cons]
          rfl

/-- What an accepted execution took its shares from. -/
theorem Valid.execution_accepted {b : OrderBook k} (h : b.Valid) {m : Message} {e : ExecutionMsg}
    (he : m.execution? = some e) (hok : (b.apply m).tick.ok) :
    b.RestsAt e.orderRef (b.apply m).tick.priceTicks := by
  have happly : b.apply m = b.execute e.orderRef e.shares := by
    cases m with
    | orderExecuted v =>
        cases he
        rfl
    | orderExecutedWithPrice v =>
        cases he
        rfl
    | _ => exact nomatch he
  rw [happly] at hok ⊢
  obtain ⟨i, hi, href, -, -, -, hprice⟩ := execute_accepted h hok
  rw [hprice, ← href]
  exact h.restsAt hi

end OrderBook

/-! ## What the recorder records -/

namespace Wire

/-- The shares of a decoded execution fit the wire. -/
theorem decoded_shares {f : List UInt8} {m : Message} (h : decodeMessage f = .ok m) :
    ∀ e, m.execution? = some e → WireInt e.shares := by
  obtain ⟨-, hreads⟩ := decodeMessage_eq_ok.mp h
  intro e he
  cases m with
  | orderExecuted v =>
      cases he
      revert hreads
      unfold Reads decodeOrderExecuted
      dsimp only
      split
      · exact fun hreads => nomatch hreads
      · intro hreads
        cases hreads
        exact ⟨Int.natCast_nonneg _, Int.ofNat_lt.mpr (be32_lt _ _)⟩
  | orderExecutedWithPrice v =>
      cases he
      revert hreads
      unfold Reads decodeOrderExecutedWithPrice
      dsimp only
      split
      · exact fun hreads => nomatch hreads
      · intro hreads
        cases hreads
        exact ⟨Int.natCast_nonneg _, Int.ofNat_lt.mpr (be32_lt _ _)⟩
  | _ => exact nomatch he

theorem messagesOf_shares {fs : List (SessionItem × List UInt8)}
    (h : Framing.Valid SessionFrame fs) :
    ∀ m ∈ messagesOf fs, ∀ e, m.execution? = some e → WireInt e.shares := by
  intro m hm
  obtain ⟨q, hq, rfl⟩ := List.mem_map.mp hm
  exact decoded_shares (subsetFrames_valid h q hq).1

end Wire

namespace Trades

open Wire Replay OrderBook

variable {k : Nat}

/-- `p` is the record of the execution `e` that met the book `b`. -/
structure Records (b : OrderBook k) (e : ExecutionMsg) (p : Print) : Prop where
  matchNumber : p.matchNumber = e.matchNumber
  locate : p.locate = e.header.locate
  tsNs : p.tsNs = e.header.tsNs
  shares : (p.shares : Int) = e.shares
  printable : p.printable = e.printable
  withPrice : p.fromExecuteWithPrice = e.wirePrice.isSome
  /-- A `C` is recorded at its own price. -/
  wire : ∀ price, e.wirePrice = some price → p.priceTicks = price
  /-- An `E` is recorded at the price at which its order rests. -/
  resting : e.wirePrice = none → b.RestsAt e.orderRef p.priceTicks

/-- The executions of a feed. -/
def executed (ms : List Message) : List ExecutionMsg := ms.filterMap Message.execution?

/-- From `s` to `s'` the messages `ms`, which came to the book `b`, have been recorded. -/
structure Recorded (b : OrderBook k) (ms : List Message) (s s' : Summary) : Prop where
  counted : s'.prints + s'.unpricedExecutions
    = s.prints + s.unpricedExecutions + (executed ms).length
  printed : s'.prints = s.prints + (b.executions ms).length
  records : ∃ ps, s'.records = s.records ++ ps
    ∧ List.Forall₂ (fun x p => Records x.1 x.2 p) (b.executions ms) ps

theorem Recorded.cons {b : OrderBook k} {m : Message} {ms : List Message} {s s' s'' : Summary}
    (h : Recorded b [m] s s') (h' : Recorded (b.apply m).book ms s' s'') :
    Recorded b (m :: ms) s s'' := by
  have hexec : b.executions (m :: ms) = b.executions [m] ++ (b.apply m).book.executions ms := by
    rw [executions_cons, executions_cons b m []]
    exact congrArg (· ++ _) (List.append_nil _).symm
  have hlen : (executed (m :: ms)).length = (executed [m]).length + (executed ms).length := by
    rw [← List.length_append]
    exact congrArg List.length (@List.filterMap_append _ _ [m] ms Message.execution?)
  obtain ⟨ps, hps, hall⟩ := h.records
  obtain ⟨ps', hps', hall'⟩ := h'.records
  refine ⟨?_, ?_, ps ++ ps', ?_, ?_⟩
  · rw [h'.counted, h.counted, hlen, Nat.add_assoc]
  · rw [h'.printed, h.printed, hexec, List.length_append, Nat.add_assoc]
  · rw [hps', hps, List.append_assoc]
  · rw [hexec]
    exact List.rel_append hall hall'

/-- `on_message` for an execution: the book executes, then the print is recorded. -/
theorem onMessage_execution (r : Recorder k) {m : Message} {e : ExecutionMsg}
    (he : m.execution? = some e) :
    r.onMessage m = ({ r with
        book := (r.book.apply m).book
        summary := { r.summary with
          bookEventsFailed := if (r.book.apply m).tick.ok then r.summary.bookEventsFailed
            else r.summary.bookEventsFailed + 1 } } : Recorder k).record e.header e.matchNumber
      (toU64 e.shares) (r.book.apply m).tick (e.wirePrice.getD 0) e.printable
      e.wirePrice.isSome := by
  cases m with
  | orderExecuted v =>
      cases he
      rfl
  | orderExecutedWithPrice v =>
      cases he
      rfl
  | _ => exact nomatch he

theorem onMessage_other (r : Recorder k) {m : Message} (he : m.execution? = none) :
    r.onMessage m = { r with
      book := (r.book.apply m).book
      summary := { r.summary with
        bookEventsFailed := if (r.book.apply m).tick.ok then r.summary.bookEventsFailed
          else r.summary.bookEventsFailed + 1 } } := by
  cases m with
  | orderExecuted v => exact nomatch he
  | orderExecutedWithPrice v => exact nomatch he
  | _ => rfl

theorem record_still (r : Recorder k) (hdr : Header) (matchNo shares : Nat) (tick : BookTick)
    (price : Int) (printable withPrice : Bool) :
    (r.record hdr matchNo shares tick price printable withPrice).book = r.book
      ∧ (r.record hdr matchNo shares tick price printable withPrice).summary.bookEventsFailed
        = r.summary.bookEventsFailed := by
  unfold Recorder.record
  by_cases hok : tick.ok
  · rw [if_neg (not_not.mpr hok)]
    exact ⟨rfl, rfl⟩
  · rw [if_pos hok]
    exact ⟨rfl, rfl⟩

/-- What every message does, whatever is recorded. -/
theorem onMessage_book (r : Recorder k) (m : Message) :
    (r.onMessage m).book = (r.book.apply m).book
      ∧ (r.onMessage m).summary.bookEventsFailed = r.summary.bookEventsFailed
        + if (r.book.apply m).tick.ok then 0 else 1 := by
  have hfailed : (if (r.book.apply m).tick.ok then r.summary.bookEventsFailed
      else r.summary.bookEventsFailed + 1)
        = r.summary.bookEventsFailed + if (r.book.apply m).tick.ok then 0 else 1 := by
    split <;> rfl
  cases he : m.execution? with
  | none =>
      rw [onMessage_other r he]
      exact ⟨rfl, hfailed⟩
  | some e =>
      rw [onMessage_execution r he]
      obtain ⟨hbook, hcount⟩ := record_still ({ r with
        book := (r.book.apply m).book
        summary := { r.summary with
          bookEventsFailed := if (r.book.apply m).tick.ok then r.summary.bookEventsFailed
            else r.summary.bookEventsFailed + 1 } } : Recorder k) e.header e.matchNumber
        (toU64 e.shares) (r.book.apply m).tick (e.wirePrice.getD 0) e.printable e.wirePrice.isSome
      exact ⟨hbook, hcount.trans hfailed⟩

/-- **One message** is recorded. -/
theorem onMessage_recorded (r : Recorder k) (h : r.book.Valid) {m : Message}
    (hw : ∀ e, m.execution? = some e → WireInt e.shares) :
    Recorded r.book [m] r.summary (r.onMessage m).summary := by
  have hexec := executions_cons r.book m []
  cases he : m.execution? with
  -- No execution: nothing is recorded and nothing is to be.
  | none =>
      have hnone : r.book.executions [m] = [] := by
        rw [hexec, he]
        split <;> rfl
      have hzero : executed [m] = [] := List.filterMap_cons_none he
      rw [onMessage_other r he]
      refine ⟨?_, ?_, [], (List.append_nil _).symm, ?_⟩
      · rw [hzero]
        rfl
      · rw [hnone]
        rfl
      · rw [hnone]
        exact List.Forall₂.nil
  -- An execution that the book accepts becomes a record, priced by the message or by the order.
  | some e =>
      have hone : executed [m] = [e] := List.filterMap_cons_some he
      rw [onMessage_execution r he]
      unfold Recorder.record
      rw [he] at hexec
      by_cases hok : (r.book.apply m).tick.ok
      · rw [if_pos hok] at hexec
        rw [if_neg (not_not.mpr hok)]
        refine ⟨?_, ?_, _, rfl, ?_⟩
        · rw [hone]
          show r.summary.prints + 1 + r.summary.unpricedExecutions = _ + 1
          omega
        · rw [hexec]
          rfl
        · rw [hexec]
          refine List.Forall₂.cons ?_ List.Forall₂.nil
          obtain ⟨h0, hlt⟩ := hw e he
          refine ⟨rfl, rfl, rfl, ?_, rfl, rfl, ?_, ?_⟩
          · show ((toU64 e.shares % 2 ^ 32 : Nat) : Int) = e.shares
            unfold toU64
            omega
          · intro price hprice
            show (if e.wirePrice.isSome then e.wirePrice.getD 0 else _) = price
            rw [hprice]
            rfl
          · intro hnone
            show r.book.RestsAt e.orderRef (if e.wirePrice.isSome then _ else _)
            rw [hnone]
            exact h.execution_accepted he hok
      · rw [if_neg hok] at hexec
        rw [if_pos hok]
        refine ⟨?_, ?_, [], (List.append_nil _).symm, ?_⟩
        · rw [hone]
          rfl
        · rw [hexec]
          rfl
        · rw [hexec]
          exact List.Forall₂.nil

/-- **A whole division** is recorded. -/
theorem recorded_recorded (fs : List (SessionItem × List UInt8)) : ∀ {r : Recorder k},
    r.book.Valid → (∀ m ∈ messagesOf fs, ∀ e, m.execution? = some e → WireInt e.shares) →
    Recorded r.book (messagesOf fs) r.summary (recorded r fs).summary := by
  induction fs with
  | nil => exact fun _ _ => ⟨rfl, rfl, [], (List.append_nil _).symm, List.Forall₂.nil⟩
  | cons p fs ih =>
      intro r h hw
      rcases p with ⟨x, f⟩
      cases x with
      | skip type => exact @ih (r.onFrame type 0 f) h hw
      | message m =>
          have hone := onMessage_recorded r h (hw m List.mem_cons_self)
          have hbook := (onMessage_book r m).1
          have hvalid : (r.onMessage m).book.Valid := by
            rw [hbook]
            exact h.apply m
          have hrest := ih hvalid fun m' hm' => hw m' (List.mem_cons_of_mem _ hm')
          rw [hbook] at hrest
          exact hone.cons hrest

/-- The two drivers count the same failures of the same book. -/
theorem recorded_failed (fs : List (SessionItem × List UInt8)) : ∀ {r : Recorder k}
    {st : ReplayState k}, r.book = st.book →
    r.summary.bookEventsFailed = st.out.bookEventsFailed →
    (recorded r fs).summary.bookEventsFailed = (afterFrames st fs).out.bookEventsFailed := by
  induction fs with
  | nil => exact fun _ hf => hf
  | cons p fs ih =>
      intro r st hb hf
      rcases p with ⟨x, f⟩
      cases x with
      | skip type => exact @ih (r.onFrame type 0 f) (listen st type 0 f) hb hf
      | message m =>
          obtain ⟨hbook, hfailed⟩ := onMessage_book r m
          refine @ih (r.onMessage m) (Replay.onMessage st m) ?_ ?_
          · rw [hbook, hb]
            rfl
          · rw [hfailed, hb, hf]
            show _ = if (st.book.apply m).tick.ok then _ else _
            split <;> rfl

/-! ## A whole run -/

/-- The shares printed under a reference, by the records of its executions. -/
def sharesPrinted (es : List (OrderBook k × ExecutionMsg)) (ps : List Print) (ref : Nat) : Int :=
  (((es.zip ps).filter fun x => x.1.2.orderRef = ref).map fun x => (x.2.shares : Int)).sum

/-- The records that begin with those of `es` print what `es` executes. -/
theorem sharesPrinted_eq {es : List (OrderBook k × ExecutionMsg)} (ref : Nat) :
    ∀ {es' : List (OrderBook k × ExecutionMsg)} {ps : List Print},
      List.Forall₂ (fun x p => Records x.1 x.2 p) (es ++ es') ps →
      sharesPrinted es ps ref
        = (es.map fun x => if x.2.orderRef = ref then x.2.shares else 0).sum := by
  induction es with
  | nil => exact fun _ => rfl
  | cons x es ih =>
      intro es' ps h
      cases ps with
      | nil => exact nomatch h
      | cons p ps =>
          obtain ⟨hrec, hrest⟩ := List.forall₂_cons.mp h
          have htail := ih hrest
          unfold sharesPrinted at htail ⊢
          rw [List.zip_cons_cons, List.map_cons, List.sum_cons, ← htail]
          by_cases hr : x.2.orderRef = ref
          · rw [List.filter_cons_of_pos (by simpa using hr), if_pos hr, List.map_cons,
              List.sum_cons, hrec.shares]
          · rw [List.filter_cons_of_neg (by simpa using hr), if_neg hr, Int.zero_add]

/-- The counters that the two drivers share. -/
structure SameCounts (out : Summary) (sum : Replay.Summary) : Prop where
  decoded : out.decoded = sum.decoded
  skipped : out.skipped = sum.skipped
  bytesConsumed : out.bytesConsumed = sum.bytesConsumed
  bookEventsFailed : out.bookEventsFailed = sum.bookEventsFailed

/-- **What a reconstruction is**, of the messages `ms` by a book that starts as `b`. -/
structure Reconstructs (b : OrderBook k) (ms : List Message) (out : Summary) : Prop where
  decoded : out.decoded = ms.length
  /-- Every `E` and `C` is priced or counted as unpriced. -/
  counted : out.prints + out.unpricedExecutions = (executed ms).length
  length : out.records.length = out.prints
  /-- The records of the accepted executions, in their order. -/
  records : List.Forall₂ (fun x p => Records x.1 x.2 p) (b.executions ms) out.records
  /-- At no time has more been printed under a reference than has come in under it. -/
  covered : ∀ soFar, soFar <+: ms → ∀ ref,
    sharesPrinted (b.executions soFar) out.records ref ≤ b.sharesIn soFar ref

/-- The recorder of a fresh book reconstructs the messages of its frames. -/
theorem recorded_reconstructs {cfg : BookConfig} (hc : ConfigOk k cfg)
    {fs : List (SessionItem × List UInt8)} (hvalid : Framing.Valid SessionFrame fs) (n : Nat) :
    Reconstructs (OrderBook.init cfg : OrderBook k) (messagesOf fs)
      ((recorded (.init cfg : Recorder k) fs).finish (statsOf fs).decoded (statsOf fs).skipped
        n) := by
  have hinit : (OrderBook.init cfg : OrderBook k).Valid := (init_inv hc).valid
  have hrun : Recorded (OrderBook.init cfg : OrderBook k) (messagesOf fs) {}
      (recorded (.init cfg : Recorder k) fs).summary :=
    @recorded_recorded k fs (.init cfg) hinit (messagesOf_shares hvalid)
  obtain ⟨ps, hps, hall⟩ := hrun.records
  have hrecords : (recorded (.init cfg : Recorder k) fs).summary.records = ps := hps
  have hprints : (recorded (.init cfg : Recorder k) fs).summary.prints
      = ((OrderBook.init cfg : OrderBook k).executions (messagesOf fs)).length :=
    hrun.printed.trans (Nat.zero_add _)
  refine ⟨?_, ?_, ?_, ?_, ?_⟩
  · show (statsOf fs).decoded = _
    rw [statsOf_eq, messagesOf, List.length_map]
  · exact hrun.counted.trans (Nat.zero_add _)
  · show (recorded (.init cfg : Recorder k) fs).summary.records.length = _
    rw [hrecords, ← hall.length_eq]
    exact hprints.symm
  · show List.Forall₂ _ _ (recorded (.init cfg : Recorder k) fs).summary.records
    rw [hrecords]
    exact hall
  · intro soFar hprefix ref
    obtain ⟨rest, hrest⟩ := hprefix
    rw [← hrest, executions_append] at hall
    show sharesPrinted _ (recorded (.init cfg : Recorder k) fs).summary.records ref ≤ _
    rw [hrecords, sharesPrinted_eq ref hall, executions_sum]
    have hcovered := applyAll_covered soFar ref hinit
    have hleft := (@Valid.applyAll k soFar _ hinit).remainingOf_nonneg ref
    have hnone : (OrderBook.init cfg : OrderBook k).remainingOf ref = 0 := by
      by_cases hz : ref = 0
      · rw [hz, remainingOf_zero]
      · exact hinit.remainingOf_dead hz fun i hi => absurd hi Bool.false_ne_true
    omega

/-- **Reconstruction and replay agree.** On every input, in every format, the two drivers fail alike
or succeed together; then their counters are the same, and the reconstruction is one of the messages
that the input divides into. -/
theorem trades_agree (kernels : KernelTable) (cfg : BookConfig) (hc : ConfigOk k cfg)
    (format : Format) (bytes : List UInt8) :
    ((∃ out, runTrades k kernels { format, book := cfg } bytes = .ok out)
        ↔ ∃ sum, (runReplay (k := k) kernels { format, book := cfg } bytes).1 = .ok sum)
      ∧ (∀ e, runTrades k kernels { format, book := cfg } bytes = .error e
        ↔ (runReplay (k := k) kernels { format, book := cfg } bytes).1 = .error e)
      ∧ ∀ out sum, runTrades k kernels { format, book := cfg } bytes = .ok out →
        (runReplay (k := k) kernels { format, book := cfg } bytes).1 = .ok sum →
        SameCounts out sum ∧ ∃ fs, Decodes format bytes fs
          ∧ Reconstructs (OrderBook.init cfg : OrderBook k) (messagesOf fs) out := by
  rcases @runs_together k kernels cfg format bytes with
    ⟨e, st, hreplay, htrades⟩ | ⟨fs, n, hfs, hvalid, hreplay, htrades⟩
  · rw [hreplay, htrades]
    refine ⟨⟨fun h => ?_, fun h => ?_⟩, fun e' => ?_, fun out sum h => nomatch h⟩
    · exact absurd h (by simp)
    · exact absurd h (by simp)
    · rw [Except.error.injEq, Except.error.injEq]
  · rw [hreplay, htrades]
    refine ⟨⟨fun _ => ⟨_, rfl⟩, fun _ => ⟨_, rfl⟩⟩, fun e => ?_, fun out sum hout hsum => ?_⟩
    · constructor
      · exact fun h => nomatch h
      · exact fun h => nomatch h
    · obtain ⟨hdecoded, hskipped, -⟩ := afterFrames_counters fs (.init cfg : ReplayState k)
      have hfailed := @recorded_failed k fs (.init cfg) (.init cfg) rfl rfl
      cases hout
      cases hsum
      refine ⟨⟨?_, ?_, rfl, hfailed⟩, fs, hfs, recorded_reconstructs hc hvalid n⟩
      · show (statsOf fs).decoded = (afterFrames _ fs).out.decoded + _
        rw [hdecoded]
        exact (Nat.zero_add _).symm
      · show (statsOf fs).skipped = (afterFrames _ fs).out.skipped + _
        rw [hskipped]
        exact (Nat.zero_add _).symm

/-- A bid for 100 at 7, and 40 of it executed. -/
def filledBid : List UInt8 :=
  encode (.addOrder
    { header := { locate := 1, tracking := 2, tsNs := 5 }, orderRef := 9, side := .buy
      shares := 100, stock := [77, 79, 71, 32, 32, 32, 32, 32], price := 7 })
  ++ encode (.orderExecuted
    { header := { locate := 1, tracking := 2, tsNs := 6 }, orderRef := 9, executedShares := 40
      matchNumber := 3 })

/-- The execution is printed at the price of the bid. -/
theorem trades_agree_bid : ∃ fs, Decodes .itchRaw filledBid fs
    ∧ Reconstructs (OrderBook.init faultConfig : OrderBook 10) (messagesOf fs)
      { bytesConsumed := 67, decoded := 2, prints := 1
        records := [{ matchNumber := 3, locate := 1, tsNs := 6, priceTicks := 7, shares := 40
                      printable := true, fromExecuteWithPrice := false }] } := by
  have hout : runTrades 10 (kernelsFor .avx2) { format := .itchRaw, book := faultConfig } filledBid
      = .ok { bytesConsumed := 67, decoded := 2, prints := 1
              records := [{ matchNumber := 3, locate := 1, tsNs := 6, priceTicks := 7, shares := 40
                            printable := true, fromExecuteWithPrice := false }] } := by
    decide +kernel
  have hagree := trades_agree (kernelsFor .avx2) faultConfig
    (⟨by decide, by decide, by decide, by decide, by decide⟩ : ConfigOk 10 faultConfig) .itchRaw
    filledBid
  obtain ⟨sum, hsum⟩ := hagree.1.mp ⟨_, hout⟩
  exact (hagree.2.2 _ sum hout hsum).2

end Trades

end Mog
