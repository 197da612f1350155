import Mathlib.Data.List.Count
import Mathlib.Data.List.Nodup

/-!
# Stable priority queues with tickets

Events wait with a timestamp and the sequence number of their insertion; the least
pair leaves first. Every insertion is also issued a ticket, and tickets are never
issued twice, so that "the event of that insertion" has a meaning when sequence
numbers restart.

An engine implements the queue. It answers an insertion with a handle of its own, and
its client cancels through whatever handles it has been given, whether their events
are still pending or not. The rule at the end says when an engine answers every run of
calls as the queue does.
-/

namespace TicketQueue

universe u v w

/-- A value that is due at a time. -/
structure Event (α : Type u) where
  ts : Nat
  seq : Nat
  ticket : Nat
  value : α

/-- Timestamp first, insertion sequence second. -/
def Event.Before {α : Type u} (a b : Event α) : Prop := a.ts < b.ts ∨ (a.ts = b.ts ∧ a.seq < b.seq)

instance {α : Type u} (a b : Event α) : Decidable (a.Before b) := inferInstanceAs (Decidable (_ ∨ _))

/-- What is pending, and how many have been numbered and handed out. -/
structure Queue (α : Type u) where
  capacity : Nat
  pending : List (Event α) := []
  nextSeq : Nat := 0
  /-- The number of tickets issued so far. -/
  issued : Nat := 0

/-- What a client may ask. -/
inductive Op (α : Type u) where
  | push (ts : Nat) (value : α)
  | cancel (ticket : Nat)
  | peekMin
  | peekMinTs
  | popMin
  | clear

/-- What it is told. -/
inductive Reply (α : Type u) where
  | done
  | flag (b : Bool)
  | value (v : α)
  | ts (t : Nat)
deriving DecidableEq, Repr

variable {α : Type u}

/-- The event that leaves first. -/
def least : List (Event α) → Option (Event α)
  | [] => none
  | e :: l =>
      match least l with
      | none => some e
      | some m => if m.Before e then some m else some e

namespace Queue

variable (q : Queue α)

/-- The ticket's own event is waiting. -/
def Pending (ticket : Nat) : Prop := ∃ e ∈ q.pending, e.ticket = ticket

instance (ticket : Nat) : Decidable (q.Pending ticket) :=
  inferInstanceAs (Decidable (∃ e ∈ q.pending, e.ticket = ticket))

/-- A full queue issues a ticket for an event it does not take. -/
def push (ts : Nat) (value : α) : Queue α :=
  if q.pending.length < q.capacity then
    { q with
      pending := q.pending ++ [{ ts, seq := q.nextSeq, ticket := q.issued, value }]
      nextSeq := q.nextSeq + 1
      issued := q.issued + 1 }
  else { q with issued := q.issued + 1 }

def remove (ticket : Nat) : Queue α :=
  { q with pending := q.pending.filter (fun e => e.ticket ≠ ticket) }

def clear : Queue α := { q with pending := [], nextSeq := 0 }

def step : Op α → Reply α × Queue α
  | .push ts value => (.done, q.push ts value)
  | .cancel n => (.flag (q.Pending n), q.remove n)
  | .peekMin => (((least q.pending).map fun e => .value e.value).getD .done, q)
  | .peekMinTs => (((least q.pending).map fun e => .ts e.ts).getD .done, q)
  | .popMin =>
      match least q.pending with
      | none => (.done, q)
      | some e => (.value e.value, q.remove e.ticket)
  | .clear => (.done, q.clear)

def run : List (Op α) → Queue α → List (Reply α) × Queue α
  | [], q => ([], q)
  | op :: ops, q => ((q.step op).1 :: (run ops (q.step op).2).1, (run ops (q.step op).2).2)

end Queue

/-! ## The least event -/

/-- Events are in the order of their times and then of their numbers. -/
theorem Event.Before.trans {a b c : Event α} (h : a.Before b) (h' : b.Before c) : a.Before c := by
  unfold Before at *
  omega

theorem Event.not_before_trans {a b c : Event α} (h : ¬ b.Before a) (h' : ¬ c.Before b) :
    ¬ c.Before a := by
  unfold Before at *
  omega

/-- **What `least` picks** is in the list, and nothing of the list comes before it. -/
theorem least_spec {l : List (Event α)} (hl : l ≠ []) :
    ∃ m, least l = some m ∧ m ∈ l ∧ ∀ e ∈ l, ¬ e.Before m := by
  induction l with
  | nil => exact absurd rfl hl
  | cons e l ih =>
      have hself : ¬ e.Before e := by
        unfold Event.Before
        omega
      by_cases hnil : l = []
      · subst hnil
        exact ⟨e, rfl, List.mem_cons_self, by simpa using hself⟩
      · obtain ⟨m, hm, hmem, hmin⟩ := ih hnil
        rw [least, hm]
        dsimp only
        by_cases hb : m.Before e
        · refine ⟨m, if_pos hb, List.mem_cons_of_mem _ hmem, fun x hx => ?_⟩
          rcases List.mem_cons.mp hx with rfl | hx
          · unfold Event.Before at hb ⊢
            omega
          · exact hmin x hx
        · refine ⟨e, if_neg hb, List.mem_cons_self, fun x hx => ?_⟩
          rcases List.mem_cons.mp hx with rfl | hx
          · exact hself
          · exact Event.not_before_trans hb (hmin x hx)

/-- An event before which no other comes is the one `least` picks, when sequence numbers differ. -/
theorem least_eq {l : List (Event α)} {m : Event α} (hm : m ∈ l) (hmin : ∀ e ∈ l, ¬ e.Before m)
    (hseq : ∀ a ∈ l, ∀ b ∈ l, a.seq = b.seq → a = b) : least l = some m := by
  obtain ⟨m', hm', hmem, hmin'⟩ := least_spec (List.ne_nil_of_mem hm)
  have h1 := hmin m' hmem
  have h2 := hmin' m hm
  rw [hm', hseq m' hmem m hm (by unfold Event.Before at h1 h2; omega)]

/-! ## Tickets -/

namespace Queue

variable {q : Queue α}

theorem mem_remove {n : Nat} {e : Event α} :
    e ∈ (q.remove n).pending ↔ e ∈ q.pending ∧ e.ticket ≠ n := by
  unfold remove
  rw [List.mem_filter, decide_eq_true_iff]

/-- Removing the event of a ticket that is not pending removes nothing. -/
theorem remove_of_not_pending {n : Nat} (h : ¬ q.Pending n) : q.remove n = q := by
  have hall : q.pending.filter (fun e => e.ticket ≠ n) = q.pending :=
    List.filter_eq_self.mpr fun e he => decide_eq_true fun hn => h ⟨e, he, hn⟩
  unfold remove
  rw [hall]

theorem length_remove {e : Event α} (hnd : (q.pending.map Event.ticket).Nodup) (he : e ∈ q.pending) :
    (q.remove e.ticket).pending.length + 1 = q.pending.length := by
  have hone : q.pending.countP (fun x => x.ticket = e.ticket) = 1 := by
    have hc := List.count_eq_one_of_mem hnd (List.mem_map_of_mem he)
    rw [List.count, List.countP_map] at hc
    rw [← hc]
    refine List.countP_congr fun x _ => ?_
    simp
  have hsplit := List.length_eq_countP_add_countP (fun x : Event α => x.ticket = e.ticket)
    (l := q.pending)
  unfold remove
  dsimp only
  rw [← List.countP_eq_length_filter]
  rw [hone] at hsplit
  rw [hsplit, Nat.add_comm]
  congr 1
  refine List.countP_congr fun x _ => ?_
  simp

/-- Every pending ticket has been issued. -/
def Issued (q : Queue α) : Prop := ∀ e ∈ q.pending, e.ticket < q.issued

theorem Issued.step (h : q.Issued) (op : Op α) : (q.step op).2.Issued := by
  have hrem : ∀ n, (q.remove n).Issued := fun n e he => h e (mem_remove.mp he).1
  cases op with
  | push ts value =>
      show (q.push ts value).Issued
      unfold push
      split
      · intro e he
        rcases List.mem_append.mp he with he | he
        · exact Nat.lt_succ_of_lt (h e he)
        · rw [List.mem_singleton.mp he]
          exact Nat.lt_succ_self _
      · exact fun e he => Nat.lt_succ_of_lt (h e he)
  | cancel n => exact hrem n
  | peekMin => exact h
  | peekMinTs => exact h
  | popMin =>
      show Issued (match least q.pending with
        | none => (Reply.done, q)
        | some e => (.value e.value, q.remove e.ticket)).2
      split
      · exact h
      · exact hrem _
  | clear => exact fun e he => absurd he List.not_mem_nil

/-- A ticket whose event has left does not become pending again. -/
theorem gone_step {n : Nat} (hn : n < q.issued) (hg : ¬ q.Pending n) (op : Op α) :
    n < (q.step op).2.issued ∧ ¬ (q.step op).2.Pending n := by
  have hrem : ∀ m, n < (q.remove m).issued ∧ ¬ (q.remove m).Pending n := fun m =>
    ⟨hn, fun ⟨e, he, hen⟩ => hg ⟨e, (mem_remove.mp he).1, hen⟩⟩
  cases op with
  | push ts value =>
      show n < (q.push ts value).issued ∧ ¬ (q.push ts value).Pending n
      unfold push
      split
      · refine ⟨Nat.lt_succ_of_lt hn, ?_⟩
        rintro ⟨e, he, hen⟩
        rcases List.mem_append.mp he with he | he
        · exact hg ⟨e, he, hen⟩
        · rw [List.mem_singleton.mp he] at hen
          exact absurd hen (Nat.ne_of_gt hn)
      · exact ⟨Nat.lt_succ_of_lt hn, hg⟩
  | cancel m => exact hrem m
  | peekMin => exact ⟨hn, hg⟩
  | peekMinTs => exact ⟨hn, hg⟩
  | popMin =>
      show n < (match least q.pending with
          | none => (Reply.done, q)
          | some e => (.value e.value, q.remove e.ticket)).2.issued
        ∧ ¬ Pending (match least q.pending with
          | none => (Reply.done, q)
          | some e => (.value e.value, q.remove e.ticket)).2 n
      split
      · exact ⟨hn, hg⟩
      · exact hrem _
  | clear => exact ⟨hn, fun ⟨e, he, _⟩ => absurd he List.not_mem_nil⟩

/-- **A ticket that is gone** stays gone. -/
theorem gone_run {n : Nat} (ops : List (Op α)) (hn : n < q.issued) (hg : ¬ q.Pending n) :
    n < (run ops q).2.issued ∧ ¬ (run ops q).2.Pending n := by
  induction ops generalizing q with
  | nil => exact ⟨hn, hg⟩
  | cons op ops ih => exact ih (gone_step hn hg op).1 (gone_step hn hg op).2

theorem run_append (ops ops' : List (Op α)) :
    (run (ops ++ ops') q).2 = (run ops' (run ops q).2).2 := by
  induction ops generalizing q with
  | nil => rfl
  | cons op ops ih => exact ih

theorem replies_append (ops ops' : List (Op α)) :
    (run (ops ++ ops') q).1 = (run ops q).1 ++ (run ops' (run ops q).2).1 := by
  induction ops generalizing q with
  | nil => rfl
  | cons op ops ih => exact congrArg (_ :: ·) ih

theorem length_replies (ops : List (Op α)) : (run ops q).1.length = ops.length := by
  induction ops generalizing q with
  | nil => rfl
  | cons op ops ih => exact congrArg (· + 1) ih

end Queue

/-! ## Taking what is due -/

namespace Queue

/-- What leaves when all that is due at `t` leaves, in the order of its leaving. -/
def due (q : Queue α) (t : Nat) : List (Event α) :=
  (q.pending.filter fun e => e.ts ≤ t).mergeSort fun a b => ¬ b.Before a

/-- What is left when everything due has been taken. -/
def later (q : Queue α) (t : Nat) : Queue α :=
  { q with pending := q.pending.filter fun e => t < e.ts }

theorem push_room {q : Queue α} (h : q.pending.length < q.capacity) (ts : Nat) (v : α) :
    q.push ts v = { q with
      pending := q.pending ++ [{ ts, seq := q.nextSeq, ticket := q.issued, value := v }]
      nextSeq := q.nextSeq + 1
      issued := q.issued + 1 } := if_pos h

theorem push_full {q : Queue α} (h : ¬ q.pending.length < q.capacity) (ts : Nat) (v : α) :
    q.push ts v = { q with issued := q.issued + 1 } := if_neg h

/-- No two pending events have a ticket or a sequence number in common. -/
structure Distinct (q : Queue α) : Prop where
  tickets : (q.pending.map Event.ticket).Nodup
  seqs : ∀ a ∈ q.pending, ∀ b ∈ q.pending, a.seq = b.seq → a = b

variable {q : Queue α}

theorem mem_due {t : Nat} {e : Event α} : e ∈ q.due t ↔ e ∈ q.pending ∧ e.ts ≤ t := by
  unfold due
  rw [List.mem_mergeSort, List.mem_filter, decide_eq_true_iff]

theorem mem_later {t : Nat} {e : Event α} : e ∈ (q.later t).pending ↔ e ∈ q.pending ∧ t < e.ts := by
  unfold later
  rw [List.mem_filter, decide_eq_true_iff]

/-- What is due comes in order. -/
theorem due_sorted (q : Queue α) (t : Nat) : (q.due t).Pairwise fun a b => ¬ b.Before a := by
  have hsort : (q.due t).Pairwise fun a b => decide (¬ b.Before a) = true := by
    refine List.pairwise_mergeSort (fun a b c hab hbc => ?_) (fun a b => ?_) _
    · exact decide_eq_true
        (Event.not_before_trans (of_decide_eq_true hab) (of_decide_eq_true hbc))
    · rw [Bool.or_eq_true, decide_eq_true_iff, decide_eq_true_iff]
      unfold Event.Before
      omega
  exact hsort.imp of_decide_eq_true

theorem Distinct.nodup (h : q.Distinct) : q.pending.Nodup := h.tickets.of_map

/-- Two pending events are the same or one of them comes before the other. -/
theorem Distinct.before_or (h : q.Distinct) {a b : Event α} (ha : a ∈ q.pending)
    (hb : b ∈ q.pending) (hab : ¬ a.Before b) (hba : ¬ b.Before a) : a = b := by
  refine h.seqs a ha b hb ?_
  unfold Event.Before at hab hba
  omega

/-- It comes strictly in order, no two events being numbered alike. -/
theorem Distinct.due_pairwise (h : q.Distinct) (t : Nat) : (q.due t).Pairwise Event.Before := by
  have hnd : (q.due t).Nodup :=
    (List.mergeSort_perm _ _).nodup_iff.mpr (h.nodup.filter _)
  refine ((due_sorted q t).and hnd).imp_of_mem fun {a b} ha hb hab => ?_
  by_contra hn
  exact hab.2 (h.before_or (mem_due.mp ha).1 (mem_due.mp hb).1 hn hab.1)

theorem Distinct.remove (h : q.Distinct) (n : Nat) : (q.remove n).Distinct where
  tickets := h.tickets.sublist (List.Sublist.map _ List.filter_sublist)
  seqs a ha b hb := h.seqs a (mem_remove.mp ha).1 b (mem_remove.mp hb).1

/-- Removing a pending event takes that event and no other. -/
theorem Distinct.remove_perm (h : q.Distinct) {e : Event α} (he : e ∈ q.pending) :
    (e :: (q.remove e.ticket).pending).Perm q.pending := by
  have hout : e ∉ (q.remove e.ticket).pending := fun hc => (mem_remove.mp hc).2 rfl
  refine (List.perm_ext_iff_of_nodup ?_ h.nodup).mpr fun x => ?_
  · exact List.nodup_cons.mpr ⟨hout, (h.remove _).nodup⟩
  · rw [List.mem_cons, mem_remove]
    constructor
    · rintro (rfl | ⟨hx, _⟩)
      · exact he
      · exact hx
    · intro hx
      by_cases hxe : x = e
      · exact Or.inl hxe
      · exact Or.inr ⟨hx, fun hc => hxe (List.inj_on_of_nodup_map h.tickets hx he hc)⟩

/-- **One more leaves** while the least event is due. -/
theorem Distinct.due_cons (h : q.Distinct) {e : Event α} (hleast : least q.pending = some e)
    {t : Nat} (ht : e.ts ≤ t) :
    q.due t = e :: (q.remove e.ticket).due t ∧ (q.remove e.ticket).later t = q.later t := by
  have hne : q.pending ≠ [] := fun hc => by
    rw [hc] at hleast
    cases hleast
  obtain ⟨m, hm, hmem, hmin⟩ := least_spec hne
  rw [hleast, Option.some_inj] at hm
  subst hm
  constructor
  · have hperm : (e :: (q.remove e.ticket).due t).Perm (q.due t) := by
      have hfilter := (h.remove_perm hmem).filter fun x => x.ts ≤ t
      rw [List.filter_cons, if_pos (decide_eq_true ht)] at hfilter
      exact ((List.mergeSort_perm _ _).cons e).trans
        (hfilter.trans (List.mergeSort_perm _ _).symm)
    refine (hperm.symm.eq_of_pairwise (fun a b ha hb hab hba => ?_) (due_sorted q t) ?_)
    · exact h.before_or (mem_due.mp ha).1 (mem_due.mp (hperm.subset hb)).1 hba hab
    · refine List.pairwise_cons.mpr ⟨fun x hx => ?_, due_sorted _ t⟩
      exact hmin x (mem_remove.mp (mem_due.mp hx).1).1
  · have hrest : (q.remove e.ticket).pending = q.pending.filter fun x => x.ticket ≠ e.ticket := rfl
    unfold later
    rw [hrest, List.filter_filter]
    show ({ q with pending := _ } : Queue α) = _
    congr 1
    refine List.filter_congr fun x hx => ?_
    rw [Bool.and_eq_left_iff_imp]
    intro hlt
    refine decide_eq_true fun hc => ?_
    have hxe := List.inj_on_of_nodup_map h.tickets hx hmem hc
    rw [hxe, decide_eq_true_iff] at hlt
    omega

/-- Nothing leaves when nothing is due. -/
theorem due_nil {t : Nat} (h : ∀ e ∈ q.pending, t < e.ts) : q.due t = [] ∧ q.later t = q := by
  constructor
  · refine List.eq_nil_iff_forall_not_mem.mpr fun e he => ?_
    obtain ⟨hmem, hle⟩ := mem_due.mp he
    exact absurd hle (Nat.not_le.mpr (h e hmem))
  · unfold later
    rw [List.filter_eq_self.mpr fun e he => decide_eq_true (h e he)]

end Queue

/-! ## Engines -/

/-- What implements a queue: the calls, over a state `σ` and handles `η`. -/
structure Engine (σ : Type v) (η : Type w) (α : Type u) where
  push : σ → Nat → α → η × σ
  cancel : σ → η → Bool × σ
  peekMin : σ → α × σ
  peekMinTs : σ → Nat × σ
  popMin : σ → α × σ
  clear : σ → σ

namespace Engine

variable {σ : Type v} {η : Type w} (E : Engine σ η α)

/-- A client makes a call; `H` holds the handles it has been given, by ticket. -/
def step (s : σ) (H : List η) : Op α → Reply α × σ × List η
  | .push ts value => (.done, (E.push s ts value).2, H ++ [(E.push s ts value).1])
  | .cancel n =>
      match H[n]? with
      | none => (.flag false, s, H)
      | some h => (.flag (E.cancel s h).1, (E.cancel s h).2, H)
  | .peekMin => (.value (E.peekMin s).1, (E.peekMin s).2, H)
  | .peekMinTs => (.ts (E.peekMinTs s).1, (E.peekMinTs s).2, H)
  | .popMin => (.value (E.popMin s).1, (E.popMin s).2, H)
  | .clear => (.done, E.clear s, H)

def run : List (Op α) → σ → List η → List (Reply α) × σ × List η
  | [], s, H => ([], s, H)
  | op :: ops, s, H =>
      let r := E.step s H op
      let rs := run ops r.2.1 r.2.2
      (r.1 :: rs.1, rs.2)

/-- Every call of a run meets `ok` in the state where it is made. -/
def Obeys (ok : σ → Op α → Prop) : List (Op α) → σ → List η → Prop
  | [], _, _ => True
  | op :: ops, s, H => ok s op ∧ Obeys ok ops (E.step s H op).2.1 (E.step s H op).2.2

theorem step_handles (s : σ) (H : List η) (op : Op α) : ∃ l, (E.step s H op).2.2 = H ++ l := by
  cases op with
  | push ts value => exact ⟨_, rfl⟩
  | cancel n =>
      refine ⟨[], ?_⟩
      rw [step, List.append_nil]
      split <;> rfl
  | peekMin => exact ⟨[], (List.append_nil H).symm⟩
  | peekMinTs => exact ⟨[], (List.append_nil H).symm⟩
  | popMin => exact ⟨[], (List.append_nil H).symm⟩
  | clear => exact ⟨[], (List.append_nil H).symm⟩

theorem run_handles (ops : List (Op α)) (s : σ) (H : List η) :
    ∃ l, (E.run ops s H).2.2 = H ++ l := by
  induction ops generalizing s H with
  | nil => exact ⟨[], (List.append_nil H).symm⟩
  | cons op ops ih =>
      obtain ⟨l, hl⟩ := E.step_handles s H op
      obtain ⟨l', hl'⟩ := ih (E.step s H op).2.1 (E.step s H op).2.2
      refine ⟨l ++ l', ?_⟩
      rw [← List.append_assoc, ← hl]
      exact hl'

theorem run_append (ops ops' : List (Op α)) (s : σ) (H : List η) :
    (E.run (ops ++ ops') s H).2 = (E.run ops' (E.run ops s H).2.1 (E.run ops s H).2.2).2 := by
  induction ops generalizing s H with
  | nil => rfl
  | cons op ops ih => exact ih ..

theorem replies_append (ops ops' : List (Op α)) (s : σ) (H : List η) :
    (E.run (ops ++ ops') s H).1
      = (E.run ops s H).1 ++ (E.run ops' (E.run ops s H).2.1 (E.run ops s H).2.2).1 := by
  induction ops generalizing s H with
  | nil => rfl
  | cons op ops ih => exact congrArg (_ :: ·) (ih ..)

theorem length_replies (ops : List (Op α)) (s : σ) (H : List η) :
    (E.run ops s H).1.length = ops.length := by
  induction ops generalizing s H with
  | nil => rfl
  | cons op ops ih => exact congrArg (· + 1) (ih ..)

/-- A call gives out at most one handle. -/
theorem length_handles_le (ops : List (Op α)) (s : σ) (H : List η) :
    (E.run ops s H).2.2.length ≤ H.length + ops.length := by
  induction ops generalizing s H with
  | nil => exact Nat.le_refl _
  | cons op ops ih =>
      have hstep : (E.step s H op).2.2.length ≤ H.length + 1 := by
        cases op with
        | push ts value => exact Nat.le_of_eq (List.length_append ..)
        | cancel n =>
            rw [step]
            split <;> exact Nat.le_succ _
        | _ => exact Nat.le_succ _
      have := ih (E.step s H op).2.1 (E.step s H op).2.2
      rw [List.length_cons]
      exact Nat.le_trans this (by omega)

/-- One call of the engine answers as the queue does and keeps `R`, when the handles given
out meet `B`. -/
def Simulates (R : σ → List η → Queue α → Prop) (B : List η → Prop) (ok : σ → Op α → Prop) : Prop :=
  ∀ s H q op, R s H q → B (E.step s H op).2.2 → ok s op →
    (E.step s H op).1 = (q.step op).1 ∧ R (E.step s H op).2.1 (E.step s H op).2.2 (q.step op).2

/-- One call of either engine has the same reply, gives out the same handle and keeps `R`. -/
def Matches {σ' : Type v} (E' : Engine σ' η α) (R : σ → σ' → Prop) (ok : σ → Op α → Prop) : Prop :=
  ∀ s s' H op, R s s' → ok s op →
    (E.step s H op).1 = (E'.step s' H op).1 ∧ (E.step s H op).2.2 = (E'.step s' H op).2.2
      ∧ R (E.step s H op).2.1 (E'.step s' H op).2.1

variable {E}

theorem obeys_append {ok : σ → Op α → Prop} {ops ops' : List (Op α)} {s : σ} {H : List η} :
    E.Obeys ok (ops ++ ops') s H
      ↔ E.Obeys ok ops s H ∧ E.Obeys ok ops' (E.run ops s H).2.1 (E.run ops s H).2.2 := by
  induction ops generalizing s H with
  | nil => exact ⟨fun h => ⟨trivial, h⟩, fun h => h.2⟩
  | cons op ops ih => exact (and_congr_right fun _ => ih).trans and_assoc.symm

/-- A stricter client obeys. -/
theorem Obeys.imp {ok ok' : σ → Op α → Prop} (himp : ∀ s op, ok s op → ok' s op)
    {ops : List (Op α)} {s : σ} {H : List η} (h : E.Obeys ok ops s H) : E.Obeys ok' ops s H := by
  induction ops generalizing s H with
  | nil => trivial
  | cons op ops ih => exact ⟨himp _ _ h.1, ih h.2⟩

/-- The calls up to any point of a run meet what all of them meet. -/
theorem Obeys.left {ok : σ → Op α → Prop} {ops ops' : List (Op α)} {s : σ} {H : List η}
    (h : E.Obeys ok (ops ++ ops') s H) : E.Obeys ok ops s H := (obeys_append.mp h).1

/-- **A simulating engine answers every run as the queue does.** -/
theorem Simulates.run {R : σ → List η → Queue α → Prop} {B : List η → Prop}
    {ok : σ → Op α → Prop} (hsim : E.Simulates R B ok) (hB : ∀ H l, B (H ++ l) → B H)
    {ops : List (Op α)} {s : σ} {H : List η} {q : Queue α} (hR : R s H q)
    (hok : E.Obeys ok ops s H) (hfin : B (E.run ops s H).2.2) :
    (E.run ops s H).1 = (Queue.run ops q).1
      ∧ R (E.run ops s H).2.1 (E.run ops s H).2.2 (Queue.run ops q).2 := by
  induction ops generalizing s H q with
  | nil => exact ⟨rfl, hR⟩
  | cons op ops ih =>
      obtain ⟨hnow, hrest⟩ := hok
      obtain ⟨l, hl⟩ := E.run_handles ops (E.step s H op).2.1 (E.step s H op).2.2
      have hbound : B (E.step s H op).2.2 := hB _ l (hl ▸ hfin)
      obtain ⟨hreply, hR'⟩ := hsim s H q op hR hbound hnow
      obtain ⟨hreplies, hend⟩ := ih hR' hrest hfin
      exact ⟨List.cons_eq_cons.mpr ⟨hreply, hreplies⟩, hend⟩

/-- **Matching engines answer every run alike.** -/
theorem Matches.run {σ' : Type v} {E' : Engine σ' η α} {R : σ → σ' → Prop}
    {ok : σ → Op α → Prop} (hm : E.Matches E' R ok) {ops : List (Op α)} {s : σ} {s' : σ'}
    {H : List η} (hR : R s s') (hok : E.Obeys ok ops s H) :
    (E.run ops s H).1 = (E'.run ops s' H).1 ∧ (E.run ops s H).2.2 = (E'.run ops s' H).2.2
      ∧ R (E.run ops s H).2.1 (E'.run ops s' H).2.1 := by
  induction ops generalizing s s' H with
  | nil => exact ⟨rfl, rfl, hR⟩
  | cons op ops ih =>
      obtain ⟨hnow, hrest⟩ := hok
      obtain ⟨hreply, hhandles, hR'⟩ := hm s s' H op hR hnow
      obtain ⟨hreplies, hend⟩ := ih hR' hrest
      rw [hhandles] at hreplies hend
      refine ⟨List.cons_eq_cons.mpr ⟨hreply, ?_⟩, ?_⟩
      · show (E.run ops _ _).1 = _
        rw [hhandles]
        exact hreplies
      · show (E.run ops _ _).2.2 = _ ∧ R (E.run ops _ _).2.1 _
        rw [hhandles]
        exact hend

end Engine

end TicketQueue
