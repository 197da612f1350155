import Mog.Event.Slots

/-!
# Schedulers as engines

An engine over event slots keeps an invariant of its own and knows its slot table. If
its calls change the table as the table's own operations do, and if it peeks at and
pops the least recorded event, it answers every run of calls as the queue with tickets.

The tickets of the queue stand for handles, and a handle is right as long as the generations of
its slot have not come round; that is the bound in `Unwrapped`. For two engines over equal
tables no such bound is needed, since both answer a stale handle from the same generation. The
conditions under which an engine's own calls work are a parameter `ok`.
-/

namespace Mog

open TicketQueue SlotTable

variable {σ α : Type}

/-- An engine over the slots `table s`, in states that meet `Inv`. -/
structure SlotEngine (E : Engine σ GenHandle α) (Inv : σ → Prop) (table : σ → SlotTable α)
    (ok : σ → Op α → Prop) : Prop where
  push : ∀ s l ts v, Inv s → Free (table s) l → ok s (.push ts v) →
    (E.push s ts v).1 = ((table s).push ts v).1 ∧ table (E.push s ts v).2 = ((table s).push ts v).2
      ∧ Inv (E.push s ts v).2
  flag : ∀ s l h, Inv s → Free (table s) l → (E.cancel s h).1 = ((table s).cancel h).1
  cancel : ∀ s l n h, Inv s → Free (table s) l → ok s (.cancel n) →
    table (E.cancel s h).2 = ((table s).cancel h).2 ∧ Inv (E.cancel s h).2
  peekMin : ∀ s l, Inv s → Free (table s) l → ok s .peekMin →
    ∃ i r, (table s).Least i r ∧ (E.peekMin s).1 = r.value ∧ table (E.peekMin s).2 = table s
      ∧ Inv (E.peekMin s).2
  peekMinTs : ∀ s l, Inv s → Free (table s) l → ok s .peekMinTs →
    ∃ i r, (table s).Least i r ∧ (E.peekMinTs s).1 = r.ts ∧ table (E.peekMinTs s).2 = table s
      ∧ Inv (E.peekMinTs s).2
  popMin : ∀ s l, Inv s → Free (table s) l → ok s .popMin →
    ∃ i r, (table s).Least i r ∧ (E.popMin s).1 = r.value
      ∧ table (E.popMin s).2 = (table s).release i ∧ Inv (E.popMin s).2
  clear : ∀ s l, Inv s → Free (table s) l → 0 < (table s).capacity →
    table (E.clear s) = (table s).clear ∧ Inv (E.clear s)

/-- The engine in state `s` stands for the queue `q`. -/
structure Represents (Inv : σ → Prop) (table : σ → SlotTable α) (cap : Nat) (s : σ)
    (H : List GenHandle) (q : Queue α) : Prop where
  inv : Inv s
  cap : (table s).capacity = cap
  tickets : Tickets (table s) H q

/-- No slot has been handed out more often than its generation can tell. -/
def Unwrapped (cap : Nat) (H : List GenHandle) : Prop := ∀ i, i < cap → uses H i ≤ 2 ^ 32

theorem Unwrapped.prefix {cap : Nat} (H l : List GenHandle) (h : Unwrapped cap (H ++ l)) :
    Unwrapped cap H := by
  intro i hi
  have := h i hi
  rw [uses_append] at this
  omega

/-- A run of at most 2^32 calls uses no slot too often. -/
theorem unwrapped_of_length {E : Engine σ GenHandle α} {ops : List (Op α)}
    (hops : ops.length ≤ 2 ^ 32) (cap : Nat) (s : σ) : Unwrapped cap (E.run ops s []).2.2 :=
  fun _ _ => List.countP_le_length.trans
    ((E.length_handles_le ops s []).trans (by rw [List.length_nil]; omega))

/-- No table operation changes the capacity. -/
theorem SlotTable.push_capacity (t : SlotTable α) (ts : Nat) (v : α) :
    (t.push ts v).2.capacity = t.capacity := by
  unfold SlotTable.push
  split
  · rfl
  · show t.acquire.capacity = t.capacity
    unfold SlotTable.acquire
    split <;> rfl

theorem SlotTable.cancel_capacity (t : SlotTable α) (h : GenHandle) :
    (t.cancel h).2.capacity = t.capacity := by
  unfold SlotTable.cancel
  split <;> rfl

variable {E : Engine σ GenHandle α} {Inv : σ → Prop} {table : σ → SlotTable α}
  {ok : σ → Op α → Prop} {cap : Nat}

/-- No call changes the capacity, so what it says about a call need not be checked call by call. -/
theorem SlotEngine.within {ok' : σ → Op α → Prop} (hE : SlotEngine E Inv table ok) (P : Nat → Prop)
    (hok : ∀ s l op, Free (table s) l → P (table s).capacity → ok' s op → ok s op) :
    SlotEngine E (fun s => Inv s ∧ P (table s).capacity) table ok' where
  push s l ts v h hl hnow := by
    obtain ⟨hhandle, htable, hinv⟩ := hE.push s l ts v h.1 hl (hok s l _ hl h.2 hnow)
    exact ⟨hhandle, htable, hinv, by rw [htable, SlotTable.push_capacity]; exact h.2⟩
  flag s l g h hl := hE.flag s l g h.1 hl
  cancel s l n g h hl hnow := by
    obtain ⟨htable, hinv⟩ := hE.cancel s l n g h.1 hl (hok s l _ hl h.2 hnow)
    exact ⟨htable, hinv, by rw [htable, SlotTable.cancel_capacity]; exact h.2⟩
  peekMin s l h hl hnow := by
    obtain ⟨i, r, hleast, hval, htable, hinv⟩ := hE.peekMin s l h.1 hl (hok s l _ hl h.2 hnow)
    exact ⟨i, r, hleast, hval, htable, hinv, by rw [htable]; exact h.2⟩
  peekMinTs s l h hl hnow := by
    obtain ⟨i, r, hleast, hts, htable, hinv⟩ := hE.peekMinTs s l h.1 hl (hok s l _ hl h.2 hnow)
    exact ⟨i, r, hleast, hts, htable, hinv, by rw [htable]; exact h.2⟩
  popMin s l h hl hnow := by
    obtain ⟨i, r, hleast, hval, htable, hinv⟩ := hE.popMin s l h.1 hl (hok s l _ hl h.2 hnow)
    exact ⟨i, r, hleast, hval, htable, hinv, by rw [htable]; exact h.2⟩
  clear s l h hl hpos := by
    obtain ⟨htable, hinv⟩ := hE.clear s l h.1 hl hpos
    exact ⟨htable, hinv, by rw [htable]; exact h.2⟩

/-- **An engine over event slots simulates the queue.** -/
theorem SlotEngine.simulates (hE : SlotEngine E Inv table ok) :
    E.Simulates (Represents Inv table cap) (Unwrapped cap) ok := by
  intro s H q op hR hB hok
  obtain ⟨l, hl⟩ := hR.tickets.free
  cases op with
  | push ts v =>
      obtain ⟨hhandle, htable, hinv⟩ := hE.push s l ts v hR.inv hl hok
      refine ⟨rfl, hinv, ?_, ?_⟩
      · show (table (E.push s ts v).2).capacity = cap
        rw [htable, SlotTable.push_capacity, hR.cap]
      · show Tickets (table (E.push s ts v).2) (H ++ [(E.push s ts v).1]) (q.push ts v)
        rw [hhandle, htable]
        exact hR.tickets.push ts v
  -- A ticket that has not been handed out names nothing; one that has names its handle, which is
  -- still valid exactly if its event is pending, generations not having come round.
  | cancel n =>
      cases hget : H[n]? with
      | none =>
          have hgone : ¬ q.Pending n := by
            rintro ⟨e, he, rfl⟩
            exact absurd (hR.tickets.ticket_lt he) (Nat.not_lt.mpr (List.getElem?_eq_none_iff.mp hget))
          have hstep : E.step s H (.cancel n) = (.flag false, s, H) := by rw [Engine.step, hget]
          rw [hstep, Queue.step, Queue.remove_of_not_pending hgone, decide_eq_false hgone]
          exact ⟨rfl, hR⟩
      | some h =>
          have hstep : E.step s H (.cancel n) = (.flag (E.cancel s h).1, (E.cancel s h).2, H) := by
            rw [Engine.step, hget]
          have hflag := hE.flag s l h hR.inv hl
          obtain ⟨htable, hinv⟩ := hE.cancel s l n h hR.inv hl hok
          rw [hstep] at hB ⊢
          have huses : ∀ i, i < (table s).capacity → uses H i ≤ 2 ^ 32 := by
            rw [hR.cap]
            exact hB
          obtain ⟨hreply, htickets⟩ := hR.tickets.cancel huses hget
          refine ⟨?_, hinv, ?_, ?_⟩
          · show Reply.flag (E.cancel s h).1 = .flag (decide (q.Pending n))
            rw [hflag, hreply]
          · show (table (E.cancel s h).2).capacity = cap
            rw [htable, SlotTable.cancel_capacity, hR.cap]
          · show Tickets (table (E.cancel s h).2) H (q.remove n)
            rw [htable]
            exact htickets
  -- The least record is that of the least pending event, by time and then by number.
  | peekMin =>
      obtain ⟨i, r, hleast, hval, htable, hinv⟩ :=
        hE.peekMin s l hR.inv hl hok
      obtain ⟨e, he, _, hv, _⟩ := hR.tickets.least hleast
      refine ⟨?_, hinv, ?_, ?_⟩
      · show Reply.value (E.peekMin s).1 = ((least q.pending).map fun e => .value e.value).getD .done
        rw [hval, he, ← hv]
        rfl
      · show (table (E.peekMin s).2).capacity = cap
        rw [htable, hR.cap]
      · show Tickets (table (E.peekMin s).2) H q
        rw [htable]
        exact hR.tickets
  | peekMinTs =>
      obtain ⟨i, r, hleast, hts, htable, hinv⟩ :=
        hE.peekMinTs s l hR.inv hl hok
      obtain ⟨e, he, ht, _⟩ := hR.tickets.least hleast
      refine ⟨?_, hinv, ?_, ?_⟩
      · show Reply.ts (E.peekMinTs s).1 = ((least q.pending).map fun e => .ts e.ts).getD .done
        rw [hts, he, ← ht]
        rfl
      · show (table (E.peekMinTs s).2).capacity = cap
        rw [htable, hR.cap]
      · show Tickets (table (E.peekMinTs s).2) H q
        rw [htable]
        exact hR.tickets
  -- The least event leaves the queue as its slot is released.
  | popMin =>
      obtain ⟨i, r, hleast, hval, htable, hinv⟩ :=
        hE.popMin s l hR.inv hl hok
      obtain ⟨e, he, _, hv, hmem, hslot⟩ := hR.tickets.least hleast
      have hq : q.step .popMin = (.value e.value, q.remove e.ticket) := by
        rw [Queue.step, he]
      rw [hq]
      refine ⟨?_, hinv, ?_, ?_⟩
      · show Reply.value (E.popMin s).1 = .value e.value
        rw [hval, hv]
      · show (table (E.popMin s).2).capacity = cap
        rw [htable]
        exact hR.cap
      · show Tickets (table (E.popMin s).2) H (q.remove e.ticket)
        rw [htable]
        exact hR.tickets.release hmem hslot
  | clear =>
      obtain ⟨htable, hinv⟩ := hE.clear s l hR.inv hl hR.tickets.pos
      refine ⟨rfl, hinv, ?_, ?_⟩
      · show (table (E.clear s)).capacity = cap
        rw [htable]
        exact hR.cap
      · show Tickets (table (E.clear s)) H q.clear
        rw [htable]
        exact hR.tickets.clear

/-- A table of which no slot has been used is an empty queue. -/
theorem SlotTable.Tickets.unused {t : SlotTable α} (hpos : 0 < t.capacity)
    (hcap : t.capacity < kNullIndex) (hmark : t.watermark = 0) (hhead : t.freeHead = kNullIndex)
    (hfresh : ∀ i, t.record i = none ∧ t.generation i = 0) (hsize : t.size = 0)
    (hseq : t.nextSeq = 0) : Tickets t [] { capacity := t.capacity } where
  free := ⟨[], hcap, by rw [hmark]; exact Nat.zero_le _, hhead, List.nodup_nil,
    fun i => ⟨fun hi => absurd hi List.not_mem_nil, fun hi => by
      rw [hmark] at hi
      exact absurd hi.1 (Nat.not_lt_zero i)⟩,
    fun i _ => hfresh i, by rw [hsize, hmark]; rfl⟩
  pos := hpos
  capacity := rfl
  seq := hseq.symm
  issued := rfl
  numbered n h hn := by
    rw [List.getElem?_nil] at hn
    cases hn
  generation i _ := by
    rw [(hfresh i).1, (hfresh i).2]
    rfl
  wraps i := by
    rw [(hfresh i).2]
    exact Nat.two_pow_pos 32
  nodup := List.nodup_nil
  size := hsize.symm
  slot e he := absurd he List.not_mem_nil
  event i r hr := by
    rw [(hfresh i).1] at hr
    cases hr
  seq_lt e he := absurd he List.not_mem_nil
  seq_inj e he := absurd he List.not_mem_nil

/-- After a run, a handle that the client holds cancels exactly when its event is pending, and
never again once the event has left. -/
structure Faithful (E : Engine σ GenHandle α) (ops : List (Op α)) (s : σ) (q : Queue α) :
    Prop where
  replies : (E.run ops s []).1 = (Queue.run ops q).1
  cancel : ∀ n h, (E.run ops s []).2.2[n]? = some h →
    (E.cancel (E.run ops s []).2.1 h).1 = decide ((Queue.run ops q).2.Pending n)
  stale : ∀ before after, ops = before ++ after → ∀ n, n < (Queue.run before q).2.issued →
    ¬ (Queue.run before q).2.Pending n → ∀ h, (E.run ops s []).2.2[n]? = some h →
      (E.cancel (E.run ops s []).2.1 h).1 = false

/-- **An engine over event slots is faithful in every run**, and represents the queue
at its end. -/
theorem SlotEngine.faithful (hE : SlotEngine E Inv table ok) {s : σ} {q : Queue α}
    {ops : List (Op α)} (hR : Represents Inv table cap s [] q)
    (hok : E.Obeys ok ops s []) (hwrap : Unwrapped cap (E.run ops s []).2.2) :
    Faithful E ops s q
      ∧ Represents Inv table cap (E.run ops s []).2.1 (E.run ops s []).2.2 (Queue.run ops q).2 := by
  obtain ⟨hreplies, hend⟩ := hE.simulates.run Unwrapped.prefix hR hok hwrap
  have hcancel : ∀ n h, (E.run ops s []).2.2[n]? = some h →
      (E.cancel (E.run ops s []).2.1 h).1 = decide ((Queue.run ops q).2.Pending n) := by
    intro n h hn
    obtain ⟨l, hl⟩ := hend.tickets.free
    rw [hE.flag _ l h hend.inv hl]
    refine (hend.tickets.cancel ?_ hn).1
    rw [hend.cap]
    exact hwrap
  refine ⟨⟨hreplies, hcancel, fun before after hops n hn hgone h hh => ?_⟩, hend⟩
  rw [hcancel n h hh, hops, Queue.run_append]
  exact decide_eq_false (Queue.gone_run after hn hgone).2

/-! ## Two engines over equal tables -/

namespace SlotTable

variable {t : SlotTable α}

/-- The recorded events bear distinct sequence numbers, all of them used up. -/
structure Sequenced (t : SlotTable α) : Prop where
  free : ∃ l, Free t l
  pos : 0 < t.capacity
  seq_lt : ∀ i r, t.record i = some r → r.seq < t.nextSeq
  seq_inj : ∀ i j r r', t.record i = some r → t.record j = some r' → r.seq = r'.seq → i = j

/-- Only one slot is the least. -/
theorem Sequenced.least_unique (h : t.Sequenced) {i j : Nat} {r r' : SlotRecord α}
    (hi : t.Least i r) (hj : t.Least j r') : i = j ∧ r = r' := by
  have h1 := hi.2 j r' hj.1
  have h2 := hj.2 i r hi.1
  have hij : i = j := h.seq_inj i j r r' hi.1 hj.1 (by omega)
  have hr := hi.1
  rw [hij, hj.1, Option.some_inj] at hr
  exact ⟨hij, hr.symm⟩

theorem Sequenced.push (h : t.Sequenced) (ts : Nat) (v : α) : (t.push ts v).2.Sequenced := by
  obtain ⟨l, hl⟩ := h.free
  have hcap := t.push_capacity ts v
  unfold SlotTable.push at hcap ⊢
  by_cases hfull : t.full
  · rw [if_pos hfull]
    exact h
  · rw [if_neg hfull] at hcap ⊢
    obtain ⟨_, hnone, _, hrec, hfree⟩ := hl.nextSlot hfull
    have hseq : t.acquire.nextSeq = t.nextSeq := by
      unfold acquire
      split <;> rfl
    let r : SlotRecord α := { ts, seq := t.nextSeq, value := v }
    have hself : (t.acquire.put t.nextSlot r).record t.nextSlot = some r := Function.update_self ..
    have hother : ∀ i, i ≠ t.nextSlot → (t.acquire.put t.nextSlot r).record i = t.record i := by
      intro i hi
      rw [← hrec]
      exact Function.update_of_ne hi _ _
    have hnext : (t.acquire.put t.nextSlot r).nextSeq = t.nextSeq + 1 := congrArg (· + 1) hseq
    refine ⟨hfree _, by rw [hcap]; exact h.pos, fun i r' hi => ?_, fun i j r₁ r₂ hi hj hij => ?_⟩
    · rw [hnext]
      by_cases hin : i = t.nextSlot
      · rw [hin, hself, Option.some_inj] at hi
        rw [← hi]
        exact Nat.lt_succ_self _
      · rw [hother i hin] at hi
        exact Nat.lt_succ_of_lt (h.seq_lt i r' hi)
    · by_cases hin : i = t.nextSlot
      · rw [hin, hself, Option.some_inj] at hi
        by_cases hjn : j = t.nextSlot
        · exact hin.trans hjn.symm
        · rw [hother j hjn] at hj
          have := h.seq_lt j r₂ hj
          rw [← hij, ← hi] at this
          exact absurd this (Nat.lt_irrefl _)
      · rw [hother i hin] at hi
        by_cases hjn : j = t.nextSlot
        · rw [hjn, hself, Option.some_inj] at hj
          have := h.seq_lt i r₁ hi
          rw [hij, ← hj] at this
          exact absurd this (Nat.lt_irrefl _)
        · rw [hother j hjn] at hj
          exact h.seq_inj i j r₁ r₂ hi hj hij

theorem Sequenced.release (h : t.Sequenced) {i : Nat} {r : SlotRecord α}
    (hi : t.record i = some r) : (t.release i).Sequenced := by
  obtain ⟨l, hl⟩ := h.free
  have hold : ∀ j r', (t.release i).record j = some r' → t.record j = some r' := by
    intro j r' hj
    by_cases hji : j = i
    · rw [hji, show (t.release i).record i = none from Function.update_self ..] at hj
      cases hj
    · rw [show (t.release i).record j = t.record j from Function.update_of_ne hji _ _] at hj
      exact hj
  exact ⟨⟨_, hl.release hi (hl.size_pos hi)⟩, h.pos,
    fun j r' hj => h.seq_lt j r' (hold j r' hj),
    fun j k r₁ r₂ hj hk => h.seq_inj j k r₁ r₂ (hold j r₁ hj) (hold k r₂ hk)⟩

theorem Sequenced.cancel (h : t.Sequenced) (g : GenHandle) : (t.cancel g).2.Sequenced := by
  unfold SlotTable.cancel
  by_cases hn : t.Names g
  · rw [if_pos hn]
    obtain ⟨r, hr⟩ := Option.isSome_iff_exists.mp hn.2.1
    exact h.release hr
  · rw [if_neg hn]
    exact h

theorem Sequenced.clear (h : t.Sequenced) : t.clear.Sequenced := by
  obtain ⟨l, hl⟩ := h.free
  have hnone : ∀ i, t.clear.record i = none := fun _ => rfl
  exact ⟨⟨_, hl.clear h.pos⟩, h.pos, fun i r hi => absurd hi (by rw [hnone]; exact nofun),
    fun i j r r' hi => absurd hi (by rw [hnone]; exact nofun)⟩

/-- The table of a queue with tickets. -/
theorem Tickets.sequenced {H : List GenHandle} {q : Queue α} (h : Tickets t H q) : t.Sequenced where
  free := h.free
  pos := h.pos
  seq_lt i r hi := by
    obtain ⟨e, he, hH⟩ := h.event i r hi
    obtain ⟨j, hj, hrj⟩ := h.slot e he
    rw [hH, Option.some_inj, GenHandle.mk.injEq] at hj
    rw [← hj.1, hi, Option.some_inj] at hrj
    rw [hrj, ← h.seq]
    exact h.seq_lt e he
  seq_inj i j r r' hi hj hseq := by
    obtain ⟨e, he, hH⟩ := h.event i r hi
    obtain ⟨e', he', hH'⟩ := h.event j r' hj
    obtain ⟨k, hk, hrk⟩ := h.slot e he
    obtain ⟨k', hk', hrk'⟩ := h.slot e' he'
    rw [hH, Option.some_inj, GenHandle.mk.injEq] at hk
    rw [hH', Option.some_inj, GenHandle.mk.injEq] at hk'
    rw [← hk.1, hi, Option.some_inj] at hrk
    rw [← hk'.1, hj, Option.some_inj] at hrk'
    rw [hrk, hrk'] at hseq
    have hee := h.seq_inj e he e' he' hseq
    rw [hee, hH', Option.some_inj, GenHandle.mk.injEq] at hH
    exact hH.1.symm

end SlotTable

/-- The engines' tables are equal. -/
structure Alike {σ' : Type} (Inv : σ → Prop) (table : σ → SlotTable α) (Inv' : σ' → Prop)
    (table' : σ' → SlotTable α) (s : σ) (s' : σ') : Prop where
  inv : Inv s
  inv' : Inv' s'
  tables : table s = table' s'
  sequenced : (table s).Sequenced

section

variable {σ' : Type} {E' : Engine σ' GenHandle α} {Inv' : σ' → Prop} {table' : σ' → SlotTable α}
  {ok' : σ' → Op α → Prop}

/-- **Engines over equal tables answer alike.** No bound on the reuse of slots is needed: their
generations come round together. -/
theorem SlotEngine.answers_alike (hE : SlotEngine E Inv table ok) (hE' : SlotEngine E' Inv' table' ok')
    {both : σ → Op α → Prop}
    (hok : ∀ s s' op, table s = table' s' → both s op → ok s op ∧ ok' s' op) :
    E.Matches E' (Alike Inv table Inv' table') both := by
  intro s s' H op hR hboth
  -- Whatever the one engine's table becomes, the other's becomes: both are the same operation on
  -- it.
  obtain ⟨hinv, hinv', htable, hseq⟩ := hR
  obtain ⟨hnow, hnow'⟩ := hok s s' op htable hboth
  obtain ⟨l, hl⟩ := hseq.free
  have hl' := hl
  rw [htable] at hl'
  cases op with
  | push ts v =>
      obtain ⟨hh, ht, hi⟩ := hE.push s l ts v hinv hl hnow
      obtain ⟨hh', ht', hi'⟩ := hE'.push s' l ts v hinv' hl' hnow'
      have hhandle : (E.push s ts v).1 = (E'.push s' ts v).1 := by rw [hh, hh', htable]
      refine ⟨rfl, ?_, hi, hi', ?_, ?_⟩
      · show H ++ [(E.push s ts v).1] = H ++ [(E'.push s' ts v).1]
        rw [hhandle]
      · show table (E.push s ts v).2 = table' (E'.push s' ts v).2
        rw [ht, ht', htable]
      · show (table (E.push s ts v).2).Sequenced
        rw [ht]
        exact hseq.push ts v
  | cancel n =>
      cases hget : H[n]? with
      | none =>
          have hstep : E.step s H (.cancel n) = (.flag false, s, H) := by rw [Engine.step, hget]
          have hstep' : E'.step s' H (.cancel n) = (.flag false, s', H) := by rw [Engine.step, hget]
          rw [hstep, hstep']
          exact ⟨rfl, rfl, hinv, hinv', htable, hseq⟩
      | some g =>
          have hstep : E.step s H (.cancel n) = (.flag (E.cancel s g).1, (E.cancel s g).2, H) := by
            rw [Engine.step, hget]
          have hstep' : E'.step s' H (.cancel n)
              = (.flag (E'.cancel s' g).1, (E'.cancel s' g).2, H) := by rw [Engine.step, hget]
          have hf := hE.flag s l g hinv hl
          have hf' := hE'.flag s' l g hinv' hl'
          obtain ⟨ht, hi⟩ := hE.cancel s l n g hinv hl hnow
          obtain ⟨ht', hi'⟩ := hE'.cancel s' l n g hinv' hl' hnow'
          rw [hstep, hstep', hf, hf', htable]
          refine ⟨rfl, rfl, hi, hi', ?_, ?_⟩
          · rw [ht, ht', htable]
          · rw [ht]
            exact hseq.cancel g
  -- The least record of one table is unique, since no two of its records have one number.
  | peekMin =>
      obtain ⟨i, r, hleast, hv, ht, hi⟩ := hE.peekMin s l hinv hl hnow
      obtain ⟨i', r', hleast', hv', ht', hi'⟩ := hE'.peekMin s' l hinv' hl' hnow'
      rw [← htable] at hleast'
      obtain ⟨_, hrr⟩ := hseq.least_unique hleast hleast'
      refine ⟨?_, rfl, hi, hi', ?_, ?_⟩
      · show Reply.value (E.peekMin s).1 = .value (E'.peekMin s').1
        rw [hv, hv', hrr]
      · show table (E.peekMin s).2 = table' (E'.peekMin s').2
        rw [ht, ht', htable]
      · show (table (E.peekMin s).2).Sequenced
        rw [ht]
        exact hseq
  | peekMinTs =>
      obtain ⟨i, r, hleast, hv, ht, hi⟩ := hE.peekMinTs s l hinv hl hnow
      obtain ⟨i', r', hleast', hv', ht', hi'⟩ := hE'.peekMinTs s' l hinv' hl' hnow'
      rw [← htable] at hleast'
      obtain ⟨_, hrr⟩ := hseq.least_unique hleast hleast'
      refine ⟨?_, rfl, hi, hi', ?_, ?_⟩
      · show Reply.ts (E.peekMinTs s).1 = .ts (E'.peekMinTs s').1
        rw [hv, hv', hrr]
      · show table (E.peekMinTs s).2 = table' (E'.peekMinTs s').2
        rw [ht, ht', htable]
      · show (table (E.peekMinTs s).2).Sequenced
        rw [ht]
        exact hseq
  | popMin =>
      obtain ⟨i, r, hleast, hv, ht, hi⟩ := hE.popMin s l hinv hl hnow
      obtain ⟨i', r', hleast', hv', ht', hi'⟩ := hE'.popMin s' l hinv' hl' hnow'
      rw [← htable] at hleast'
      obtain ⟨hii, hrr⟩ := hseq.least_unique hleast hleast'
      refine ⟨?_, rfl, hi, hi', ?_, ?_⟩
      · show Reply.value (E.popMin s).1 = .value (E'.popMin s').1
        rw [hv, hv', hrr]
      · show table (E.popMin s).2 = table' (E'.popMin s').2
        rw [ht, ht', htable, hii]
      · show (table (E.popMin s).2).Sequenced
        rw [ht]
        exact hseq.release hleast.1
  | clear =>
      obtain ⟨ht, hi⟩ := hE.clear s l hinv hl hseq.pos
      obtain ⟨ht', hi'⟩ := hE'.clear s' l hinv' hl' (by rw [← htable]; exact hseq.pos)
      refine ⟨rfl, rfl, hi, hi', ?_, ?_⟩
      · show table (E.clear s) = table' (E'.clear s')
        rw [ht, ht', htable]
      · show (table (E.clear s)).Sequenced
        rw [ht]
        exact hseq.clear

end

end Mog
