import Mathlib.Data.Nat.ModEq
import Mog.Ring.SpscRing

/-!
# The ring is a bounded queue

`RingSystem.Inv` ties the cursors to the log, bounds the caches by the cursors they copy and
says what each thread knows between two of its accesses. Every access keeps it, and either
leaves the log alone or is a step of a bounded queue.

A cache may be older than the cursor it copies, so the producer sees the ring fuller than it is
and the consumer emptier, never the other way. That is why one cursor each and no lock are
enough: a slot that the producer writes is not one the consumer may still read. Indices are
64-bit and wrap; the invariant counts pushes, which stay below that.
-/

namespace Mog

open BoundedFifo

namespace SpscRing

variable {τ : Type} {e : Nat}

theorem and_kMask (e t : Nat) : t &&& kMask e = t % kCapacity e := Nat.and_two_pow_sub_one_eq_mod t e

/-- Cursors less than a capacity apart name different slots. -/
theorem slot_ne {n t : Nat} (h1 : n < t) (h2 : t < n + kCapacity e) :
    n % kCapacity e ≠ t % kCapacity e := by
  intro heq
  have hdvd := (Nat.modEq_iff_dvd' (Nat.le_of_lt h1)).mp heq
  have hle := Nat.le_of_dvd (by omega) hdvd
  omega

theorem looksFull_iff {r : SpscRing τ e} {t : Nat} (hle : r.headCache ≤ t) (ht : t < 2 ^ 64) :
    r.looksFull t ↔ r.headCache + kCapacity e ≤ t := by
  have hsub : (t + 2 ^ 64 - r.headCache) % 2 ^ 64 = t - r.headCache := by
    rw [show t + 2 ^ 64 - r.headCache = (t - r.headCache) + 2 ^ 64 by omega, Nat.add_mod_right]
    exact Nat.mod_eq_of_lt (by omega)
  have hpos : 0 < kCapacity e := Nat.two_pow_pos e
  unfold looksFull
  rw [hsub]
  omega

end SpscRing

namespace RingSystem

open SpscRing

variable {τ : Type} {e : Nat} {s s' : RingSystem τ e}

/-- What the producer knows at its next access. -/
def ProducerAt (s : RingSystem τ e) : PushPc τ → Prop
  | .returned _ => True
  | .loadTail _ => True
  | .loadHead _ t => t = s.log.pushed.length
  | .writeSlot _ t => t = s.log.pushed.length ∧ t < s.log.popped.length + kCapacity e
  | .storeTail v t => t = s.log.pushed.length ∧ t < s.log.popped.length + kCapacity e
      ∧ s.ring.slots (t % kCapacity e) = v

/-- What the consumer knows at its next access. -/
def ConsumerAt (s : RingSystem τ e) : PopPc τ → Prop
  | .returned _ => True
  | .loadHead => True
  | .loadTail h => h = s.log.popped.length
  | .readSlot h => h = s.log.popped.length ∧ h < s.log.pushed.length
  | .storeHead out h => h = s.log.popped.length ∧ s.log.pushed[h]? = some out

structure Inv (s : RingSystem τ e) : Prop where
  fifo : BoundedFifo.Reachable (kCapacity e) s.log
  few : s.log.pushed.length < 2 ^ 64
  tail : s.ring.tail = s.log.pushed.length
  head : s.ring.head = s.log.popped.length
  headCache : s.ring.headCache ≤ s.log.popped.length
  tailCache : s.ring.tailCache ≤ s.log.pushed.length
  /-- What is inside is in its slot. -/
  slots : ∀ n v, s.log.popped.length ≤ n → s.log.pushed[n]? = some v →
    s.ring.slots (n % kCapacity e) = v
  producer : s.ProducerAt s.producer
  consumer : s.ConsumerAt s.consumer

theorem inv_init [Inhabited τ] : Inv (init : RingSystem τ e) where
  fifo := .refl
  few := Nat.two_pow_pos 64
  tail := rfl
  head := rfl
  headCache := Nat.le_refl _
  tailCache := Nat.le_refl _
  slots n v _ hv := by simp [init] at hv
  producer := trivial
  consumer := trivial

theorem Inv.popped_le (h : Inv s) : s.log.popped.length ≤ s.log.pushed.length :=
  h.fifo.ok.order.length_le

/-! ## The producer's accesses -/

/-- The first check: a stale cache makes the ring look fuller than it is, never emptier. -/
theorem Inv.room (h : Inv s) {r : SpscRing τ e} (hcache : r.headCache ≤ s.log.popped.length)
    (hroom : ¬ r.looksFull s.log.pushed.length) :
    s.log.pushed.length < s.log.popped.length + kCapacity e := by
  rw [looksFull_iff (Nat.le_trans hcache h.popped_le) h.few] at hroom
  omega

theorem Inv.produce (h : Inv s) (hfew : s.produce.log.pushed.length < 2 ^ 64) : Inv s.produce := by
  have hprod := h.producer
  have hcons := h.consumer
  have hle := h.popped_le
  cases hpc : s.producer with
  | returned ok =>
      have hs : s.produce = s := by rw [RingSystem.produce, hpc]
      rw [hs]
      exact h
  -- The producer's own index is exact, and a cache of the head that is too low only makes the
  -- ring look fuller than it is.
  | loadTail v =>
      have hs : s.produce = { s with
          producer := if s.ring.looksFull s.ring.tail then .loadHead v s.ring.tail
            else .writeSlot v s.ring.tail } := by
        rw [RingSystem.produce, hpc]
      rw [hs]
      refine { h with producer := ?_ }
      show ProducerAt _ (if s.ring.looksFull s.ring.tail then .loadHead v s.ring.tail
        else .writeSlot v s.ring.tail)
      rw [h.tail]
      split
      · exact rfl
      · rename_i hroom
        exact ⟨rfl, h.room h.headCache hroom⟩
  -- The cache takes the head as it stands; the consumer can only raise it from here.
  | loadHead v t =>
      rw [hpc] at hprod
      have ht : t = s.log.pushed.length := hprod
      have hs : s.produce = { s with
          ring := { s.ring with headCache := s.ring.head }
          producer := if ({ s.ring with headCache := s.ring.head } : SpscRing τ e).looksFull t
            then .returned false else .writeSlot v t } := by
        rw [RingSystem.produce, hpc]
      rw [hs]
      have hcache : s.ring.head ≤ s.log.popped.length := Nat.le_of_eq h.head
      refine { h with headCache := hcache, producer := ?_, consumer := ?_ }
      · show ProducerAt _ (if ({ s.ring with headCache := s.ring.head } : SpscRing τ e).looksFull t
          then .returned false else .writeSlot v t)
        split
        · exact trivial
        · rename_i hroom
          rw [ht] at hroom ⊢
          exact ⟨rfl, h.room (r := { s.ring with headCache := s.ring.head }) hcache hroom⟩
      · cases hc : s.consumer <;> rw [hc] at hcons <;> exact hcons
  | writeSlot v t =>
      rw [hpc] at hprod
      obtain ⟨ht, hroom⟩ := hprod
      have hs : s.produce = { s with
          ring := { s.ring with slots := Function.update s.ring.slots (t &&& kMask e) v }
          producer := .storeTail v t } := by
        rw [RingSystem.produce, hpc]
      rw [hs]
      refine { h with slots := ?_, producer := ?_, consumer := ?_ }
      · intro n x (hn : s.log.popped.length ≤ n) hx
        -- the slot written is not one of those inside
        have hlt : n < t := ht ▸ (List.getElem?_eq_some_iff.mp hx).1
        show Function.update s.ring.slots (t &&& kMask e) v (n % kCapacity e) = x
        rw [and_kMask, Function.update_of_ne (slot_ne hlt (by omega))]
        exact h.slots n x hn hx
      · refine ⟨ht, hroom, ?_⟩
        show Function.update s.ring.slots (t &&& kMask e) v (t % kCapacity e) = v
        rw [and_kMask, Function.update_self]
      · cases hc : s.consumer <;> rw [hc] at hcons <;> exact hcons
  | storeTail v t =>
      rw [hpc] at hprod
      obtain ⟨ht, hroom, hslot⟩ := hprod
      have hs : s.produce = { s with
          ring := { s.ring with tail := (t + 1) % 2 ^ 64 }
          producer := .returned true
          log := { s.log with pushed := s.log.pushed ++ [v] } } := by
        rw [RingSystem.produce, hpc]
      rw [hs] at hfew ⊢
      have hlen : (s.log.pushed ++ [v]).length = s.log.pushed.length + 1 := by
        rw [List.length_append, List.length_singleton]
      refine { fifo := ?_, few := hfew, tail := ?_, head := h.head, headCache := h.headCache,
               tailCache := ?_, slots := ?_, producer := trivial, consumer := ?_ }
      · refine h.fifo.tail (.push s.log v ?_)
        rw [length_queue]
        omega
      -- The index has not come round, with fewer than `2 ^ 64` pushes so far.
      · show (t + 1) % 2 ^ 64 = (s.log.pushed ++ [v]).length
        rw [hlen, ht]
        exact Nat.mod_eq_of_lt (hlen ▸ hfew)
      · show s.ring.tailCache ≤ (s.log.pushed ++ [v]).length
        have := h.tailCache
        omega
      · intro n x hn hx
        change (s.log.pushed ++ [v])[n]? = some x at hx
        by_cases hlt : n < s.log.pushed.length
        · rw [List.getElem?_append_left hlt] at hx
          exact h.slots n x hn hx
        · have hnt : n = t := by
            have := (List.getElem?_eq_some_iff.mp hx).1
            omega
          rw [hnt, ht, List.getElem?_concat_length] at hx
          rw [hnt, ← Option.some.inj hx]
          exact hslot
      · cases hc : s.consumer with
        | returned ok => exact trivial
        | loadHead => exact trivial
        | loadTail h => rw [hc] at hcons; exact hcons
        | readSlot h =>
            rw [hc] at hcons
            refine ⟨hcons.1, ?_⟩
            show h < (s.log.pushed ++ [v]).length
            have := hcons.2
            omega
        | storeHead out h =>
            rw [hc] at hcons
            refine ⟨hcons.1, ?_⟩
            show (s.log.pushed ++ [v])[h]? = some out
            rw [List.getElem?_append_left (List.getElem?_eq_some_iff.mp hcons.2).1]
            exact hcons.2

/-! ## The consumer's accesses -/

/-- A stale cache makes the ring look emptier than it is, never fuller. -/
theorem available {r : SpscRing τ e} (hcache : r.tailCache ≤ s.log.pushed.length)
    (hsome : ¬ r.looksEmpty s.log.popped.length) : s.log.popped.length < s.log.pushed.length := by
  unfold looksEmpty at hsome
  omega

theorem Inv.consume (h : Inv s) : Inv s.consume := by
  have hprod := h.producer
  have hcons := h.consumer
  have hle := h.popped_le
  cases hpc : s.consumer with
  | returned ok =>
      have hs : s.consume = s := by rw [RingSystem.consume, hpc]
      rw [hs]
      exact h
  -- The consumer's own index is exact, and a cache of the tail that is too low hides elements at
  -- most.
  | loadHead =>
      have hs : s.consume = { s with
          consumer := if s.ring.looksEmpty s.ring.head then .loadTail s.ring.head
            else .readSlot s.ring.head } := by
        rw [RingSystem.consume, hpc]
      rw [hs]
      refine { h with consumer := ?_ }
      show ConsumerAt _ (if s.ring.looksEmpty s.ring.head then .loadTail s.ring.head
        else .readSlot s.ring.head)
      rw [h.head]
      split
      · exact rfl
      · rename_i hsome
        exact ⟨rfl, available h.tailCache hsome⟩
  | loadTail n =>
      rw [hpc] at hcons
      have hn : n = s.log.popped.length := hcons
      have hs : s.consume = { s with
          ring := { s.ring with tailCache := s.ring.tail }
          consumer := if ({ s.ring with tailCache := s.ring.tail } : SpscRing τ e).looksEmpty n
            then .returned false else .readSlot n } := by
        rw [RingSystem.consume, hpc]
      rw [hs]
      have hcache : s.ring.tail ≤ s.log.pushed.length := Nat.le_of_eq h.tail
      refine { h with tailCache := hcache, producer := ?_, consumer := ?_ }
      · cases hc : s.producer <;> rw [hc] at hprod <;> exact hprod
      · show ConsumerAt _ (if ({ s.ring with tailCache := s.ring.tail } : SpscRing τ e).looksEmpty n
          then .returned false else .readSlot n)
        split
        · exact trivial
        · rename_i hsome
          rw [hn] at hsome ⊢
          exact ⟨rfl, available (r := { s.ring with tailCache := s.ring.tail }) hcache hsome⟩
  -- The element has been pushed and not popped, so its slot still holds it.
  | readSlot n =>
      rw [hpc] at hcons
      obtain ⟨hn, hlt⟩ := hcons
      have hs : s.consume = { s with
          consumer := .storeHead (s.ring.slots (n &&& kMask e)) n } := by
        rw [RingSystem.consume, hpc]
      rw [hs]
      refine { h with consumer := ⟨hn, ?_⟩ }
      have hget : s.log.pushed[n]? = some s.log.pushed[n] := List.getElem?_eq_getElem hlt
      show s.log.pushed[n]? = some (s.ring.slots (n &&& kMask e))
      rw [and_kMask, h.slots n _ (Nat.le_of_eq hn.symm) hget, hget]
  -- The pop is the queue's: what was read is the oldest element inside.
  | storeHead out n =>
      rw [hpc] at hcons
      obtain ⟨hn, hget⟩ := hcons
      have hlt := (List.getElem?_eq_some_iff.mp hget).1
      have hfew := h.few
      have hs : s.consume = { s with
          ring := { s.ring with head := (n + 1) % 2 ^ 64 }
          consumer := .returned true
          log := { s.log with popped := s.log.popped ++ [out] } } := by
        rw [RingSystem.consume, hpc]
      rw [hs]
      have hlen : (s.log.popped ++ [out]).length = s.log.popped.length + 1 := by
        rw [List.length_append, List.length_singleton]
      refine { fifo := ?_, few := h.few, tail := h.tail, head := ?_, headCache := ?_,
               tailCache := h.tailCache, slots := ?_, producer := ?_, consumer := trivial }
      · exact h.fifo.tail (.pop s.log out _ (queue_eq_cons hn hget))
      · show (n + 1) % 2 ^ 64 = (s.log.popped ++ [out]).length
        rw [hlen, hn]
        exact Nat.mod_eq_of_lt (by omega)
      · show s.ring.headCache ≤ (s.log.popped ++ [out]).length
        have := h.headCache
        omega
      · intro m x (hm : (s.log.popped ++ [out]).length ≤ m) hx
        exact h.slots m x (by omega) hx
      · show ProducerAt _ s.producer
        cases hc : s.producer with
        | returned ok => exact trivial
        | loadTail v => exact trivial
        | loadHead v t => rw [hc] at hprod; exact hprod
        | writeSlot v t =>
            rw [hc] at hprod
            refine ⟨hprod.1, ?_⟩
            show t < (s.log.popped ++ [out]).length + kCapacity e
            have := hprod.2
            omega
        | storeTail v t =>
            rw [hc] at hprod
            refine ⟨hprod.1, ?_, hprod.2.2⟩
            show t < (s.log.popped ++ [out]).length + kCapacity e
            have := hprod.2.1
            omega

/-! ## Any interleaving -/

theorem Inv.step (h : Inv s) (hs : Step s s') (hfew : s'.log.pushed.length < 2 ^ 64) : Inv s' := by
  -- Each side's access is its own lemma; a call begins only where the last one has returned.
  have hprod := h.producer
  have hcons := h.consumer
  cases hs with
  | push ok v hpc =>
      refine { h with producer := trivial, consumer := ?_ }
      cases hc : s.consumer <;> rw [hc] at hcons <;> exact hcons
  | produce => exact h.produce hfew
  | pop ok hpc =>
      refine { h with producer := ?_, consumer := trivial }
      cases hc : s.producer <;> rw [hc] at hprod <;> exact hprod
  | consume => exact h.consume
  | forgetHead n hn =>
      refine { h with headCache := Nat.le_trans hn h.headCache, producer := ?_, consumer := ?_ }
      · cases hc : s.producer <;> rw [hc] at hprod <;> exact hprod
      · cases hc : s.consumer <;> rw [hc] at hcons <;> exact hcons
  | forgetTail n hn =>
      refine { h with tailCache := Nat.le_trans hn h.tailCache, producer := ?_, consumer := ?_ }
      · cases hc : s.producer <;> rw [hc] at hprod <;> exact hprod
      · cases hc : s.consumer <;> rw [hc] at hcons <;> exact hcons

/-- Nothing pushed is ever taken back. -/
theorem Step.pushed_le (hs : Step s s') : s.log.pushed.length ≤ s'.log.pushed.length := by
  cases hs with
  | produce =>
      unfold RingSystem.produce
      split
      · exact Nat.le_refl _
      · exact Nat.le_refl _
      · exact Nat.le_refl _
      · exact Nat.le_refl _
      · rw [List.length_append]
        exact Nat.le_add_right _ _
  | consume =>
      unfold RingSystem.consume
      split <;> exact Nat.le_refl _
  | push | pop | forgetHead | forgetTail => exact Nat.le_refl _

/-- **What any interleaving keeps.** -/
theorem Reachable.inv [Inhabited τ] (h : Reachable s) (hfew : s.log.pushed.length < 2 ^ 64) :
    Inv s := by
  induction h with
  | refl => exact inv_init
  | tail _ hs ih => exact (ih (Nat.lt_of_le_of_lt hs.pushed_le hfew)).step hs hfew

/-- What the two threads may rely on in state `s`. -/
structure Queue (s : RingSystem τ e) : Prop where
  order : s.log.popped <+: s.log.pushed
  outstanding : s.log.pushed.length ≤ s.log.popped.length + kCapacity e
  /-- What has been pushed and not popped is in its slot. -/
  held : ∀ n v, s.log.popped.length ≤ n → s.log.pushed[n]? = some v →
    s.ring.slots (n &&& kMask e) = v
  /-- The slot the producer is about to write holds nothing that is still to be read. -/
  write : ∀ v t, s.producer = .writeSlot v t → ∀ n, s.log.popped.length ≤ n →
    n < s.log.pushed.length → n &&& kMask e ≠ t &&& kMask e
  /-- The slot the consumer is about to read holds the value it is due. -/
  read : ∀ n, s.consumer = .readSlot n → n = s.log.popped.length
    ∧ s.log.pushed[n]? = some (s.ring.slots (n &&& kMask e))
  /-- A push fails at a moment of its call at which the ring is full. -/
  pushFails : ∀ s', Step s s' → s.Pushing → s'.producer = .returned false → s.Full
  popFails : ∀ s', Step s s' → s.Popping → s'.consumer = .returned false → s.Empty

/-- A step of `try_push` that returns false. -/
theorem produce_fails (hin : s.Pushing) (hfail : s.produce.producer = .returned false) :
    ∃ v t, s.producer = .loadHead v t
      ∧ ({ s.ring with headCache := s.ring.head } : SpscRing τ e).looksFull t := by
  cases hpc : s.producer with
  | returned ok => exact absurd hpc (hin ok)
  | loadTail v =>
      rw [RingSystem.produce, hpc] at hfail
      dsimp only at hfail
      split at hfail <;> cases hfail
  | loadHead v t =>
      rw [RingSystem.produce, hpc] at hfail
      dsimp only at hfail
      split at hfail
      · rename_i hfull
        exact ⟨v, t, rfl, hfull⟩
      · cases hfail
  | writeSlot v t =>
      rw [RingSystem.produce, hpc] at hfail
      cases hfail
  | storeTail v t =>
      rw [RingSystem.produce, hpc] at hfail
      cases hfail

/-- A step of `try_pop` that returns false. -/
theorem consume_fails (hin : s.Popping) (hfail : s.consume.consumer = .returned false) :
    ∃ n, s.consumer = .loadTail n
      ∧ ({ s.ring with tailCache := s.ring.tail } : SpscRing τ e).looksEmpty n := by
  cases hpc : s.consumer with
  | returned ok => exact absurd hpc (hin ok)
  | loadHead =>
      rw [RingSystem.consume, hpc] at hfail
      dsimp only at hfail
      split at hfail <;> cases hfail
  | loadTail n =>
      rw [RingSystem.consume, hpc] at hfail
      dsimp only at hfail
      split at hfail
      · rename_i hempty
        exact ⟨n, rfl, hempty⟩
      · cases hfail
  | readSlot n =>
      rw [RingSystem.consume, hpc] at hfail
      cases hfail
  | storeHead out n =>
      rw [RingSystem.consume, hpc] at hfail
      cases hfail

/-- The producer's place changes with its own steps only. -/
theorem Step.producer_eq (hs : Step s s') :
    s'.producer = s.producer ∨ s' = s.produce ∨ ∃ v, s'.producer = .loadTail v := by
  cases hs with
  | push ok v h => exact Or.inr (Or.inr ⟨v, rfl⟩)
  | produce => exact Or.inr (Or.inl rfl)
  | consume =>
      refine Or.inl ?_
      unfold RingSystem.consume
      split <;> rfl
  | pop | forgetHead | forgetTail => exact Or.inl rfl

theorem Step.consumer_eq (hs : Step s s') :
    s'.consumer = s.consumer ∨ s' = s.consume ∨ s'.consumer = .loadHead := by
  cases hs with
  | pop ok h => exact Or.inr (Or.inr rfl)
  | consume => exact Or.inr (Or.inl rfl)
  | produce =>
      refine Or.inl ?_
      unfold RingSystem.produce
      split <;> rfl
  | push | forgetHead | forgetTail => exact Or.inl rfl

/-- **The ring is a bounded first-in first-out queue** in every state that any interleaving
reaches, however old the caches are. -/
theorem ring_is_bounded_fifo [Inhabited τ] (h : Reachable s) (hfew : s.log.pushed.length < 2 ^ 64) :
    Queue s := by
  have hinv := h.inv hfew
  have hok := hinv.fifo.ok
  have hprod := hinv.producer
  have hcons := hinv.consumer
  have hle := hinv.popped_le
  refine { order := hok.order, outstanding := hok.bound, held := ?_, write := ?_, read := ?_,
           pushFails := ?_, popFails := ?_ }
  · intro n v hn hv
    rw [and_kMask]
    exact hinv.slots n v hn hv
  · intro v t hpc n hn hlt
    rw [hpc] at hprod
    obtain ⟨ht, hroom⟩ := hprod
    rw [and_kMask, and_kMask]
    exact slot_ne (by omega) (by omega)
  · intro n hpc
    rw [hpc] at hcons
    obtain ⟨hn, hlt⟩ := hcons
    have hget : s.log.pushed[n]? = some s.log.pushed[n] := List.getElem?_eq_getElem hlt
    refine ⟨hn, ?_⟩
    rw [and_kMask, hinv.slots n _ (Nat.le_of_eq hn.symm) hget, hget]
  · intro s' hs hin hfail
    rcases hs.producer_eq with heq | rfl | ⟨v, hv⟩
    · exact absurd (heq.symm.trans hfail) (hin false)
    · obtain ⟨v, t, hpc, hfull⟩ := produce_fails hin hfail
      rw [hpc] at hprod
      have ht : t = s.log.pushed.length := hprod
      have hhead := hinv.head
      have hbound := hok.bound
      have hcache : s.ring.head ≤ t := by omega
      have hcap : s.ring.head + kCapacity e ≤ t := (looksFull_iff hcache (by omega)).mp hfull
      rw [Full, length_queue]
      omega
    · rw [hv] at hfail
      cases hfail
  · intro s' hs hin hfail
    rcases hs.consumer_eq with heq | rfl | hv
    · exact absurd (heq.symm.trans hfail) (hin false)
    · obtain ⟨n, hpc, hempty⟩ := consume_fails hin hfail
      rw [hpc] at hcons
      have hn : n = s.log.popped.length := hcons
      have htail : s.ring.tail ≤ n := hempty
      have htl := hinv.tail
      rw [Empty, ← List.length_eq_zero_iff, length_queue]
      omega
    · rw [hv] at hfail
      cases hfail

/-- A ring of one slot after a push. -/
theorem ring_is_bounded_fifo_filled :
    Queue (((({ (init : RingSystem Nat 0) with producer := .loadTail 7 }).produce).produce).produce) := by
  have h1 : Reachable ({ (init : RingSystem Nat 0) with producer := .loadTail 7 }) :=
    Relation.ReflTransGen.single (.push init true 7 rfl)
  have h2 := h1.tail (.produce _)
  have h3 := h2.tail (.produce _)
  have h4 := h3.tail (.produce _)
  exact ring_is_bounded_fifo h4 (by decide)

end RingSystem

end Mog
