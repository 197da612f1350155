import Mog.Event.Heap

/-!
# Heaps beyond 2^31 events

The positions of the heap are 32-bit, so the second child of position 2^31 - 1 is the
root. In a heap of 2^31 events no position above that one is in use and every sift
ends. One event more, and a pop can lead the sift along the left edge of the heap to
that position and over the root again: the event that should leave next goes under,
and another shows in its place.
-/

namespace Mog

open TicketQueue BinaryHeap

namespace Scheduler

variable {α : Type} {w : Scheduler α} {N k : Nat}

/-! ## The sift that comes round -/

/-- The last of `N` + 1 events, numbered by their timestamps, has been sifted `k` levels down the
left edge of the heap. -/
structure OnEdge (N k : Nat) (w : Scheduler α) : Prop where
  size : w.heapSize = N
  sifted : (w.heap (2 ^ k - 1)).ts = N
  below : ∀ j, 2 ^ k - 1 < j → j < N → (w.heap j).ts = j
  root : 0 < k → (w.heap 0).ts = 1
  left : 1 < k → (w.heap 1).ts = 3
  right : (w.heap 2).ts = 2

theorem not_entryLess {a b : HeapEntry} (h : b.ts < a.ts) : ¬ entryLess a b := by
  unfold entryLess
  omega

/-- The left child sorts first. -/
theorem leastOf_left {i l : Nat} (hl : (2 * i + 1) % 2 ^ 32 = l) (hin : l < w.heapSize)
    (hless : (w.heap l).ts < (w.heap i).ts)
    (hr : ∀ r, (2 * i + 2) % 2 ^ 32 = r → r < w.heapSize → (w.heap l).ts < (w.heap r).ts) :
    w.leastOf i = l := by
  unfold leastOf
  dsimp only
  rw [hl]
  simp only [if_pos (show l < w.heapSize ∧ entryLess (w.heap l) (w.heap i) from ⟨hin, Or.inl hless⟩)]
  exact if_neg fun hc => not_entryLess (hr _ rfl hc.1) hc.2

/-- The right child sorts first. -/
theorem leastOf_right {i r : Nat} (hr : (2 * i + 2) % 2 ^ 32 = r) (hin : r < w.heapSize)
    (hless : (w.heap r).ts < (w.heap i).ts)
    (hl : ∀ l, (2 * i + 1) % 2 ^ 32 = l → l < w.heapSize → (w.heap r).ts < (w.heap l).ts) :
    w.leastOf i = r := by
  unfold leastOf
  dsimp only
  rw [hr]
  refine if_pos ⟨hin, Or.inl ?_⟩
  split
  · rename_i hc
    exact hl _ rfl hc.1
  · exact hless

/-- **One level down the edge.** -/
theorem OnEdge.step (h : OnEdge N k w) (hN : N = 2 ^ 31) (hk : k < 31) :
    w.leastOf (2 ^ k - 1) = 2 ^ (k + 1) - 1
      ∧ OnEdge N (k + 1) (w.swapEntries (2 ^ k - 1) (2 ^ (k + 1) - 1)) := by
  have hdouble : 2 ^ (k + 1) = 2 * 2 ^ k := Nat.pow_succ'
  have hfits : 2 * 2 ^ k ≤ N := by
    rw [← hdouble, hN]
    exact Nat.pow_le_pow_right (by omega) hk
  have hpos := Nat.two_pow_pos k
  have hleast : (w.heap (2 * 2 ^ k - 1)).ts = 2 * 2 ^ k - 1 := h.below _ (by omega) (by omega)
  constructor
  · rw [hdouble]
    refine leastOf_left (by omega) (by rw [h.size]; omega) (by rw [hleast, h.sifted]; omega) ?_
    intro r hr hin
    rw [h.size] at hin
    rw [hleast, h.below r (by omega) hin]
    omega
  · rw [hdouble]
    have hmoved : ((w.swapEntries (2 ^ k - 1) (2 * 2 ^ k - 1)).heap (2 ^ k - 1)).ts
        = 2 * 2 ^ k - 1 := by
      rw [swapEntries_heap, swap_left]
      exact hleast
    have hother : ∀ j, j ≠ 2 ^ k - 1 → j ≠ 2 * 2 ^ k - 1 →
        (w.swapEntries (2 ^ k - 1) (2 * 2 ^ k - 1)).heap j = w.heap j := fun j h1 h2 =>
      swap_other _ h1 h2
    refine ⟨h.size, ?_, fun j hj hjN => ?_, fun _ => ?_, fun hk1 => ?_, ?_⟩
    · rw [hdouble, swapEntries_heap, swap_right]
      exact h.sifted
    · rw [hdouble] at hj
      rw [hother j (by omega) (by omega)]
      exact h.below j (by omega) hjN
    · -- the root has taken the event of its left child in the first step
      rcases Nat.eq_zero_or_pos k with rfl | hk0
      · exact hmoved
      · have : 2 ^ 1 ≤ 2 ^ k := Nat.pow_le_pow_right (by omega) hk0
        rw [hother 0 (by omega) (by omega)]
        exact h.root hk0
    · rcases Nat.lt_or_ge 1 k with hk2 | hk2
      · have : 2 ^ 2 ≤ 2 ^ k := Nat.pow_le_pow_right (by omega) hk2
        rw [hother 1 (by omega) (by omega)]
        exact h.left hk2
      · have hk' : k = 1 := by omega
        subst hk'
        exact hmoved
    · have hodd : 2 ^ k - 1 ≠ 2 := by
        cases k with
        | zero => decide
        | succ k =>
            rw [Nat.pow_succ']
            omega
      rw [hother 2 hodd.symm (by omega)]
      exact h.right

/-- **The edge is followed** to its end. -/
theorem OnEdge.run (h : OnEdge N 0 w) (hN : N = 2 ^ 31) (hk : k ≤ 31) (fuel : Nat) :
    ∃ v, OnEdge N k v ∧ w.siftDown (fuel + k) 0 = v.siftDown fuel (2 ^ k - 1) := by
  induction k generalizing fuel with
  | zero => exact ⟨w, h, rfl⟩
  | succ k ih =>
      obtain ⟨v, hv, heq⟩ := ih (by omega) (fuel + 1)
      obtain ⟨hleast, hstep⟩ := hv.step hN hk
      have hpow : 2 ^ k < 2 ^ (k + 1) := Nat.pow_lt_pow_right (by omega) (Nat.lt_succ_self k)
      have hpos := Nat.two_pow_pos k
      refine ⟨_, hstep, ?_⟩
      rw [show fuel + (k + 1) = fuel + 1 + k by omega, heq, siftDown, hleast, if_neg (by omega)]

/-- Off the left edge a sift stays off it, and does not come back to the root. -/
theorem siftDown_root {i fuel : Nat} (hsize : w.heapSize = 2 ^ 31) (hi : i < 2 ^ 31)
    (hoff : ∀ k, i + 1 ≠ 2 ^ k) : (w.siftDown fuel i).heap 0 = w.heap 0 := by
  induction fuel generalizing w i with
  | zero => rfl
  | succ fuel ih =>
      have hroot : i + 1 ≠ 2 ^ 0 := hoff 0
      have hlast : i + 1 ≠ 2 ^ 31 := hoff 31
      have hchild : ∀ c, (c = 2 * i + 1 ∨ c = 2 * i + 2) → ∀ k, c + 1 ≠ 2 ^ k := by
        intro c hc k
        cases k with
        | zero =>
            rw [Nat.pow_zero]
            omega
        | succ k =>
            have := hoff k
            rw [Nat.pow_succ']
            omega
      have hleast : w.leastOf i = i
          ∨ ((w.leastOf i = 2 * i + 1 ∨ w.leastOf i = 2 * i + 2) ∧ w.leastOf i < 2 ^ 31) := by
        have hin := leastOf_lt w (i := i) (by omega)
        rw [hsize] at hin
        have hl : (2 * i + 1) % 2 ^ 32 = 2 * i + 1 := by omega
        have hr : (2 * i + 2) % 2 ^ 32 = 2 * i + 2 := by omega
        have hone : w.leastOf i = i ∨ w.leastOf i = 2 * i + 1 ∨ w.leastOf i = 2 * i + 2 := by
          unfold leastOf
          dsimp only
          rw [hl, hr]
          split_ifs <;> simp
        exact hone.imp_right fun hc => ⟨hc, hin⟩
      rw [siftDown]
      rcases hleast with hstop | ⟨hc, hlt⟩
      · rw [if_pos hstop]
      · rw [if_neg (by omega), ih (w := w.swapEntries i (w.leastOf i)) hsize hlt (hchild _ hc)]
        exact swap_other _ (by omega) (by omega)

/-- **The sift comes round**: it passes the root a second time, and leaves a later event there. -/
theorem OnEdge.wraps (h : OnEdge N 0 w) (hN : N = 2 ^ 31) : ((w.siftDown N 0).heap 0).ts = 2 := by
  obtain ⟨fuel, hfuel⟩ : ∃ fuel, N = fuel + 2 + 31 := ⟨N - 33, by omega⟩
  obtain ⟨v, hv, heq⟩ := h.run hN (Nat.le_refl 31) (fuel + 2)
  rw [← hfuel] at heq
  have hlast : 2 ^ 31 - 1 = N - 1 := by omega
  have hsifted : (v.heap (N - 1)).ts = N := hlast ▸ hv.sifted
  -- the second child of the last position is the root
  have hround : v.leastOf (N - 1) = 0 := by
    refine leastOf_right (by omega) (by rw [hv.size]; omega)
      (by rw [hv.root (by omega), hsifted]; omega) fun l hl hin => ?_
    rw [hv.size] at hin
    omega
  have hroot : ((v.swapEntries (N - 1) 0).heap 0).ts = N := by
    rw [swapEntries_heap, swap_right]
    exact hsifted
  have hkept : ∀ j, 0 < j → j < N - 1 → (v.swapEntries (N - 1) 0).heap j = v.heap j :=
    fun j h1 h2 => swap_other _ (by omega) (by omega)
  have hleft : ((v.swapEntries (N - 1) 0).heap 1).ts = 3 := by
    rw [hkept 1 (by omega) (by omega)]
    exact hv.left (by omega)
  have hright : ((v.swapEntries (N - 1) 0).heap 2).ts = 2 := by
    rw [hkept 2 (by omega) (by omega)]
    exact hv.right
  have hagain : (v.swapEntries (N - 1) 0).leastOf 0 = 2 := by
    have hsize : (v.swapEntries (N - 1) 0).heapSize = N := hv.size
    refine leastOf_right rfl (by rw [hsize]; omega) (by rw [hright, hroot]; omega)
      fun l hl _ => ?_
    rw [hright, ← hl]
    show 2 < ((v.swapEntries (N - 1) 0).heap 1).ts
    rw [hleft]
    exact Nat.lt_succ_self 2
  have hoff : ∀ k, 2 + 1 ≠ 2 ^ k := by
    intro k hk
    rcases k with _ | _ | k
    · exact absurd hk (by decide)
    · exact absurd hk (by decide)
    · rw [Nat.pow_add] at hk
      omega
  have hstep : w.siftDown N 0 = ((v.swapEntries (N - 1) 0).swapEntries 0 2).siftDown fuel 2 := by
    rw [heq, hlast, siftDown, hround, if_neg (by omega), siftDown, hagain, if_neg (by omega)]
  have hend : (w.siftDown N 0).heap 0 = ((v.swapEntries (N - 1) 0).swapEntries 0 2).heap 0 := by
    rw [hstep]
    exact siftDown_root (hv.size.trans hN) (by omega) hoff
  rw [hend, swapEntries_heap, swap_left]
  exact hright

/-! ## The run -/

/-- `n` events, numbered by their timestamps. -/
def numbered [Inhabited α] (n : Nat) : List (Op α) :=
  (List.range n).map fun j => .push j default

/-- More events than the positions of a sift can tell apart, a pop and a peek. -/
def overfull [Inhabited α] (N : Nat) : List (Op α) := numbered (N + 1) ++ [.popMin, .peekMinTs]

theorem numbered_succ [Inhabited α] (n : Nat) :
    (numbered (n + 1) : List (Op α)) = numbered n ++ [.push n default] := by
  unfold numbered
  rw [List.range_succ, List.map_append]
  rfl

/-- `n` events stand in the heap in the order of their numbers. -/
structure Loaded (cap n : Nat) (w : Scheduler α) : Prop where
  capacity : w.capacity = cap
  watermark : w.watermark = n
  freeHead : w.freeHead = kNullIndex
  size : w.heapSize = n
  ts : ∀ j, j < n → (w.heap j).ts = j

theorem Loaded.push [Inhabited α] {cap n : Nat} (h : Loaded cap n w) (hn : n < cap) (v : α) :
    Loaded cap (n + 1) (w.push n v).2 := by
  have hstays : ∀ (u : Scheduler α) (fuel i : Nat),
      (0 < i → (u.heap ((i - 1) / 2)).ts < (u.heap i).ts) → u.siftUp fuel i = u := by
    intro u fuel i hle
    cases fuel with
    | zero => rfl
    | succ fuel => exact if_neg fun hc => not_entryLess (hle hc.1) hc.2
  have hroom : ¬ w.capacity ≤ w.watermark := by
    rw [h.capacity, h.watermark]
    omega
  have htop : ∀ e : HeapEntry, e.ts = n → ∀ j, j < n + 1 →
      (Function.update w.heap w.heapSize e j).ts = j := by
    intro e he j hj
    rw [h.size]
    rcases Nat.lt_succ_iff_lt_or_eq.mp hj with hlt | rfl
    · rw [Function.update_of_ne (Nat.ne_of_lt hlt)]
      exact h.ts j hlt
    · rw [Function.update_self]
      exact he
  unfold Scheduler.push place
  dsimp only
  rw [if_pos h.freeHead, if_neg hroom]
  dsimp only
  rw [hstays]
  · exact ⟨h.capacity, congrArg (· + 1) h.watermark, h.freeHead, congrArg (· + 1) h.size,
      htop _ rfl⟩
  · intro hpos
    have hsize : w.heapSize = n := h.size
    show (Function.update w.heap w.heapSize _ ((w.heapSize + 1 - 1 - 1) / 2)).ts
      < (Function.update w.heap w.heapSize _ (w.heapSize + 1 - 1)).ts
    have hpos' : 0 < w.heapSize + 1 - 1 := hpos
    rw [htop _ rfl _ (by omega), htop _ rfl _ (by omega)]
    omega

theorem loaded_run [Inhabited α] {cap n : Nat} (hn : n ≤ cap) :
    Loaded cap n ((engine α).run (numbered n) (init cap) []).2.1 := by
  induction n with
  | zero => exact ⟨rfl, rfl, rfl, rfl, fun j hj => absurd hj (Nat.not_lt_zero j)⟩
  | succ n ih =>
      rw [numbered_succ, Engine.run_append]
      exact (ih (Nat.le_of_succ_le hn)).push hn default

/-- After the pop the wrong event shows. -/
theorem Loaded.popMin {cap : Nat} (h : Loaded cap (N + 1) w) (hN : N = 2 ^ 31) :
    w.popMin.2.peekMinTs = 2 := by
  let v := (w.swapEntries 0 (w.heapSize - 1)).popBack
  have hlast : w.heapSize - 1 = N := by
    rw [h.size]
    rfl
  have hvsize : v.heapSize = N := hlast
  have hvheap : v.heap = swap w.heap 0 N := by
    rw [← hlast]
    rfl
  have hedge : OnEdge N 0 v := by
    refine ⟨hvsize, ?_, fun j hj hjN => ?_, fun hc => absurd hc (Nat.lt_irrefl 0),
      fun hc => absurd hc (by omega), ?_⟩
    · rw [hvheap]
      show (swap w.heap 0 N 0).ts = N
      rw [swap_left]
      exact h.ts N (Nat.lt_succ_self N)
    · rw [hvheap, swap_other _ (by omega) (by omega)]
      exact h.ts j (Nat.lt_succ_of_lt hjN)
    · rw [hvheap, swap_other _ (by omega) (by omega)]
      exact h.ts 2 (by omega)
  have hremove : w.removeAt 0 = v.siftDown N 0 := by
    unfold removeAt
    dsimp only
    rw [if_neg (show ¬ v.heapSize ≤ 0 by omega), if_neg fun hc => Nat.lt_irrefl 0 hc.1]
    exact congrArg (v.siftDown · 0) hvsize
  calc w.popMin.2.peekMinTs = ((w.removeAt 0).heap 0).ts := rfl
    _ = ((v.siftDown N 0).heap 0).ts := by rw [hremove]
    _ = 2 := hedge.wraps hN

/-- An event of the run, as the queue has it. -/
def numberedEvent [Inhabited α] (j : Nat) : Event α :=
  { ts := j, seq := j, ticket := j, value := default }

theorem queue_run [Inhabited α] {cap n : Nat} (hn : n ≤ cap) :
    (Queue.run (numbered n : List (Op α)) { capacity := cap }).2
      = { capacity := cap, pending := (List.range n).map numberedEvent, nextSeq := n, issued := n } := by
  induction n with
  | zero => rfl
  | succ n ih =>
      rw [numbered_succ, Queue.run_append, ih (Nat.le_of_succ_le hn)]
      show Queue.push _ n default = _
      rw [Queue.push_room (by rw [List.length_map, List.length_range]; exact hn), List.range_succ,
        List.map_append]
      rfl

/-- The least of the numbered events from `m` on. -/
theorem least_numbered [Inhabited α] {l : List (Event α)} {m : Nat} (hm : numberedEvent m ∈ l)
    (hl : ∀ e ∈ l, ∃ j, m ≤ j ∧ e = numberedEvent j) : least l = some (numberedEvent m) := by
  refine least_eq hm (fun e he => ?_) fun a ha b hb hab => ?_
  · obtain ⟨j, hj, rfl⟩ := hl e he
    unfold Event.Before numberedEvent
    dsimp only
    omega
  · obtain ⟨i, _, rfl⟩ := hl a ha
    obtain ⟨j, _, rfl⟩ := hl b hb
    have hij : i = j := hab
    rw [hij]

/-- The queue shows the second event after the first has left. -/
theorem queue_shows [Inhabited α] {cap : Nat} (hcap : N + 1 ≤ cap) (hN : 0 < N) :
    (Queue.run (overfull N : List (Op α)) { capacity := cap }).1
      = (Queue.run (numbered (N + 1) : List (Op α)) { capacity := cap }).1
        ++ [.value default, .ts 1] := by
  unfold overfull
  rw [Queue.replies_append, queue_run hcap]
  refine congrArg (_ ++ ·) ?_
  have hmem : ∀ m, m < N + 1 →
      (numberedEvent m : Event α) ∈ (List.range (N + 1)).map numberedEvent :=
    fun m hm => List.mem_map_of_mem (List.mem_range.mpr hm)
  have hfirst : least ((List.range (N + 1)).map numberedEvent)
      = some (numberedEvent 0 : Event α) := by
    refine least_numbered (hmem 0 (Nat.succ_pos N)) fun e he => ?_
    obtain ⟨j, _, rfl⟩ := List.mem_map.mp he
    exact ⟨j, Nat.zero_le j, rfl⟩
  rw [Queue.run, Queue.step]
  dsimp only
  rw [hfirst]
  dsimp only
  have hsecond : ∀ q : Queue α, q.pending = (List.range (N + 1)).map numberedEvent →
      least (q.remove 0).pending = some (numberedEvent 1) := by
    intro q hq
    refine least_numbered (Queue.mem_remove.mpr ⟨?_, Nat.one_ne_zero⟩) fun e he => ?_
    · rw [hq]
      exact hmem 1 (by omega)
    · obtain ⟨he, hne⟩ := Queue.mem_remove.mp he
      rw [hq] at he
      obtain ⟨j, _, rfl⟩ := List.mem_map.mp he
      exact ⟨j, Nat.pos_of_ne_zero hne, rfl⟩
  rw [Queue.run, Queue.step]
  dsimp only
  rw [show (numberedEvent (α := α) 0).ticket = 0 from rfl, hsecond _ rfl]
  rfl

/-- The heap shows the third. -/
theorem heap_shows [Inhabited α] {cap : Nat} (hcap : N + 1 ≤ cap) (hN : N = 2 ^ 31) :
    ∃ v, ((engine α).run (overfull N) (init cap) []).1
      = ((engine α).run (numbered (N + 1)) (init cap) []).1 ++ [.value v, .ts 2] := by
  unfold overfull
  rw [Engine.replies_append]
  have hload := loaded_run (α := α) hcap
  generalize ((engine α).run (numbered (N + 1)) (init cap) []).2 = r at hload ⊢
  refine ⟨r.1.popMin.1, congrArg (_ ++ ·) ?_⟩
  show [Reply.value r.1.popMin.1, .ts r.1.popMin.2.peekMinTs] = _
  rw [hload.popMin hN]

/-- **In the overfull run the heap does not answer as the queue does.** -/
theorem overfull_differs [Inhabited α] {cap : Nat} (hcap : N + 1 ≤ cap) (hN : N = 2 ^ 31) :
    ((engine α).run (overfull N) (init cap) []).1
      ≠ (Queue.run (overfull N : List (Op α)) { capacity := cap }).1 := by
  obtain ⟨v, hheap⟩ := heap_shows (α := α) hcap hN
  rw [hheap, queue_shows hcap (by omega)]
  intro hc
  have hlast := List.append_inj_right hc (by rw [Engine.length_replies, Queue.length_replies])
  cases hlast

theorem obeys_numbered [Inhabited α] {ok : Scheduler α → Op α → Prop}
    (hok : ∀ s ts v, ok s (.push ts v)) (n : Nat) (s : Scheduler α) (H : List GenHandle) :
    (engine α).Obeys ok (numbered n) s H := by
  induction n with
  | zero => trivial
  | succ n ih =>
      rw [numbered_succ, Engine.obeys_append]
      exact ⟨ih, hok _ _ _, trivial⟩

/-- The overfull run looks for nothing in an empty scheduler. -/
theorem overfull_obeys [Inhabited α] {cap : Nat} (hcap : N + 1 ≤ cap) (hN : 0 < N) :
    (engine α).Obeys Contract (overfull N) (init cap) [] := by
  refine Engine.obeys_append.mpr ⟨obeys_numbered (fun _ _ _ => trivial) _ _ _, ?_⟩
  have hload := loaded_run (α := α) hcap
  generalize ((engine α).run (numbered (N + 1)) (init cap) []).2 = r at hload ⊢
  have hsize : r.1.heapSize = N + 1 := hload.size
  have hleft := (removeAt_holds (w := r.1) (P := fun _ => True) (fun _ _ => trivial)
    (show 0 < r.1.heapSize by omega)).2
  refine ⟨show 0 < r.1.heapSize by omega, ?_, trivial⟩
  show 0 < (r.1.removeAt 0).heapSize
  omega

theorem length_numbered [Inhabited α] (n : Nat) : (numbered n : List (Op α)).length = n := by
  unfold numbered
  rw [List.length_map, List.length_range]

theorem length_overfull [Inhabited α] : (overfull N : List (Op α)).length = N + 3 := by
  unfold overfull
  rw [List.length_append, length_numbered]
  rfl

/-- The overfull run keeps to the contract, and its replies are not the queue's. -/
theorem overfull_fails (α : Type) [Inhabited α] {cap : Nat} (hcap : N + 1 ≤ cap) (hN : N = 2 ^ 31) :
    (engine α).Obeys Contract (overfull N) (init cap) []
      ∧ Unwrapped cap ((engine α).run (overfull N) (init cap) []).2.2
      ∧ ¬ Refines cap (overfull N : List (Op α)) := by
  refine ⟨overfull_obeys hcap (by omega), unwrapped_of_length ?_ _ _, fun h => ?_⟩
  · rw [length_overfull]
    omega
  · exact overfull_differs hcap hN h.faithful.replies

/--
**The scheduler refines the stable priority queue, up to 2^31 events.**

In every run of calls that looks for nothing in an empty scheduler, takes nothing out
of one that holds more than 2^31 events and uses no slot more than 2^32 times, the
replies are the queue's, the size is exact, the audit passes, and a handle cancels
exactly while its own event is pending. A prefix of such a run is such a run, so all
this holds after every call. With a capacity of at most 2^31 these are all the runs that
keep to the contract; with a larger one some such run is answered wrongly.
-/
theorem scheduler_refines_iff [Inhabited α] {cap : Nat} (hpos : 0 < cap) (hcap : cap < kNullIndex) :
    (∀ ops : List (Op α),
        (engine α).Obeys (fun w op => Contract w op ∧ Narrow w.size op) ops (init cap) [] →
        Unwrapped cap ((engine α).run ops (init cap) []).2.2 → Refines cap ops)
      ∧ ((∀ ops : List (Op α), (engine α).Obeys Contract ops (init cap) [] →
          Unwrapped cap ((engine α).run ops (init cap) []).2.2 → Refines cap ops) ↔ cap ≤ 2 ^ 31) := by
  refine ⟨fun ops => refines_of_narrow hpos hcap, fun h => ?_, fun hle ops =>
    refines_of_capacity hpos hle⟩
  by_contra hlarge
  obtain ⟨N, hN⟩ : ∃ N, N = 2 ^ 31 := ⟨_, rfl⟩
  obtain ⟨hobeys, hreuse, hfails⟩ := overfull_fails α (show N + 1 ≤ cap by omega) hN
  exact hfails (h _ hobeys hreuse)

/-- Two events, of which the first to be pushed is cancelled and the other popped. -/
theorem scheduler_refines_iff_two :
    Refines 2 ([.push 5 10, .push 3 11, .cancel 0, .popMin] : List (Op Nat)) :=
  (scheduler_refines_iff (by omega) (by decide)).2.mpr (by decide) _
    ⟨trivial, trivial, trivial, Nat.zero_lt_one, trivial⟩
    fun _ _ => List.countP_le_length.trans (by decide)

/-- **A scheduler of 2^31 + 1 events shows the third** when the first has been popped. -/
theorem overfull_not_refined :
    (engine Nat).Obeys Contract (overfull (2 ^ 31)) (init (2 ^ 31 + 1)) []
      ∧ Unwrapped (2 ^ 31 + 1) ((engine Nat).run (overfull (2 ^ 31)) (init (2 ^ 31 + 1)) []).2.2
      ∧ ¬ Refines (2 ^ 31 + 1) (overfull (2 ^ 31) : List (Op Nat)) :=
  overfull_fails Nat (Nat.le_refl _) rfl

end Scheduler

end Mog
