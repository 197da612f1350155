import Mog.Event.HeapWrap
import Mog.Event.TableEngine
import Mog.Event.WheelRefine

/-!
# The timing wheel next to the heap

Wheel and heap over one slot table give the same answers, since both find the least
recorded event and change the table alike. The wheel finds it for every capacity; the
heap as long as its 32-bit positions tell its events apart.
-/

namespace Mog

open TicketQueue

namespace TimingWheel

variable {α : Type} {w : TimingWheel α}

/-- The wheel before its first call, next to the slot table. -/
theorem init_alike [Inhabited α] {cap : Nat} (hpos : 0 < cap) (hcap : cap < kNullIndex) :
    Alike WheelInv table (fun _ => True) (fun t => t) (init cap : TimingWheel α)
      (SlotTable.init cap) where
  inv := init_inv cap
  inv' := trivial
  tables := rfl
  sequenced := (SlotTable.init_tickets hpos hcap).sequenced

/-- The wheel and the heap before their first call. -/
theorem init_alike_heap [Inhabited α] {cap : Nat} (hpos : 0 < cap) (hcap : cap < kNullIndex) :
    Alike WheelInv table Scheduler.HeapInv Scheduler.table (init cap : TimingWheel α)
      (Scheduler.init cap) where
  inv := init_inv cap
  inv' := (Scheduler.init_represents hpos hcap).inv
  tables := rfl
  sequenced := (SlotTable.init_tickets hpos hcap).sequenced

/-- Over one slot table the wheel's contract is the table's too. -/
theorem Contract.table {w : TimingWheel α} {t : SlotTable α} {op : Op α} (htable : w.table = t)
    (hop : Contract w op) : SlotTable.Contract t op := by
  have hsize : w.size = t.size := congrArg SlotTable.size htable
  cases op with
  | push ts v => trivial
  | cancel n => trivial
  | clear => trivial
  | peekMin => exact Nat.lt_of_lt_of_eq hop hsize
  | peekMinTs => exact Nat.lt_of_lt_of_eq hop hsize
  | popMin => exact Nat.lt_of_lt_of_eq hop hsize

/-- **Wheel and slot table match**, call by call. -/
theorem matches_table [Inhabited α] :
    (engine α).Matches (SlotTable.engine α) (Alike WheelInv table (fun _ => True) fun t => t)
      Contract :=
  slotEngine.answers_alike (@SlotTable.slotEngine α _) fun _ _ _ htable hop =>
    ⟨hop, hop.table htable⟩

/-- Over one slot table the heap's contract is the table's. -/
theorem heap_contract {w : TimingWheel α} {s : Scheduler α} {op : Op α} (htable : w.table = s.table)
    (hop : Contract w op) : Scheduler.Contract s op := by
  have hsame := hop.table htable
  cases op <;> exact hsame

/-- The calls that keep to the wheel's contract and take nothing out of more than 2^31 events. -/
def NarrowContract (w : TimingWheel α) (op : Op α) : Prop :=
  Contract w op ∧ Scheduler.Narrow w.size op

/-- **Wheel and heap match**, call by call, while no more than 2^31 events are sifted. -/
theorem matches_heap [Inhabited α] :
    (engine α).Matches (Scheduler.engine α)
      (Alike WheelInv table Scheduler.HeapInv Scheduler.table) NarrowContract :=
  slotEngine.answers_alike (@Scheduler.slotEngine α _) fun w s _ htable hop => by
    have hsize : w.size = s.size := congrArg SlotTable.size htable
    exact ⟨hop.1, heap_contract htable hop.1, hsize ▸ hop.2⟩

/-- With a capacity of at most 2^31 they match in every call that keeps to the contract. -/
theorem matches_heap_of_capacity [Inhabited α] :
    (engine α).Matches (Scheduler.engine α)
      (Alike WheelInv table (fun s => Scheduler.HeapInv s ∧ s.capacity ≤ 2 ^ 31) Scheduler.table)
      Contract :=
  slotEngine.answers_alike (@Scheduler.slotEngine_of_capacity α _) fun _ _ _ htable hop =>
    ⟨hop, heap_contract htable hop⟩

/-! ## The wheel's run -/

/-- What holds of a wheel between any two calls. -/
structure Audited (w : TimingWheel α) : Prop where
  audit : w.audit = true
  placed : AllPlaced w
  settles : ∃ w', settleLoop settleFuel w = some w'

theorem WheelInv.audited (h : WheelInv w) {l : List Nat} (hl : SlotTable.Free w.table l) :
    Audited w := by
  refine ⟨audit_true h hl, h.placed, ?_⟩
  rcases Nat.eq_zero_or_pos w.live with hempty | hpos
  · exact ⟨w, settle_empty hempty⟩
  · exact ⟨_, (settle_spec h hpos).1⟩

/-- **The wheel is audited** after every run that keeps to its contract, whatever its capacity. -/
theorem audited_run [Inhabited α] {cap : Nat} (hpos : 0 < cap) (hcap : cap < kNullIndex)
    {ops : List (Op α)} (hok : (engine α).Obeys Contract ops (init cap) []) :
    Audited ((engine α).run ops (init cap) []).2.1 := by
  obtain ⟨_, _, hend⟩ := matches_table.run (init_alike hpos hcap) hok
  obtain ⟨l, hl⟩ := hend.sequenced.free
  exact hend.inv.audited hl

/-- A run of calls on the wheel, next to the same run on the heap. -/
structure AnswersAsHeap [Inhabited α] (cap : Nat) (ops : List (Op α)) : Prop where
  replies : ((engine α).run ops (init cap) []).1
    = ((Scheduler.engine α).run ops (Scheduler.init cap) []).1
  handles : ((engine α).run ops (init cap) []).2.2
    = ((Scheduler.engine α).run ops (Scheduler.init cap) []).2.2
  size : ((engine α).run ops (init cap) []).2.1.size
    = ((Scheduler.engine α).run ops (Scheduler.init cap) []).2.1.size
  audited : ∀ before after, ops = before ++ after →
    Audited ((engine α).run before (init cap) []).2.1

theorem answers_of_narrow [Inhabited α] {cap : Nat} (hpos : 0 < cap) (hcap : cap < kNullIndex)
    {ops : List (Op α)} (hok : (engine α).Obeys NarrowContract ops (init cap) []) :
    AnswersAsHeap cap ops := by
  obtain ⟨hreplies, hhandles, hend⟩ := matches_heap.run (init_alike_heap hpos hcap) hok
  refine ⟨hreplies, hhandles, congrArg SlotTable.size hend.tables, fun before after hops => ?_⟩
  rw [hops] at hok
  exact audited_run hpos hcap (hok.left.imp fun _ _ h => h.1)

theorem answers_of_capacity [Inhabited α] {cap : Nat} (hpos : 0 < cap) (hcap : cap ≤ 2 ^ 31)
    {ops : List (Op α)} (hok : (engine α).Obeys Contract ops (init cap) []) :
    AnswersAsHeap cap ops := by
  have hnull : cap < kNullIndex := by
    unfold kNullIndex
    omega
  have halike := init_alike_heap (α := α) hpos hnull
  obtain ⟨hreplies, hhandles, hend⟩ := matches_heap_of_capacity.run
    ⟨halike.inv, ⟨halike.inv', hcap⟩, halike.tables, halike.sequenced⟩ hok
  refine ⟨hreplies, hhandles, congrArg SlotTable.size hend.tables, fun before after hops => ?_⟩
  rw [hops] at hok
  exact audited_run hpos hnull hok.left

/-! ## Beyond 2^31 events -/

theorem push_now [Inhabited α] (w : TimingWheel α) (ts : Nat) (v : α) :
    (w.push ts v).2.now = w.now := by
  rw [push_eq]
  split
  · rfl
  · show w.acquired.now = w.now
    unfold acquired
    split <;> rfl

theorem now_numbered [Inhabited α] (n : Nat) (w : TimingWheel α) (H : List GenHandle) :
    ((engine α).run (Scheduler.numbered n) w H).2.1.now = w.now := by
  induction n with
  | zero => rfl
  | succ n ih =>
      rw [Scheduler.numbered_succ, Engine.run_append]
      exact (push_now _ n default).trans ih

/-- The wheel before its first call stands for the empty queue. -/
theorem init_represents [Inhabited α] {cap : Nat} (hpos : 0 < cap) (hcap : cap < kNullIndex) :
    Represents WheelInv table cap (init cap : TimingWheel α) [] { capacity := cap } where
  inv := init_inv cap
  cap := rfl
  tickets := SlotTable.init_tickets hpos hcap

/-- The wheel takes the numbered events, as many as it has room for. -/
theorem obeys_numbered [Inhabited α] {cap n : Nat} (hpos : 0 < cap) (hcap : cap < kNullIndex)
    (hn : n ≤ cap) : (engine α).Obeys Contract (Scheduler.numbered n) (init cap) []
      ∧ ((engine α).run (Scheduler.numbered n) (init cap) []).2.1.size = n
      ∧ ((engine α).run (Scheduler.numbered n) (init cap) []).2.1.capacity = cap := by
  unfold kNullIndex at hcap
  induction n with
  | zero => exact ⟨trivial, rfl, rfl⟩
  | succ n ih =>
      obtain ⟨hobeys, hsize, hroom⟩ := ih (Nat.le_of_succ_le hn)
      have hnow := now_numbered n (init cap : TimingWheel α) []
      have hall : (engine α).Obeys Contract (Scheduler.numbered (n + 1)) (init cap) [] := by
        rw [Scheduler.numbered_succ, Engine.obeys_append]
        refine ⟨hobeys, ⟨?_, by omega, by omega⟩, trivial⟩
        rw [hnow]
        exact Nat.zero_le n
      have hlen : (Scheduler.numbered (n + 1) : List (Op α)).length ≤ 2 ^ 32 := by
        rw [Scheduler.length_numbered]
        omega
      obtain ⟨_, hend⟩ := slotEngine.faithful (init_represents hpos (by unfold kNullIndex; omega))
        hall (unwrapped_of_length hlen _ _)
      refine ⟨hall, ?_, hend.cap⟩
      have hcount := hend.tickets.size
      rw [Scheduler.queue_run hn] at hcount
      calc _ = _ := hcount.symm
        _ = n + 1 := by rw [List.length_map, List.length_range]

theorem obeys_overfull [Inhabited α] {cap N : Nat} (hcap : cap < kNullIndex) (hN : N + 1 ≤ cap)
    (hN0 : 0 < N) : (engine α).Obeys Contract (Scheduler.overfull N) (init cap) [] := by
  obtain ⟨hobeys, hsize, _⟩ := obeys_numbered (α := α) (by omega) hcap hN
  obtain ⟨_, _, hend⟩ := matches_table.run (init_alike (by omega) hcap) hobeys
  have hinv := hend.inv
  refine Engine.obeys_append.mpr ⟨hobeys, ?_⟩
  generalize ((engine α).run (Scheduler.numbered (N + 1)) (init cap) []).2 = r at hsize hinv ⊢
  have hlive : 0 < r.1.live := by
    show 0 < r.1.size
    omega
  have hleft : r.1.popMin.2.live = r.1.live - 1 :=
    congrArg SlotTable.size (popMin_spec hinv hlive).2.1
  refine ⟨hlive, ?_, trivial⟩
  show 0 < r.1.popMin.2.live
  have : r.1.live = N + 1 := hsize
  omega

/-- **In the overfull run** the wheel answers as the queue does, and so not as the heap does. -/
theorem overfull_differs (α : Type) [Inhabited α] {cap N : Nat} (hcap : cap < kNullIndex)
    (hN : N + 1 ≤ cap) (hlarge : N = 2 ^ 31) :
    (engine α).Obeys Contract (Scheduler.overfull N) (init cap) []
      ∧ ¬ AnswersAsHeap cap (Scheduler.overfull N : List (Op α)) := by
  have hobeys := obeys_overfull (α := α) hcap hN (by omega)
  have hlen : (Scheduler.overfull N : List (Op α)).length ≤ 2 ^ 32 := by
    rw [Scheduler.length_overfull]
    omega
  obtain ⟨hfaith, _⟩ := slotEngine.faithful (init_represents (by omega) hcap) hobeys
    (unwrapped_of_length hlen _ _)
  exact ⟨hobeys, fun h => Scheduler.overfull_differs hN hlarge (h.replies.symm.trans hfaith.replies)⟩

/--
**The timing wheel answers as the heap scheduler does, up to 2^31 events.**

In every run of calls that pushes nothing into the past of the watermark or beyond the
capacity and looks for nothing in an empty wheel, the wheel passes its audit after every
call, every pending event lies at its position, and `settle` ends. Where in addition
nothing is taken out of a wheel of more than 2^31 events, values, timestamps, cancel
results and handles are the heap's, over all timestamps of 64 bits. With a capacity of at
most 2^31 these are all such runs; with a larger one the heap answers some such run
otherwise.
-/
theorem wheel_answers_iff [Inhabited α] {cap : Nat} (hpos : 0 < cap) (hcap : cap < kNullIndex) :
    (∀ ops : List (Op α), (engine α).Obeys Contract ops (init cap) [] →
        Audited ((engine α).run ops (init cap) []).2.1)
      ∧ (∀ ops : List (Op α), (engine α).Obeys NarrowContract ops (init cap) [] →
        AnswersAsHeap cap ops)
      ∧ ((∀ ops : List (Op α), (engine α).Obeys Contract ops (init cap) [] → AnswersAsHeap cap ops)
        ↔ cap ≤ 2 ^ 31) := by
  refine ⟨fun ops => audited_run hpos hcap, fun ops => answers_of_narrow hpos hcap, fun h => ?_,
    fun hle ops => answers_of_capacity hpos hle⟩
  by_contra hlarge
  obtain ⟨N, hN⟩ : ∃ N, N = 2 ^ 31 := ⟨_, rfl⟩
  obtain ⟨hobeys, hdiffers⟩ := overfull_differs α hcap (show N + 1 ≤ cap by omega) hN
  exact hdiffers (h _ hobeys)

/-- An event at the end of time and one that is demoted, popped and cancelled. -/
theorem wheel_answers_iff_demoted :
    AnswersAsHeap 3 ([.push (2 ^ 64 - 1) 10, .push 70 11, .peekMin, .push 71 12, .popMin, .cancel 0]
      : List (Op Nat)) :=
  (wheel_answers_iff (by omega) (by decide)).2.2.mpr (by decide) _
    ⟨⟨by decide, by decide, by decide⟩, ⟨by decide, by decide, by decide⟩, show 0 < 2 by decide,
      ⟨by decide, by decide, by decide⟩, show 0 < 3 by decide, trivial, trivial⟩

/-- **With room for 2^31 + 1 events** the wheel shows the second when the first has been popped,
and the heap the third. -/
theorem overfull_not_answered :
    (engine Nat).Obeys Contract (Scheduler.overfull (2 ^ 31)) (init (2 ^ 31 + 1)) []
      ∧ ¬ AnswersAsHeap (2 ^ 31 + 1) (Scheduler.overfull (2 ^ 31) : List (Op Nat)) :=
  overfull_differs Nat (by decide) (Nat.le_refl _) rfl

end TimingWheel

end Mog
