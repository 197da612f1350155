import Mog.Event.Engine

/-!
# The slot table as an engine

The reference for both schedulers: the same slots and handles, and in place of a heap
or a wheel a search through everything recorded. It is right for every capacity, so
what a scheduler is asked to do can be read off its run.

Peeking and popping search the slots below the watermark for the least pair of timestamp and
number. That is slow and says what is meant: the result is some live slot that no other comes
before, which is all that the engine rule asks of a peek.
-/

namespace Mog

open TicketQueue

namespace SlotTable

variable {α : Type} {t : SlotTable α} {l : List Nat}

/-- A table of which no slot has been used. -/
def init (capacity : Nat) : SlotTable α where
  capacity := capacity
  watermark := 0
  freeHead := kNullIndex
  freeNext := fun _ => kNullIndex
  generation := fun _ => 0
  record := fun _ => none
  size := 0
  nextSeq := 0

/-- The recorded events, each under the number of its slot. -/
def events (t : SlotTable α) : List (Event α) :=
  (List.range t.watermark).filterMap fun i =>
    (t.record i).map fun r => { ts := r.ts, seq := r.seq, ticket := i, value := r.value }

theorem mem_events {e : Event α} :
    e ∈ t.events ↔ e.ticket < t.watermark
      ∧ t.record e.ticket = some { ts := e.ts, seq := e.seq, value := e.value } := by
  unfold events
  simp only [List.mem_filterMap, List.mem_range, Option.map_eq_some_iff]
  constructor
  · rintro ⟨i, hi, r, hr, rfl⟩
    exact ⟨hi, hr⟩
  · rintro ⟨hlt, hr⟩
    exact ⟨e.ticket, hlt, _, hr, rfl⟩

/-- Something is recorded where something is counted. -/
theorem Free.events_ne_nil (h : Free t l) (hpos : 0 < t.size) : t.events ≠ [] := by
  intro hnil
  have hall : List.range t.watermark ⊆ l := by
    intro i hi
    rw [List.mem_range] at hi
    refine (h.mem i).mpr ⟨hi, ?_⟩
    rw [Option.eq_none_iff_forall_ne_some]
    intro r hr
    have hmem : ({ ts := r.ts, seq := r.seq, ticket := i, value := r.value } : Event α) ∈ t.events :=
      mem_events.mpr ⟨hi, hr⟩
    rw [hnil] at hmem
    exact absurd hmem List.not_mem_nil
  have hlen := (List.subperm_of_subset List.nodup_range hall).length_le
  rw [List.length_range] at hlen
  have := h.count
  omega

/-- **The search finds the least recorded event.** -/
theorem Free.least_events (h : Free t l) (hpos : 0 < t.size) :
    ∃ e, TicketQueue.least t.events = some e
      ∧ t.Least e.ticket { ts := e.ts, seq := e.seq, value := e.value } := by
  obtain ⟨e, he, hmem, hmin⟩ := least_spec (h.events_ne_nil hpos)
  refine ⟨e, he, (mem_events.mp hmem).2, fun j r hr => ?_⟩
  have := hmin { ts := r.ts, seq := r.seq, ticket := j, value := r.value }
    (mem_events.mpr ⟨h.lt_watermark hr, hr⟩)
  unfold Event.Before at this
  dsimp only at this ⊢
  omega

def peekMin [Inhabited α] (t : SlotTable α) : α :=
  ((TicketQueue.least t.events).map Event.value).getD default

def peekMinTs (t : SlotTable α) : Nat := ((TicketQueue.least t.events).map Event.ts).getD 0

/-- The slot of the event that leaves next. -/
def minSlot (t : SlotTable α) : Nat := ((TicketQueue.least t.events).map Event.ticket).getD 0

def popMin [Inhabited α] (t : SlotTable α) : α × SlotTable α := (t.peekMin, t.release t.minSlot)

/-- What the table shows is its least recorded event. -/
theorem Free.least_shown [Inhabited α] (h : Free t l) (hpos : 0 < t.size) :
    ∃ r, t.Least t.minSlot r ∧ t.peekMin = r.value ∧ t.peekMinTs = r.ts := by
  obtain ⟨e, he, hleast⟩ := h.least_events hpos
  unfold minSlot peekMin peekMinTs
  rw [he]
  exact ⟨_, hleast, rfl, rfl⟩

def engine (α : Type) [Inhabited α] : Engine (SlotTable α) GenHandle α where
  push t ts v := t.push ts v
  cancel := cancel
  peekMin t := (t.peekMin, t)
  peekMinTs t := (t.peekMinTs, t)
  popMin := popMin
  clear := clear

/-- Nothing is looked for in an empty table. -/
def Contract (t : SlotTable α) : Op α → Prop
  | .peekMin | .peekMinTs | .popMin => 0 < t.size
  | .push _ _ | .cancel _ | .clear => True

/-- **The table is an engine over itself.** -/
theorem slotEngine [Inhabited α] :
    SlotEngine (engine α) (fun _ => True) (fun t => t) Contract where
  push _ _ _ _ _ _ _ := ⟨rfl, rfl, trivial⟩
  flag _ _ _ _ _ := rfl
  cancel _ _ _ _ _ _ _ := ⟨rfl, trivial⟩
  peekMin t _ _ hl hpos := by
    obtain ⟨r, hleast, hval, _⟩ := hl.least_shown hpos
    exact ⟨_, r, hleast, hval, rfl, trivial⟩
  peekMinTs t _ _ hl hpos := by
    obtain ⟨r, hleast, _, hts⟩ := hl.least_shown hpos
    exact ⟨_, r, hleast, hts, rfl, trivial⟩
  popMin t _ _ hl hpos := by
    obtain ⟨r, hleast, hval, _⟩ := hl.least_shown hpos
    exact ⟨_, r, hleast, hval, rfl, trivial⟩
  clear _ _ _ _ _ := ⟨rfl, trivial⟩

theorem init_tickets {cap : Nat} (hpos : 0 < cap) (hcap : cap < kNullIndex) :
    Tickets (init cap : SlotTable α) [] { capacity := cap } :=
  Tickets.unused (t := init cap) hpos hcap rfl rfl (fun _ => ⟨rfl, rfl⟩) rfl rfl

end SlotTable

end Mog
