import Mathlib.Data.List.Count
import Mathlib.Logic.Function.Basic
import Mog.Book.Arena
import Mog.Lib.TicketQueue

/-!
# Event slots

What the two schedulers share: an arena of generational slots with a free list, of
which each occupied slot records an event. A `SlotTable` is that part of a scheduler's
state, and here it is shown to be a queue with tickets, the handles being the tickets'
representation. What is left to a scheduler is to find the slot whose event comes
first.

`Tickets t H q` is the relation: the handles `H` handed out so far, in the order of their
tickets, name slots of the table `t`, and what is recorded in the live slots is what pends in
the queue `q`. Pushing, cancelling and releasing each keep it, and the least recorded event is
the least pending one.
-/

namespace Mog

open TicketQueue

/-- What an occupied slot records. -/
structure SlotRecord (α : Type) where
  ts : Nat
  seq : Nat
  value : α

/-- The slots of a scheduler; an event in flight is a recorded one. -/
@[ext]
structure SlotTable (α : Type) where
  capacity : Nat
  watermark : Nat
  freeHead : Nat
  freeNext : Nat → Nat
  generation : Nat → Nat
  record : Nat → Option (SlotRecord α)
  size : Nat
  nextSeq : Nat

namespace SlotTable

variable {α : Type} (t : SlotTable α)

def full : Prop := t.freeHead = kNullIndex ∧ t.capacity ≤ t.watermark

instance : Decidable t.full := inferInstanceAs (Decidable (_ ∧ _))

/-- The slot that the next push takes. -/
def nextSlot : Nat := if t.freeHead = kNullIndex then t.watermark else t.freeHead

/-- Take the next slot off the free list, or construct it. -/
def acquire : SlotTable α :=
  if t.freeHead = kNullIndex then
    { t with
      watermark := t.watermark + 1
      freeNext := Function.update t.freeNext t.watermark kNullIndex
      generation := Function.update t.generation t.watermark 0 }
  else { t with freeHead := t.freeNext t.freeHead }

def put (i : Nat) (r : SlotRecord α) : SlotTable α :=
  { t with
    record := Function.update t.record i (some r)
    size := t.size + 1
    nextSeq := t.nextSeq + 1 }

def push (ts : Nat) (value : α) : GenHandle × SlotTable α :=
  if t.full then ({}, t)
  else
    ({ index := t.nextSlot, generation := t.acquire.generation t.nextSlot },
      t.acquire.put t.nextSlot { ts, seq := t.nextSeq, value })

/-- Free an occupied slot. -/
def release (i : Nat) : SlotTable α :=
  { t with
    record := Function.update t.record i none
    generation := Function.update t.generation i ((t.generation i + 1) % 2 ^ 32)
    freeNext := Function.update t.freeNext i t.freeHead
    freeHead := i
    size := t.size - 1 }

/-- The handle names the event that its slot holds. -/
def Names (h : GenHandle) : Prop :=
  h.index < t.capacity ∧ (t.record h.index).isSome ∧ t.generation h.index = h.generation

instance (h : GenHandle) : Decidable (t.Names h) := inferInstanceAs (Decidable (_ ∧ _))

def cancel (h : GenHandle) : Bool × SlotTable α :=
  if t.Names h then (true, t.release h.index) else (false, t)

/-- Construct every slot, advance the generation of the occupied ones, link them all. -/
def clear : SlotTable α :=
  { t with
    watermark := t.capacity
    freeHead := 0
    freeNext := fun i =>
      if i < t.capacity then (if i + 1 < t.capacity then i + 1 else kNullIndex) else t.freeNext i
    generation := fun i =>
      if t.watermark ≤ i ∧ i < t.capacity then 0
      else if (t.record i).isSome then (t.generation i + 1) % 2 ^ 32
      else t.generation i
    record := fun _ => none
    size := 0
    nextSeq := 0 }

/-- Slot `i` records `r`, and no recorded event comes before it. -/
def Least (i : Nat) (r : SlotRecord α) : Prop :=
  t.record i = some r ∧
    ∀ j r', t.record j = some r' → r.ts < r'.ts ∨ (r.ts = r'.ts ∧ r.seq ≤ r'.seq)

/-! ## The free list -/

def FreeChain (next : Nat → Nat) : Nat → List Nat → Prop
  | cur, [] => cur = kNullIndex
  | cur, i :: l => cur = i ∧ FreeChain next (next i) l

theorem FreeChain.congr {next next' : Nat → Nat} {cur : Nat} {l : List Nat}
    (h : FreeChain next cur l) (heq : ∀ i ∈ l, next' i = next i) : FreeChain next' cur l := by
  induction l generalizing cur with
  | nil => exact h
  | cons i l ih =>
      obtain ⟨hcur, hrest⟩ := h
      refine ⟨hcur, ?_⟩
      rw [heq i List.mem_cons_self]
      exact ih hrest (fun j hj => heq j (List.mem_cons_of_mem _ hj))

/-- The free list is `l`: each unoccupied slot below the watermark, once. -/
structure Free (t : SlotTable α) (l : List Nat) : Prop where
  cap : t.capacity < kNullIndex
  mark : t.watermark ≤ t.capacity
  chain : FreeChain t.freeNext t.freeHead l
  nodup : l.Nodup
  mem : ∀ i, i ∈ l ↔ i < t.watermark ∧ t.record i = none
  /-- Slots from the watermark on have never been used. -/
  fresh : ∀ i, t.watermark ≤ i → t.record i = none ∧ t.generation i = 0
  count : t.size + l.length = t.watermark

variable {t} {l : List Nat}

/-- The walk along the free list in the audits: its length, unless it meets a slot that is
out of range or in use. -/
def freeLength (capacity : Nat) (live : Nat → Bool) (next : Nat → Nat) : Nat → Nat → Option Nat
  | 0, _ => none
  | fuel + 1, cursor =>
      if cursor = kNullIndex then some 0
      else if capacity ≤ cursor ∨ live cursor then none
      else (freeLength capacity live next fuel (next cursor)).map (· + 1)

theorem freeLength_chain {capacity : Nat} {live : Nat → Bool} {next : Nat → Nat} {l : List Nat}
    (hcap : capacity < kNullIndex) {cur : Nat} (hc : FreeChain next cur l)
    (hl : ∀ i ∈ l, i < capacity ∧ live i = false) {fuel : Nat} (hfuel : l.length < fuel) :
    freeLength capacity live next fuel cur = some l.length := by
  induction l generalizing cur fuel with
  | nil =>
      cases fuel with
      | zero => exact absurd hfuel (Nat.not_lt_zero _)
      | succ fuel => rw [freeLength, if_pos (show cur = kNullIndex from hc), List.length_nil]
  | cons i l ih =>
      cases fuel with
      | zero => exact absurd hfuel (Nat.not_lt_zero _)
      | succ fuel =>
          obtain ⟨rfl, hrest⟩ := hc
          obtain ⟨hlt, hlive⟩ := hl cur List.mem_cons_self
          have hno : ¬ (capacity ≤ cur ∨ live cur = true) := by
            rw [hlive]
            simpa using hlt
          rw [freeLength, if_neg (by omega), if_neg hno,
            ih hrest (fun j hj => hl j (List.mem_cons_of_mem _ hj))
              (Nat.lt_of_succ_lt_succ hfuel)]
          rfl

theorem Free.length_le (h : Free t l) : l.length ≤ t.capacity := by
  have := h.count
  have := h.mark
  omega

theorem Free.size_le (h : Free t l) : t.size ≤ t.capacity := by
  have := h.count
  have := h.mark
  omega

theorem Free.lt_watermark (h : Free t l) {i : Nat} {r : SlotRecord α} (hi : t.record i = some r) :
    i < t.watermark := by
  by_contra hge
  rw [(h.fresh i (Nat.not_lt.mp hge)).1] at hi
  cases hi

theorem Free.lt_capacity (h : Free t l) {i : Nat} {r : SlotRecord α} (hi : t.record i = some r) :
    i < t.capacity := Nat.lt_of_lt_of_le (h.lt_watermark hi) h.mark

theorem Free.head_eq_null (h : Free t l) : t.freeHead = kNullIndex ↔ l = [] := by
  constructor
  · intro hnull
    cases l with
    | nil => rfl
    | cons i l =>
        have hi := ((h.mem i).mp List.mem_cons_self).1
        have hcap := h.cap
        have hmark := h.mark
        have hhead := h.chain.1
        omega
  · rintro rfl
    exact h.chain

theorem Free.full_iff (h : Free t l) : t.full ↔ t.capacity ≤ t.size := by
  have hcount := h.count
  have hmark := h.mark
  unfold full
  rw [h.head_eq_null]
  constructor
  · rintro ⟨rfl, hle⟩
    rw [List.length_nil] at hcount
    omega
  · intro hle
    exact ⟨List.length_eq_zero_iff.mp (by omega), by omega⟩

/-- **The slot a push takes** is free, within the capacity, and keeps its generation. -/
theorem Free.nextSlot (h : Free t l) (hroom : ¬ t.full) :
    t.nextSlot < t.capacity ∧ t.record t.nextSlot = none
      ∧ t.acquire.generation = t.generation ∧ t.acquire.record = t.record
      ∧ ∀ r, ∃ l', Free (t.acquire.put t.nextSlot r) l' := by
  unfold SlotTable.nextSlot SlotTable.acquire
  by_cases hnull : t.freeHead = kNullIndex
  · have hlt : t.watermark < t.capacity := Nat.lt_of_not_le fun hle => hroom ⟨hnull, hle⟩
    obtain ⟨hrec, hgen⟩ := h.fresh t.watermark (Nat.le_refl _)
    have hgens : Function.update t.generation t.watermark 0 = t.generation := by
      rw [← hgen, Function.update_eq_self]
    have hl := h.head_eq_null.mp hnull
    simp only [if_pos hnull]
    refine ⟨hlt, hrec, hgens, trivial, fun r => ⟨[], ?_⟩⟩
    subst hl
    refine ⟨h.cap, hlt, hnull, List.nodup_nil, fun i => ?_, fun i hi => ?_, ?_⟩
    · show i ∈ [] ↔ i < t.watermark + 1 ∧ Function.update t.record t.watermark (some r) i = none
      by_cases hi : i = t.watermark
      · simp [hi]
      · have hmem := h.mem i
        simp only [List.not_mem_nil, false_iff] at hmem ⊢
        rw [Function.update_of_ne hi]
        intro hc
        exact hmem ⟨by omega, hc.2⟩
    · show Function.update t.record t.watermark (some r) i = none
        ∧ Function.update t.generation t.watermark 0 i = 0
      have hi' : t.watermark + 1 ≤ i := hi
      rw [hgens, Function.update_of_ne (by omega)]
      exact h.fresh i (by omega)
    · show t.size + 1 + 0 = t.watermark + 1
      have := h.count
      rw [List.length_nil] at this
      omega
  · simp only [if_neg hnull]
    cases l with
    | nil => exact absurd (h.head_eq_null.mpr rfl) hnull
    | cons i l =>
        obtain ⟨hhead, hchain⟩ := h.chain
        obtain ⟨hi, hrec⟩ := (h.mem i).mp List.mem_cons_self
        rw [hhead]
        refine ⟨Nat.lt_of_lt_of_le hi h.mark, hrec, trivial, trivial, fun r => ⟨l, ?_⟩⟩
        have hnd := List.nodup_cons.mp h.nodup
        refine ⟨h.cap, h.mark, hchain, hnd.2, fun j => ?_, fun j hj => ?_, ?_⟩
        · show j ∈ l ↔ j < t.watermark ∧ Function.update t.record i (some r) j = none
          by_cases hj : j = i
          · subst hj
            simp [hnd.1]
          · rw [Function.update_of_ne hj, ← h.mem j, List.mem_cons, or_iff_right hj]
        · show Function.update t.record i (some r) j = none ∧ t.generation j = 0
          have hj' : t.watermark ≤ j := hj
          rw [Function.update_of_ne (by omega)]
          exact h.fresh j hj'
        · show t.size + 1 + l.length = t.watermark
          have := h.count
          rw [List.length_cons] at this
          omega

theorem Free.release (h : Free t l) {i : Nat} {r : SlotRecord α} (hi : t.record i = some r)
    (hsize : 0 < t.size) : Free (t.release i) (i :: l) := by
  have hlt := h.lt_watermark hi
  have hnot : i ∉ l := by
    intro hmem
    rw [((h.mem i).mp hmem).2] at hi
    cases hi
  refine ⟨h.cap, h.mark, ⟨rfl, ?_⟩, List.nodup_cons.mpr ⟨hnot, h.nodup⟩, fun j => ?_,
    fun j hj => ?_, ?_⟩
  · show FreeChain (Function.update t.freeNext i t.freeHead)
      (Function.update t.freeNext i t.freeHead i) l
    rw [Function.update_self]
    refine h.chain.congr fun j hj => Function.update_of_ne ?_ _ _
    rintro rfl
    exact hnot hj
  · show j ∈ i :: l ↔ j < t.watermark ∧ Function.update t.record i none j = none
    by_cases hj : j = i
    · subst hj
      simp [hlt]
    · rw [Function.update_of_ne hj, ← h.mem j, List.mem_cons, or_iff_right hj]
  · show Function.update t.record i none j = none
      ∧ Function.update t.generation i ((t.generation i + 1) % 2 ^ 32) j = 0
    have hj' : t.watermark ≤ j := hj
    rw [Function.update_of_ne (by omega), Function.update_of_ne (by omega)]
    exact h.fresh j hj'
  · show t.size - 1 + (i :: l).length = t.watermark
    have := h.count
    rw [List.length_cons]
    omega

/-- The list that `clear` links: every slot, in order. -/
theorem freeChain_clear (cap : Nat) {next : Nat → Nat}
    (hnext : ∀ i, i < cap → next i = if i + 1 < cap then i + 1 else kNullIndex) :
    ∀ n i, i + n = cap → 0 < n → FreeChain next i ((List.range' i n)) := by
  intro n
  induction n with
  | zero => exact fun _ _ h => absurd h (Nat.lt_irrefl 0)
  | succ n ih =>
      intro i hi _
      rw [List.range'_succ]
      refine ⟨rfl, ?_⟩
      rw [hnext i (by omega)]
      rcases Nat.eq_zero_or_pos n with rfl | hn
      · rw [if_neg (by omega)]
        rfl
      · rw [if_pos (by omega)]
        exact ih (i + 1) (by omega) hn

theorem Free.clear (h : Free t l) (hcap : 0 < t.capacity) :
    Free t.clear (List.range' 0 t.capacity) := by
  refine ⟨h.cap, Nat.le_refl _, ?_, List.nodup_range', fun i => ?_, fun i hi => ?_, ?_⟩
  · refine freeChain_clear t.capacity (fun i hi => ?_) t.capacity 0 (Nat.zero_add _) hcap
    exact if_pos hi
  · rw [List.mem_range'_1, Nat.zero_add]
    exact ⟨fun hi => ⟨hi.2, rfl⟩, fun hi => ⟨Nat.zero_le _, hi.1⟩⟩
  · have hi' : t.capacity ≤ i := hi
    obtain ⟨hrec, hgen⟩ := h.fresh i (Nat.le_trans h.mark hi')
    refine ⟨rfl, ?_⟩
    show (if t.watermark ≤ i ∧ i < t.capacity then 0
      else if (t.record i).isSome then (t.generation i + 1) % 2 ^ 32 else t.generation i) = 0
    rw [if_neg (by omega), hrec, if_neg (by simp), hgen]
  · show 0 + (List.range' 0 t.capacity).length = t.capacity
    rw [List.length_range', Nat.zero_add]

/-- A recorded event is counted. -/
theorem Free.size_pos (h : Free t l) {i : Nat} {r : SlotRecord α} (hi : t.record i = some r) :
    0 < t.size := by
  have hnot : i ∉ l := by
    intro hmem
    rw [((h.mem i).mp hmem).2] at hi
    cases hi
  have hsub : i :: l ⊆ List.range t.watermark := by
    intro j hj
    rw [List.mem_range]
    rcases List.mem_cons.mp hj with hji | hj
    · exact hji ▸ h.lt_watermark hi
    · exact ((h.mem j).mp hj).1
  have hlen := (List.subperm_of_subset (List.nodup_cons.mpr ⟨hnot, h.nodup⟩) hsub).length_le
  rw [List.length_cons, List.length_range] at hlen
  have hcount := h.count
  omega

/-- The checks of a cancel, on what a scheduler's slot says. -/
theorem cancel_branches {σ : Type} (t : SlotTable α) {g : GenHandle} {live : Bool}
    (hlive : (t.record g.index).isSome = live) (w w' : σ) :
    (if t.capacity ≤ g.index then (false, w)
      else if live = false ∨ t.generation g.index ≠ g.generation then (false, w)
      else (true, w'))
      = if t.Names g then (true, w') else (false, w) := by
  subst hlive
  by_cases hrange : t.capacity ≤ g.index
  · rw [if_pos hrange, if_neg fun hc : t.Names g => Nat.not_lt.mpr hrange hc.1]
  · rw [if_neg hrange]
    by_cases hstale : (t.record g.index).isSome = false ∨ t.generation g.index ≠ g.generation
    · have hno : ¬ t.Names g := by
        intro hc
        rcases hstale with hd | hne
        · rw [hc.2.1] at hd
          exact Bool.noConfusion hd
        · exact hne hc.2.2
      rw [if_pos hstale, if_neg hno]
    · obtain ⟨hsome, hgen⟩ := not_or.mp hstale
      have hnames : t.Names g :=
        ⟨Nat.lt_of_not_le hrange, Bool.eq_true_of_not_eq_false hsome, not_not.mp hgen⟩
      rw [if_neg hstale, if_pos hnames]

/-- What `clear` makes of a table, slot by slot. -/
theorem Free.clear_eq (h : Free t l) {t' : SlotTable α} (hcap : t'.capacity = t.capacity)
    (hmark : t'.watermark = t.capacity) (hhead : t'.freeHead = 0) (hsize : t'.size = 0)
    (hseq : t'.nextSeq = 0) (hrec : ∀ i, t'.record i = none)
    (hin : ∀ i, i < t.capacity →
      t'.generation i = (if t.watermark ≤ i then 0
        else if (t.record i).isSome then (t.generation i + 1) % 2 ^ 32 else t.generation i)
      ∧ t'.freeNext i = if i + 1 < t.capacity then i + 1 else kNullIndex)
    (hout : ∀ i, t.capacity ≤ i →
      t'.generation i = t.generation i ∧ t'.freeNext i = t.freeNext i) : t' = t.clear := by
  unfold SlotTable.clear
  ext1
  · exact hcap
  · exact hmark
  · exact hhead
  · funext i
    dsimp only
    by_cases hi : i < t.capacity
    · rw [if_pos hi, (hin i hi).2]
    · rw [if_neg hi, (hout i (Nat.not_lt.mp hi)).2]
  · funext i
    dsimp only
    by_cases hi : i < t.capacity
    · rw [(hin i hi).1]
      by_cases hw : t.watermark ≤ i
      · rw [if_pos hw, if_pos ⟨hw, hi⟩]
      · rw [if_neg hw, if_neg (show ¬ (t.watermark ≤ i ∧ i < t.capacity) from fun hc => hw hc.1)]
    · have hge := Nat.not_lt.mp hi
      rw [(hout i hge).1, if_neg fun hc => hi hc.2, (h.fresh i (Nat.le_trans h.mark hge)).1]
      rfl
  · exact funext hrec
  · exact hsize
  · exact hseq

/-! ## Handles -/

/-- How many handles on slot `i` have been given out. -/
def uses (H : List GenHandle) (i : Nat) : Nat := H.countP (fun h => h.index = i)

theorem uses_append (H H' : List GenHandle) (i : Nat) : uses (H ++ H') i = uses H i + uses H' i :=
  List.countP_append

theorem uses_singleton (h : GenHandle) (i : Nat) : uses [h] i = if h.index = i then 1 else 0 := by
  unfold uses
  simp only [List.countP_singleton, decide_eq_true_eq]

/-- The handles on a slot carry successive generations. -/
def Numbered (cap : Nat) (H : List GenHandle) : Prop :=
  ∀ n h, H[n]? = some h → h.index < cap → h.generation = uses (H.take n) h.index % 2 ^ 32

theorem Numbered.append {cap : Nat} {H : List GenHandle} (hn : Numbered cap H) {h : GenHandle}
    (hgen : h.index < cap → h.generation = uses H h.index % 2 ^ 32) : Numbered cap (H ++ [h]) := by
  intro n x hx hcap
  rcases Nat.lt_or_ge n H.length with hlt | hge
  · rw [List.getElem?_append_left hlt] at hx
    rw [List.take_append_of_le_length (Nat.le_of_lt hlt)]
    exact hn n x hx hcap
  · have hlen := (List.getElem?_eq_some_iff.mp hx).1
    rw [List.length_append, List.length_singleton] at hlen
    have hnn : n = H.length := by omega
    subst hnn
    rw [List.getElem?_append_right (Nat.le_refl _), Nat.sub_self] at hx
    cases hx
    rw [List.take_left']
    · exact hgen hcap
    · rfl

theorem uses_take_lt {H : List GenHandle} {n m : Nat} {h : GenHandle} (hn : H[n]? = some h)
    (hlt : n < m) : uses (H.take n) h.index < uses (H.take m) h.index := by
  have hlen := (List.getElem?_eq_some_iff.mp hn).1
  have hsucc : uses (H.take (n + 1)) h.index = uses (H.take n) h.index + 1 := by
    rw [List.take_add_one, hn, Option.toList_some, uses_append, uses_singleton, if_pos rfl]
  have hle : uses (H.take (n + 1)) h.index ≤ uses (H.take m) h.index := by
    have hsub : H.take (n + 1) = (H.take m).take (n + 1) := by
      rw [List.take_take, Nat.min_eq_left hlt]
    rw [hsub]
    exact (List.take_sublist _ _).countP_le
  omega

/-- **A slot's handles differ in their generations**, as long as the generations do not
come round. -/
theorem Numbered.inj {cap : Nat} {H : List GenHandle} (hn : Numbered cap H) {n m : Nat}
    {h : GenHandle} (hcap : h.index < cap) (huses : uses H h.index ≤ 2 ^ 32)
    (h1 : H[n]? = some h) (h2 : H[m]? = some h) : n = m := by
  have hbound : ∀ k, H[k]? = some h → uses (H.take k) h.index < 2 ^ 32 := by
    intro k hk
    have hlt := uses_take_lt hk (List.getElem?_eq_some_iff.mp hk).1
    rw [List.take_length] at hlt
    omega
  have hg1 := hn n h h1 hcap
  have hg2 := hn m h h2 hcap
  rw [Nat.mod_eq_of_lt (hbound n h1)] at hg1
  rw [Nat.mod_eq_of_lt (hbound m h2)] at hg2
  rcases Nat.lt_trichotomy n m with hlt | heq | hgt
  · have := uses_take_lt h1 hlt
    omega
  · exact heq
  · have := uses_take_lt h2 hgt
    omega

/-! ## The table is a queue with tickets -/

/-- The table holds the pending events of `q`, each in the slot its ticket's handle names. -/
structure Tickets (t : SlotTable α) (H : List GenHandle) (q : Queue α) : Prop where
  free : ∃ l, Free t l
  pos : 0 < t.capacity
  capacity : q.capacity = t.capacity
  seq : q.nextSeq = t.nextSeq
  issued : H.length = q.issued
  numbered : Numbered t.capacity H
  generation : ∀ i, i < t.capacity →
    (t.generation i + if (t.record i).isSome then 1 else 0) % 2 ^ 32 = uses H i % 2 ^ 32
  wraps : ∀ i, t.generation i < 2 ^ 32
  nodup : (q.pending.map Event.ticket).Nodup
  size : q.pending.length = t.size
  slot : ∀ e ∈ q.pending, ∃ i, H[e.ticket]? = some ⟨i, t.generation i⟩
    ∧ t.record i = some ⟨e.ts, e.seq, e.value⟩
  event : ∀ i r, t.record i = some r → ∃ e ∈ q.pending, H[e.ticket]? = some ⟨i, t.generation i⟩
  seq_lt : ∀ e ∈ q.pending, e.seq < q.nextSeq
  seq_inj : ∀ a ∈ q.pending, ∀ b ∈ q.pending, a.seq = b.seq → a = b

namespace Tickets

variable {H : List GenHandle} {q : Queue α}

theorem full_iff (h : Tickets t H q) : t.full ↔ ¬ q.pending.length < q.capacity := by
  obtain ⟨l, hl⟩ := h.free
  rw [hl.full_iff, h.size, h.capacity, Nat.not_lt]

theorem ticket_lt (h : Tickets t H q) {e : Event α} (he : e ∈ q.pending) : e.ticket < H.length := by
  obtain ⟨i, hi, _⟩ := h.slot e he
  exact (List.getElem?_eq_some_iff.mp hi).1

/-- A slot holds the event of one ticket. -/
theorem eq_of_slot (h : Tickets t H q) {a b : Event α} (ha : a ∈ q.pending) (hb : b ∈ q.pending)
    (heq : H[a.ticket]? = H[b.ticket]?) : a = b := by
  obtain ⟨i, hi, hri⟩ := h.slot a ha
  obtain ⟨j, hj, hrj⟩ := h.slot b hb
  rw [hi, hj, Option.some_inj, GenHandle.mk.injEq] at heq
  rw [← heq.1, hri, Option.some_inj, SlotRecord.mk.injEq] at hrj
  exact h.seq_inj a ha b hb hrj.2.1

/-- A ticket issued without an event. -/
theorem push_full (h : Tickets t H q) :
    Tickets t (H ++ [({} : GenHandle)]) { q with issued := q.issued + 1 } := by
  obtain ⟨l, hl⟩ := h.free
  have hout : ∀ i, i < t.capacity → uses (H ++ [({} : GenHandle)]) i = uses H i := by
    intro i hi
    have hcap := hl.cap
    rw [uses_append, uses_singleton, if_neg (show kNullIndex ≠ i by omega), Nat.add_zero]
  have hget : ∀ e ∈ q.pending, (H ++ [({} : GenHandle)])[e.ticket]? = H[e.ticket]? := fun e he =>
    List.getElem?_append_left (h.ticket_lt he)
  exact
    { h with
      issued := by
        rw [List.length_append, h.issued]
        rfl
      numbered := h.numbered.append fun hlt => absurd hlt (Nat.not_lt.mpr (Nat.le_of_lt hl.cap))
      generation := fun i hi => by rw [hout i hi, h.generation i hi]
      slot := fun e he => by rw [hget e he]; exact h.slot e he
      event := fun i r hr => by
        obtain ⟨e, he, hi⟩ := h.event i r hr
        exact ⟨e, he, (hget e he).trans hi⟩ }

/-- A push with room records its event in a free slot. -/
theorem push_room (h : Tickets t H q) (hroom : ¬ t.full) (ts : Nat) (value : α) :
    Tickets (t.acquire.put t.nextSlot { ts, seq := t.nextSeq, value })
      (H ++ [⟨t.nextSlot, t.acquire.generation t.nextSlot⟩])
      { q with
        pending := q.pending ++ [{ ts, seq := q.nextSeq, ticket := q.issued, value }]
        nextSeq := q.nextSeq + 1
        issued := q.issued + 1 } := by
  -- The slot that is handed out is free, and acquiring it touches no record but its own.
  obtain ⟨l, hl⟩ := h.free
  obtain ⟨hlt, hnone, hgen, hrec, hfree⟩ := hl.nextSlot hroom
  have hcap : t.acquire.capacity = t.capacity := by
    unfold acquire
    split <;> rfl
  have hseq : t.acquire.nextSeq = t.nextSeq := by
    unfold acquire
    split <;> rfl
  have hsize : t.acquire.size = t.size := by
    unfold acquire
    split <;> rfl
  rw [hgen]
  generalize hs : t.nextSlot = i at *
  generalize ht : t.acquire = a at *
  -- Handles of earlier tickets keep their places; the new one has the next ticket.
  have hget : ∀ e ∈ q.pending,
      (H ++ [(⟨i, t.generation i⟩ : GenHandle)])[e.ticket]? = H[e.ticket]? := fun e he =>
    List.getElem?_append_left (h.ticket_lt he)
  have hlast : (H ++ [(⟨i, t.generation i⟩ : GenHandle)])[q.issued]?
      = some ⟨i, t.generation i⟩ := by
    rw [← h.issued, List.getElem?_append_right (Nat.le_refl _), Nat.sub_self]
    rfl
  refine
    { free := hfree _
      pos := by show 0 < a.capacity; rw [hcap]; exact h.pos
      capacity := by show q.capacity = a.capacity; rw [hcap]; exact h.capacity
      seq := by show q.nextSeq + 1 = a.nextSeq + 1; rw [hseq, h.seq]
      issued := by
        rw [List.length_append, h.issued]
        rfl
      numbered := ?_
      generation := fun j hj => ?_
      wraps := fun j => ?_
      nodup := ?_
      size := ?_
      slot := fun e he => ?_
      event := fun j r hr => ?_
      seq_lt := fun e he => ?_
      seq_inj := fun x hx y hy hxy => ?_ }
  -- The new handle's generation is the number of times its slot has been handed out.
  · show Numbered a.capacity _
    rw [hcap]
    refine h.numbered.append fun _ => ?_
    have hg := h.generation i hlt
    rw [hnone] at hg
    rw [← hg]
    exact (Nat.mod_eq_of_lt (h.wraps i)).symm
  -- The slot counts as used once more, its generation having moved when it was handed out.
  · show (a.generation j + if (Function.update a.record i (some _) j).isSome then 1 else 0) % 2 ^ 32
      = _
    have hg := h.generation j (by rw [← hcap]; exact hj)
    rw [hgen, hrec, uses_append, uses_singleton]
    by_cases hji : j = i
    · subst hji
      rw [hnone] at hg
      have hmod : t.generation j % 2 ^ 32 = uses H j % 2 ^ 32 := hg
      rw [Function.update_self, if_pos rfl]
      show (t.generation j + 1) % 2 ^ 32 = _
      rw [Nat.add_mod, hmod, ← Nat.add_mod]
    · rw [Function.update_of_ne hji, if_neg (Ne.symm hji), Nat.add_zero]
      exact hg
  · show a.generation j < 2 ^ 32
    rw [hgen]
    exact h.wraps j
  -- Tickets are handed out in order, so the new one is none of the pending.
  · show (List.map Event.ticket (q.pending ++ [_])).Nodup
    rw [List.map_append, List.map_singleton, List.nodup_append]
    refine ⟨h.nodup, List.nodup_singleton _, fun x hx y hy => ?_⟩
    obtain ⟨e, he, rfl⟩ := List.mem_map.mp hx
    rw [List.mem_singleton.mp hy]
    have := h.ticket_lt he
    rw [h.issued] at this
    exact Nat.ne_of_lt this
  · show (q.pending ++ [_]).length = a.size + 1
    rw [List.length_append, h.size, hsize]
    rfl
  -- A pending event is still recorded where its handle says: no other record is written.
  · show ∃ j, _ = some (⟨j, a.generation j⟩ : GenHandle)
      ∧ Function.update a.record i (some _) j = some _
    rw [hgen, hrec]
    rcases List.mem_append.mp he with he | he
    · obtain ⟨j, hj, hrj⟩ := h.slot e he
      refine ⟨j, (hget e he).trans hj, ?_⟩
      have hji : j ≠ i := by
        intro hji
        rw [hji, hnone] at hrj
        cases hrj
      rw [Function.update_of_ne hji]
      exact hrj
    · rw [List.mem_singleton.mp he]
      refine ⟨i, hlast, ?_⟩
      rw [Function.update_self, h.seq]
  -- A record belongs to the pushed event or to one that was there.
  · have hr' : Function.update t.record i (some ⟨ts, t.nextSeq, value⟩) j = some r := by
      rw [← hrec]
      exact hr
    show ∃ e ∈ q.pending ++ [_], _ = some (⟨j, a.generation j⟩ : GenHandle)
    rw [hgen]
    by_cases hji : j = i
    · subst hji
      exact ⟨_, List.mem_append_right _ (List.mem_singleton.mpr rfl), hlast⟩
    · rw [Function.update_of_ne hji] at hr'
      obtain ⟨e, he, hj⟩ := h.event j r hr'
      exact ⟨e, List.mem_append_left _ he, (hget e he).trans hj⟩
  -- Sequence numbers stay below the counter, so the new one is none of the old.
  · show e.seq < q.nextSeq + 1
    rcases List.mem_append.mp he with he | he
    · exact Nat.lt_succ_of_lt (h.seq_lt e he)
    · rw [List.mem_singleton.mp he]
      exact Nat.lt_succ_self _
  · rcases List.mem_append.mp hx with hx | hx
    · rcases List.mem_append.mp hy with hy | hy
      · exact h.seq_inj x hx y hy hxy
      · rw [List.mem_singleton.mp hy] at hxy
        exact absurd hxy (Nat.ne_of_lt (h.seq_lt x hx))
    · rcases List.mem_append.mp hy with hy | hy
      · rw [List.mem_singleton.mp hx] at hxy
        exact absurd hxy.symm (Nat.ne_of_lt (h.seq_lt y hy))
      · rw [List.mem_singleton.mp hx, List.mem_singleton.mp hy]

/-- **A push.** -/
theorem push (h : Tickets t H q) (ts : Nat) (value : α) :
    Tickets (t.push ts value).2 (H ++ [(t.push ts value).1]) (q.push ts value) := by
  unfold SlotTable.push Queue.push
  by_cases hfull : t.full
  · rw [if_pos hfull, if_neg (h.full_iff.mp hfull)]
    exact h.push_full
  · rw [if_neg hfull, if_pos (not_not.mp fun hc => hfull (h.full_iff.mpr hc))]
    exact h.push_room hfull ts value

/-- The event of a slot leaves. -/
theorem release (h : Tickets t H q) {e : Event α} (he : e ∈ q.pending) {i : Nat}
    (hi : H[e.ticket]? = some ⟨i, t.generation i⟩) :
    Tickets (t.release i) H (q.remove e.ticket) := by
  obtain ⟨l, hl⟩ := h.free
  obtain ⟨i', hi', hr⟩ := h.slot e he
  rw [hi, Option.some_inj, GenHandle.mk.injEq] at hi'
  rw [← hi'.1] at hr
  have hpos : 0 < t.size := by
    rw [← h.size]
    exact List.length_pos_of_mem he
  have hother : ∀ j, j ≠ i → (t.release i).generation j = t.generation j
      ∧ (t.release i).record j = t.record j := fun j hj =>
    ⟨Function.update_of_ne hj _ _, Function.update_of_ne hj _ _⟩
  have hself : (t.release i).generation i = (t.generation i + 1) % 2 ^ 32
      ∧ (t.release i).record i = none := ⟨Function.update_self .., Function.update_self ..⟩
  refine
    { free := ⟨_, hl.release hr hpos⟩
      pos := h.pos
      capacity := h.capacity
      seq := h.seq
      issued := h.issued
      numbered := h.numbered
      generation := fun j hj => ?_
      wraps := fun j => ?_
      nodup := h.nodup.sublist (List.filter_sublist.map _)
      size := ?_
      slot := fun x hx => ?_
      event := fun j r hj => ?_
      seq_lt := fun x hx => h.seq_lt x (Queue.mem_remove.mp hx).1
      seq_inj := fun x hx y hy =>
        h.seq_inj x (Queue.mem_remove.mp hx).1 y (Queue.mem_remove.mp hy).1 }
  · have hg := h.generation j hj
    by_cases hji : j = i
    · subst hji
      rw [hr] at hg
      rw [hself.1, hself.2]
      simpa using hg
    · rw [(hother j hji).1, (hother j hji).2]
      exact hg
  · by_cases hji : j = i
    · rw [hji, hself.1]
      exact Nat.mod_lt _ (by decide)
    · rw [(hother j hji).1]
      exact h.wraps j
  · have hlen := Queue.length_remove h.nodup he
    show (q.remove e.ticket).pending.length = t.size - 1
    rw [← h.size]
    omega
  · obtain ⟨hxq, hxe⟩ := Queue.mem_remove.mp hx
    obtain ⟨j, hj, hrj⟩ := h.slot x hxq
    have hji : j ≠ i := by
      rintro rfl
      exact hxe (congrArg Event.ticket (h.eq_of_slot hxq he (hj.trans hi.symm)))
    refine ⟨j, ?_, ?_⟩
    · rw [(hother j hji).1]
      exact hj
    · rw [(hother j hji).2]
      exact hrj
  · have hji : j ≠ i := by
      rintro rfl
      rw [hself.2] at hj
      cases hj
    rw [(hother j hji).2] at hj
    rw [(hother j hji).1]
    obtain ⟨x, hx, hxj⟩ := h.event j r hj
    refine ⟨x, Queue.mem_remove.mpr ⟨hx, fun hxe => ?_⟩, hxj⟩
    rw [hxe, hi, Option.some_inj, GenHandle.mk.injEq] at hxj
    exact hji hxj.1.symm

/-- **A handle names an event exactly while its ticket is pending.** -/
theorem names_iff (h : Tickets t H q) (huses : ∀ i, i < t.capacity → uses H i ≤ 2 ^ 32) {n : Nat}
    {g : GenHandle} (hg : H[n]? = some g) : t.Names g ↔ q.Pending n := by
  constructor
  · rintro ⟨hcap, hlive, hgen⟩
    obtain ⟨r, hr⟩ := Option.isSome_iff_exists.mp hlive
    obtain ⟨e, he, hi⟩ := h.event g.index r hr
    refine ⟨e, he, ?_⟩
    rw [hgen] at hi
    exact h.numbered.inj hcap (huses _ hcap) hi hg
  · rintro ⟨e, he, rfl⟩
    obtain ⟨i, hi, hr⟩ := h.slot e he
    obtain ⟨l, hl⟩ := h.free
    rw [hg, Option.some_inj] at hi
    subst hi
    exact ⟨hl.lt_capacity hr, by rw [hr]; rfl, rfl⟩

/-- **A cancel.** -/
theorem cancel (h : Tickets t H q) (huses : ∀ i, i < t.capacity → uses H i ≤ 2 ^ 32) {n : Nat}
    {g : GenHandle} (hg : H[n]? = some g) :
    (t.cancel g).1 = decide (q.Pending n) ∧ Tickets (t.cancel g).2 H (q.remove n) := by
  have hiff := h.names_iff huses hg
  unfold SlotTable.cancel
  by_cases hn : t.Names g
  · rw [if_pos hn, decide_eq_true (hiff.mp hn)]
    obtain ⟨e, he, rfl⟩ := hiff.mp hn
    refine ⟨rfl, h.release he ?_⟩
    rw [hn.2.2]
    exact hg
  · have hp := fun hc => hn (hiff.mpr hc)
    rw [if_neg hn, decide_eq_false hp, Queue.remove_of_not_pending hp]
    exact ⟨rfl, h⟩

/-- **The least slot holds the least event.** -/
theorem least (h : Tickets t H q) {i : Nat} {r : SlotRecord α} (hi : t.Least i r) :
    ∃ e, TicketQueue.least q.pending = some e ∧ e.ts = r.ts ∧ e.value = r.value
      ∧ e ∈ q.pending ∧ H[e.ticket]? = some ⟨i, t.generation i⟩ := by
  obtain ⟨hr, hmin⟩ := hi
  obtain ⟨e, he, hH⟩ := h.event i r hr
  obtain ⟨j, hj, hrj⟩ := h.slot e he
  rw [hH, Option.some_inj, GenHandle.mk.injEq] at hj
  rw [← hj.1, hr, Option.some_inj] at hrj
  subst hrj
  refine ⟨e, least_eq he (fun x hx => ?_) h.seq_inj, rfl, rfl, he, hH⟩
  obtain ⟨k, _, hrk⟩ := h.slot x hx
  have := hmin k _ hrk
  unfold Event.Before
  dsimp only at this
  omega

/-- **Everything leaves at once.** -/
theorem clear (h : Tickets t H q) : Tickets t.clear H q.clear := by
  obtain ⟨l, hl⟩ := h.free
  refine
    { free := ⟨_, hl.clear h.pos⟩
      pos := h.pos
      capacity := h.capacity
      seq := rfl
      issued := h.issued
      numbered := h.numbered
      generation := fun i hi => ?_
      wraps := fun i => ?_
      nodup := List.nodup_nil
      size := rfl
      slot := fun e he => absurd he List.not_mem_nil
      event := fun i r hr => absurd hr (by simp [SlotTable.clear])
      seq_lt := fun e he => absurd he List.not_mem_nil
      seq_inj := fun e he => absurd he List.not_mem_nil }
  · show ((if t.watermark ≤ i ∧ i < t.capacity then 0
      else if (t.record i).isSome then (t.generation i + 1) % 2 ^ 32 else t.generation i) + 0)
        % 2 ^ 32 = _
    have hg := h.generation i hi
    by_cases hw : t.watermark ≤ i
    · obtain ⟨hnone, hzero⟩ := hl.fresh i hw
      rw [hnone, hzero] at hg
      rw [if_pos ⟨hw, hi⟩]
      exact hg
    · rw [if_neg (fun hc => hw hc.1)]
      by_cases hsome : (t.record i).isSome
      · rw [if_pos hsome] at hg ⊢
        rw [Nat.add_zero, Nat.mod_mod]
        exact hg
      · rw [if_neg hsome] at hg ⊢
        exact hg
  · show (if t.watermark ≤ i ∧ i < t.capacity then 0
      else if (t.record i).isSome then (t.generation i + 1) % 2 ^ 32 else t.generation i) < 2 ^ 32
    split
    · exact Nat.two_pow_pos 32
    split
    · exact Nat.mod_lt _ (Nat.two_pow_pos 32)
    · exact h.wraps i

end Tickets

end SlotTable

end Mog
