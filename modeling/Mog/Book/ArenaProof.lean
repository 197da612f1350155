import Mathlib.Data.Finset.Card
import Mathlib.Order.Interval.Finset.Nat
import Mog.Book.Arena
import Mog.Lib.LinkedChain

/-!
# The arena hands out fresh slots and loses none

`Arena.Inv a fl` says that the free list of `a` is `fl` and that `fl` holds, each
once, exactly the slots below the watermark that are not live. From it come the
two facts the book relies on: `acquire` fails exactly when every slot is live,
and otherwise hands out a slot no live handle names.

The free list is a list here, read off the links from the head on, so that acquiring and
returning are `cons` and its inverse. Each of the two operations has one specification, which
says what the slot in hand becomes and that all others are as they were; the counts follow.
-/

namespace Mog

namespace Arena

variable {α : Type}

/-- The free list as a chain of `freeNext` links. -/
def FreeChain (a : Arena α) : Nat → List Nat → Prop
  | cur, [] => cur = kNullIndex
  | cur, i :: fl => cur = i ∧ FreeChain a (a.slots i).freeNext fl

/-- The arena invariant, with the free list it describes. -/
structure Inv (a : Arena α) (fl : List Nat) : Prop where
  /-- Slot indices stay clear of the null index. -/
  cap : a.capacity < kNullIndex
  mark : a.watermark ≤ a.capacity
  chain : FreeChain a a.freeHead fl
  nodup : fl.Nodup
  mem : ∀ i, i ∈ fl ↔ i < a.watermark ∧ (a.slots i).live = false
  /-- Slots at or above the watermark have never been used. -/
  fresh : ∀ i, a.watermark ≤ i → (a.slots i).live = false
  count : a.liveCount + fl.length = a.watermark

theorem inv_init [Inhabited α] {c : Nat} (hc : c < kNullIndex) : Inv (init c : Arena α) [] where
  cap := hc
  mark := Nat.zero_le _
  chain := rfl
  nodup := List.nodup_nil
  mem := by simp [init]
  fresh := by simp [init]
  count := rfl

theorem Inv.lt_watermark {a : Arena α} {fl : List Nat} (h : Inv a fl) {i : Nat}
    (hi : (a.slots i).live = true) : i < a.watermark := by
  rcases Nat.lt_or_ge i a.watermark with hlt | hge
  · exact hlt
  · rw [h.fresh i hge] at hi; exact Bool.noConfusion hi

theorem Inv.lt_capacity {a : Arena α} {fl : List Nat} (h : Inv a fl) {i : Nat}
    (hi : (a.slots i).live = true) : i < a.capacity :=
  Nat.lt_of_lt_of_le (h.lt_watermark hi) h.mark

theorem Inv.ne_null {a : Arena α} {fl : List Nat} (h : Inv a fl) {i : Nat}
    (hi : (a.slots i).live = true) : i ≠ kNullIndex := by
  have := h.lt_capacity hi
  have := h.cap
  omega

theorem Inv.liveCount_le {a : Arena α} {fl : List Nat} (h : Inv a fl) : a.liveCount ≤ a.capacity := by
  have := h.count
  have := h.mark
  omega

theorem FreeChain.congr {a a' : Arena α} {cur : Nat} {fl : List Nat} (h : FreeChain a cur fl)
    (heq : ∀ i ∈ fl, (a'.slots i).freeNext = (a.slots i).freeNext) : FreeChain a' cur fl := by
  induction fl generalizing cur with
  | nil => exact h
  | cons i fl ih =>
      obtain ⟨h1, h2⟩ := h
      refine ⟨h1, ?_⟩
      rw [heq i (by simp)]
      exact ih h2 (fun j hj => heq j (by simp [hj]))

/-- Two arenas that differ in the values of their slots only. -/
structure SameShape (a a' : Arena α) : Prop where
  capacity : a'.capacity = a.capacity
  watermark : a'.watermark = a.watermark
  liveCount : a'.liveCount = a.liveCount
  freeHead : a'.freeHead = a.freeHead
  live : ∀ i, (a'.slots i).live = (a.slots i).live
  generation : ∀ i, (a'.slots i).generation = (a.slots i).generation
  freeNext : ∀ i, (a'.slots i).freeNext = (a.slots i).freeNext

theorem SameShape.refl (a : Arena α) : SameShape a a :=
  ⟨rfl, rfl, rfl, rfl, fun _ => rfl, fun _ => rfl, fun _ => rfl⟩

theorem SameShape.trans {a a' a'' : Arena α} (h : SameShape a a') (h' : SameShape a' a'') :
    SameShape a a'' :=
  ⟨h'.capacity.trans h.capacity, h'.watermark.trans h.watermark, h'.liveCount.trans h.liveCount,
    h'.freeHead.trans h.freeHead, fun i => (h'.live i).trans (h.live i),
    fun i => (h'.generation i).trans (h.generation i),
    fun i => (h'.freeNext i).trans (h.freeNext i)⟩

theorem sameShape_modify (a : Arena α) (i : Nat) (f : α → α) : SameShape a (a.modify i f) :=
  ⟨rfl, rfl, rfl, rfl, by simp, by simp, by simp⟩

/-- Writing to values leaves the arena's own bookkeeping alone. -/
theorem Inv.congr {a a' : Arena α} {fl : List Nat} (h : Inv a fl) (hs : SameShape a a') :
    Inv a' fl where
  cap := by rw [hs.capacity]; exact h.cap
  mark := by rw [hs.capacity, hs.watermark]; exact h.mark
  chain := by rw [hs.freeHead]; exact h.chain.congr (fun j _ => hs.freeNext j)
  nodup := h.nodup
  mem := by intro j; rw [hs.watermark, hs.live]; exact h.mem j
  fresh := by intro j hj; rw [hs.live]; exact h.fresh j (by rwa [hs.watermark] at hj)
  count := by rw [hs.liveCount, hs.watermark]; exact h.count

/-- The live slots. -/
def liveSlots (a : Arena α) : Finset Nat :=
  (Finset.range a.watermark).filter (fun i => (a.slots i).live = true)

theorem Inv.mem_liveSlots {a : Arena α} {fl : List Nat} (h : Inv a fl) {i : Nat} :
    i ∈ a.liveSlots ↔ (a.slots i).live = true := by
  simp only [liveSlots, Finset.mem_filter, Finset.mem_range]
  exact ⟨fun hh => hh.2, fun hh => ⟨h.lt_watermark hh, hh⟩⟩

/-- The live count counts the live slots. -/
theorem Inv.card_liveSlots {a : Arena α} {fl : List Nat} (h : Inv a fl) :
    a.liveSlots.card = a.liveCount := by
  have hdead : (Finset.range a.watermark).filter (fun i => ¬ (a.slots i).live = true)
      = fl.toFinset := by
    ext i
    rw [List.mem_toFinset, h.mem i]
    simp
  have hsplit := Finset.card_filter_add_card_filter_not (s := Finset.range a.watermark)
    (fun i => (a.slots i).live = true)
  rw [hdead, List.toFinset_card_of_nodup h.nodup, Finset.card_range] at hsplit
  have := h.count
  unfold liveSlots
  omega

/-- What a successful `acquire` of `v` as handle `h` has done. -/
structure Acquired (a : Arena α) (v : α) (h : GenHandle) (a' : Arena α) : Prop where
  inv : ∃ fl, Inv a' fl
  fresh : (a.slots h.index).live = false
  value : a'.atIndex h.index = v
  live : (a'.slots h.index).live = true
  generation : (a'.slots h.index).generation = h.generation
  frame : ∀ j, j ≠ h.index → a'.slots j = a.slots j
  capacity : a'.capacity = a.capacity
  count : a'.liveCount = a.liveCount + 1

/-- The null handle comes back exactly when every slot is live. -/
theorem acquire_full [Inhabited α] {a : Arena α} {fl : List Nat} (h : Inv a fl)
    (hfull : a.liveCount = a.capacity) (v : α) : a.acquire v = ({}, a) := by
  have hcount := h.count
  have hmark := h.mark
  have hfl : fl = [] := List.eq_nil_of_length_eq_zero (by omega)
  have hhead : a.freeHead = kNullIndex := by have := h.chain; rwa [hfl] at this
  unfold acquire
  rw [if_pos hhead, if_pos (by omega)]

/-- **Acquiring a slot**: with a slot left, `acquire` hands out one that was not live. -/
theorem acquire_spec [Inhabited α] {a : Arena α} {fl : List Nat} (h : Inv a fl)
    (hroom : a.liveCount < a.capacity) (v : α) :
    ¬ (a.acquire v).1.isNull ∧ Acquired a v (a.acquire v).1 (a.acquire v).2 := by
  have hcount := h.count
  have hcap := h.cap
  unfold acquire
  cases fl with
  | nil =>
      -- An empty free list: the slot at the watermark has never been used.
      have hhead : a.freeHead = kNullIndex := h.chain
      have hlt : a.watermark < a.capacity := by simp only [List.length_nil] at hcount; omega
      rw [if_pos hhead, if_neg (by omega)]
      refine ⟨by simp only [GenHandle.isNull]; omega, ?_⟩
      refine
        { inv := ⟨[], ?_⟩, fresh := h.fresh _ (Nat.le_refl _), value := by simp [atIndex],
          live := by simp, generation := by simp,
          frame := fun j hj => by simp [Function.update_of_ne hj], capacity := rfl, count := rfl }
      refine
        { cap := h.cap, mark := hlt, chain := hhead, nodup := List.nodup_nil, mem := ?_,
          fresh := ?_, count := by simp only [List.length_nil] at hcount ⊢; omega }
      · intro i
        have hm := h.mem i
        simp only [List.not_mem_nil, false_iff, not_and, Bool.not_eq_false] at hm ⊢
        intro hi
        by_cases hw : i = a.watermark
        · subst hw; simp
        · rw [Function.update_of_ne hw]; exact hm (by omega)
      · intro i hi
        dsimp only at hi ⊢
        rw [Function.update_of_ne (by omega)]
        exact h.fresh i (by omega)
  | cons k fl =>
      -- The head of the free list is dead, and its link leads to the rest.
      obtain ⟨hhead, hchain⟩ := h.chain
      obtain ⟨hkfl, hnd⟩ := List.nodup_cons.mp h.nodup
      obtain ⟨hkw, hkdead⟩ := (h.mem k).mp (by simp)
      have hmark := h.mark
      have hne : a.freeHead ≠ kNullIndex := by rw [hhead]; omega
      rw [if_neg hne, hhead]
      refine ⟨by simp only [GenHandle.isNull]; omega, ?_⟩
      refine
        { inv := ⟨fl, ?_⟩, fresh := hkdead, value := by simp [atIndex], live := by simp,
          generation := by simp, frame := fun j hj => by simp [Function.update_of_ne hj],
          capacity := rfl, count := rfl }
      refine
        { cap := h.cap, mark := h.mark, chain := ?_, nodup := hnd, mem := ?_, fresh := ?_,
          count := by simp only [List.length_cons] at hcount ⊢; omega }
      · refine FreeChain.congr hchain (fun i hi => ?_)
        have hik : i ≠ k := fun he => hkfl (he ▸ hi)
        simp [Function.update_of_ne hik]
      · intro i
        have hm := h.mem i
        by_cases hik : i = k
        · subst hik; simp [hkfl]
        · simp only [List.mem_cons, hik, false_or] at hm
          simpa [Function.update_of_ne hik] using hm
      · intro i hi
        dsimp only at hi ⊢
        rw [Function.update_of_ne (by omega)]
        exact h.fresh i hi

/-- What releasing the live slot behind `h` has done. -/
structure Released (a : Arena α) (i : Nat) (a' : Arena α) : Prop where
  inv : ∃ fl, Inv a' fl
  dead : (a'.slots i).live = false
  frame : ∀ j, j ≠ i → a'.slots j = a.slots j
  capacity : a'.capacity = a.capacity
  count : a'.liveCount + 1 = a.liveCount

/-- **Releasing a slot** returns it to the head of the free list. -/
theorem release_spec {a : Arena α} {fl : List Nat} (hd : GenHandle) (h : Inv a fl)
    (hlive : (a.slots hd.index).live = true) : Released a hd.index (a.release hd) := by
  have hw := h.lt_watermark hlive
  have hnot : hd.index ∉ fl := fun hm => by
    rw [((h.mem _).mp hm).2] at hlive; exact Bool.noConfusion hlive
  have hpos : 0 < a.liveCount := by
    -- the free list misses a slot below the watermark, so it is shorter
    have hsub : (hd.index :: fl).toFinset ⊆ Finset.range a.watermark := by
      intro i hi
      rw [List.mem_toFinset] at hi
      rcases List.mem_cons.mp hi with he | hm
      · rw [he]; exact Finset.mem_range.mpr hw
      · exact Finset.mem_range.mpr ((h.mem i).mp hm).1
    have hcard := Finset.card_le_card hsub
    rw [List.toFinset_card_of_nodup (List.nodup_cons.mpr ⟨hnot, h.nodup⟩),
      Finset.card_range] at hcard
    have := h.count
    simp only [List.length_cons] at hcard
    omega
  have hcount := h.count
  unfold release
  refine
    { inv := ⟨hd.index :: fl, ?_⟩, dead := by simp,
      frame := fun j hj => by simp [Function.update_of_ne hj], capacity := rfl,
      count := by simp only; omega }
  refine
    { cap := h.cap, mark := h.mark, chain := ⟨rfl, ?_⟩, nodup := List.nodup_cons.mpr ⟨hnot, h.nodup⟩,
      mem := ?_, fresh := ?_, count := by simp only [List.length_cons]; omega }
  · simp only [Function.update_self]
    refine FreeChain.congr h.chain (fun i hi => ?_)
    have hne : i ≠ hd.index := fun he => hnot (he ▸ hi)
    simp [Function.update_of_ne hne]
  · intro i
    by_cases he : i = hd.index
    · subst he; simp [hw]
    · have hm := h.mem i
      simpa [he, Function.update_of_ne he] using hm
  · intro i hi
    by_cases he : i = hd.index
    · subst he; simp
    · simpa [Function.update_of_ne he] using h.fresh i hi

/-! ## The free list, read off the arena -/

/-- The slots on the free list, walked from its head. -/
def freeSlots (a : Arena α) : List Nat :=
  LinkedChain.walk (fun i => (a.slots i).freeNext) kNullIndex a.capacity a.freeHead

/-- The walk reads off exactly the list of the invariant. -/
theorem Inv.freeSlots_eq {a : Arena α} {fl : List Nat} (h : Inv a fl) : a.freeSlots = fl := by
  have walk : ∀ (l : List Nat) (cur fuel : Nat), FreeChain a cur l → kNullIndex ∉ l →
      l.length ≤ fuel →
      LinkedChain.walk (fun i => (a.slots i).freeNext) kNullIndex fuel cur = l := by
    intro l
    induction l with
    | nil =>
        intro cur fuel hc _ _
        have hcur : cur = kNullIndex := hc
        cases fuel with
        | zero => rfl
        | succ fuel => rw [LinkedChain.walk, if_pos hcur]
    | cons i l ih =>
        intro cur fuel hc hne hfuel
        obtain ⟨h1, h2⟩ := hc
        subst h1
        cases fuel with
        | zero => simp at hfuel
        | succ fuel =>
            rw [LinkedChain.walk, if_neg (fun he => hne (by simp [he])),
              ih _ fuel h2 (fun hm => hne (by simp [hm])) (by simpa using hfuel)]
  have hcount := h.count
  have hmark := h.mark
  have hcap := h.cap
  refine walk fl a.freeHead a.capacity h.chain (fun hm => ?_) (by omega)
  have := ((h.mem _).mp hm).1
  omega

end Arena

end Mog
