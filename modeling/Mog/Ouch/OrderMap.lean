import Mog.Ouch.OrderTable

/-!
# Is the order table a finite map?

The table is an instance of linear probing with backward-shift deletion, so that what each
operation does can be said of the orders it holds. Along a run they are those assigned and
not erased since.

A table is as large as its vector of slots may be. `std::vector` puts a bound on its size,
a parameter here: whatever it is, it is below `2 ^ 63`, since a vector spans at most
`PTRDIFF_MAX` bytes. The constructor and `grow` throw where `resize` would have to pass
it, and a run of the operations has no result then. What is left is a map for as long as
the vector holds twice what is stored, and the two bounds below are exact: the one on
capacities, and the one on runs.
-/

namespace Mog

namespace Ouch

namespace FlatOrderTable

open LinearProbe

/-! ## Construction and deletion -/

/-- `slots_.max_size()` where `max_size` counts up to `PTRDIFF_MAX` bytes: a slot has 56. -/
def maxSize : Nat := (2 ^ 63 - 1) / 56

/-- `while (pow2 < cap) pow2 <<= 1`, which need not end. -/
def capacityFrom (cap : Nat) : Nat → Nat → Option Nat
  | 0, _ => none
  | fuel + 1, pow2 =>
      if pow2 < cap then capacityFrom cap fuel (pow2 * 2 % 2 ^ 64) else some pow2

/-- The constructor returns the table: the rounding ends, and a vector of at most `maxSlots` slots
can be resized to what it has come to. -/
def Constructs (maxSlots : Nat) (cap : UInt64) (t : FlatOrderTable) : Prop :=
  ∃ fuel pow2, capacityFrom cap.toNat fuel 64 = some pow2 ∧ pow2 ≤ maxSlots
    ∧ t = { mask := pow2 - 1 }

/-- `grow`, of a vector that throws when it is resized past `maxSlots` slots. -/
def growIn (maxSlots : Nat) (t : FlatOrderTable) : Option FlatOrderTable :=
  if maxSlots < 2 * (t.mask + 1) then none else some t.grow

/-- `insert_or_assign` of such a vector. -/
def insertOrAssignIn (maxSlots : Nat) (t : FlatOrderTable) (ref : Nat) (m : OrderMeta) :
    Option FlatOrderTable :=
  if ref = 0 then some t
  else
    (if t.mask + 1 ≤ t.size * 2 then t.growIn maxSlots else some t).map fun t =>
      t.insertFrom ref m (t.mask + 1) 0

/-- The inner loop of `erase`, which has no bound of its own: the slots and where the hole is when
an empty slot is met. -/
def scanFrom (mask : Nat) : Nat → (Nat → Nat × OrderMeta) → Nat → Nat →
    Option ((Nat → Nat × OrderMeta) × Nat)
  | 0, _, _, _ => none
  | fuel + 1, slots, hole, scan =>
      let scan := (scan + 1) % (mask + 1)
      if (slots scan).1 = 0 then some (slots, hole)
      else
        let home := hash (slots scan).1 % (mask + 1)
        if (if hole < scan then hole < home ∧ home ≤ scan else hole < home ∨ home ≤ scan) then
          scanFrom mask fuel slots hole scan
        else scanFrom mask fuel (Function.update slots hole (slots scan)) scan scan

/-- The order in slot `pos` is erased. -/
def eraseAt (t : FlatOrderTable) (pos : Nat) : Option FlatOrderTable :=
  (scanFrom t.mask (t.mask + 1) t.slots pos pos).map fun x =>
    { t with
      slots := Function.update x.1 x.2 (0, (x.1 x.2).2)
      size := t.size - 1 }

/-- The loop of `erase`, from probe `i` on. -/
def eraseFrom (t : FlatOrderTable) (ref : Nat) : Nat → Nat → Option FlatOrderTable
  | 0, _ => some t
  | fuel + 1, i =>
      if (t.slots (t.probe ref i)).1 = ref then t.eraseAt (t.probe ref i)
      else if (t.slots (t.probe ref i)).1 = 0 then some t
      else t.eraseFrom ref fuel (i + 1)

def erase (t : FlatOrderTable) (ref : Nat) : Option FlatOrderTable :=
  if ref = 0 then some t else t.eraseFrom ref (t.mask + 1) 0

inductive Op where
  | insertOrAssign (ref : Nat) (m : OrderMeta)
  | erase (ref : Nat)

def onOp (maxSlots : Nat) (t : FlatOrderTable) : Op → Option FlatOrderTable
  | .insertOrAssign ref m => t.insertOrAssignIn maxSlots ref m
  | .erase ref => t.erase ref

def runOps (maxSlots : Nat) (t : FlatOrderTable) (ops : List Op) : Option FlatOrderTable :=
  ops.foldlM (onOp maxSlots) t

/-! ## The map of a run -/

def Op.ref : Op → Nat
  | insertOrAssign ref _ => ref
  | erase ref => ref

/-- What an operation does to the association of `ref`. -/
def Op.assign (ref : Nat) (a : Option OrderMeta) : Op → Option OrderMeta
  | insertOrAssign r m => if r = ref then some m else a
  | erase r => if r = ref then none else a

/-- The last metadata assigned to a reference and not erased since. -/
def lastAssigned (ops : List Op) (ref : Nat) : Option OrderMeta :=
  if ref = 0 then none else ops.foldl (Op.assign ref) none

/-- The references that have such metadata. -/
def stored (ops : List Op) : Finset Nat :=
  (ops.map Op.ref).toFinset.filter fun ref => (lastAssigned ops ref).isSome

/-- The vector holds a power of two of slots that is no smaller than the table at its smallest and
than `cap`. -/
def Holdable (maxSlots : Nat) (cap : UInt64) : Prop :=
  ∃ e, 6 ≤ e ∧ cap.toNat ≤ 2 ^ e ∧ 2 ^ e ≤ maxSlots

/-- The vector holds a power of two of slots of which the references stored are less than half. -/
def HasRoom (maxSlots : Nat) (past : List Op) : Prop :=
  ∃ e, 2 * (stored past).card < 2 ^ e ∧ 2 ^ e ≤ maxSlots

/-- Every assignment finds such room. -/
def Fits (maxSlots : Nat) (ops : List Op) : Prop :=
  ∀ past ref m, past ++ [.insertOrAssign ref m] <+: ops → ref ≠ 0 → HasRoom maxSlots past

/-! ## The table as linear probing -/

variable {t u : FlatOrderTable} {ref : Nat} {m : OrderMeta}

/-- The slots as an instance of the generic table. -/
def shape (t : FlatOrderTable) : Shape (Nat × OrderMeta) Nat where
  cap := t.mask + 1
  key := Prod.fst
  nil := 0
  home := fun ref => hash ref % (t.mask + 1)

/-- Some slot holds `m` for `ref`. -/
def Holds (t : FlatOrderTable) (ref : Nat) (m : OrderMeta) : Prop :=
  ∃ x, x < t.mask + 1 ∧ t.slots x = (ref, m)

/-- The probing invariant, with the orders counted. -/
structure Probing (t : FlatOrderTable) : Prop where
  inv : t.shape.Inv t.slots
  counted : t.size = (t.shape.keys t.slots).card

/-- An empty slot is left. -/
def Room (t : FlatOrderTable) : Prop := ∃ e, e < t.mask + 1 ∧ (t.slots e).1 = 0

theorem mem_keys : ref ∈ t.shape.keys t.slots ↔ ref ≠ 0 ∧ ∃ m, t.Holds ref m := by
  rw [Shape.mem_keys]
  constructor
  · intro ⟨x, hx, hocc, hkey⟩
    subst hkey
    exact ⟨hocc, (t.slots x).2, x, hx, rfl⟩
  · intro ⟨hne, m, x, hx, hslot⟩
    have hkey : (t.slots x).1 = ref := by rw [hslot]
    refine ⟨x, hx, ?_, hkey⟩
    show (t.slots x).1 ≠ 0
    rw [hkey]
    exact hne

theorem Probing.room (h : t.Probing) (hsize : t.size < t.mask + 1) : t.Room := by
  rw [h.counted, ← Shape.size_eq_card_keys h.inv] at hsize
  obtain ⟨e, he, hempty⟩ := Shape.exists_empty (S := t.shape) hsize
  exact ⟨e, he, not_not.mp hempty⟩

/-- An order is in one place. -/
theorem Probing.holds_inj (h : t.Probing) (hne : ref ≠ 0) {m m' : OrderMeta} (hm : t.Holds ref m)
    (hm' : t.Holds ref m') : m = m' := by
  obtain ⟨x, hx, hslot⟩ := hm
  obtain ⟨y, hy, hslot'⟩ := hm'
  have hocc : t.shape.Occ t.slots x := by
    show (t.slots x).1 ≠ 0
    rw [hslot]
    exact hne
  have hxy := h.inv.inj x y hx hy hocc (by
    show (t.slots x).1 = (t.slots y).1
    rw [hslot, hslot'])
  rw [hxy, hslot'] at hslot
  exact (congrArg Prod.snd hslot).symm

theorem probe_succ (t : FlatOrderTable) (ref i : Nat) :
    t.probe ref (i + 1) = (t.probe ref i + 1) % (t.mask + 1) := by
  unfold probe
  generalize hash ref % (t.mask + 1) = home
  rw [Nat.mod_add_mod, Nat.add_assoc]

theorem probe_lt (t : FlatOrderTable) (ref i : Nat) : t.probe ref i < t.mask + 1 :=
  Nat.mod_lt _ (Nat.succ_pos _)

theorem shape_find_succ (t : FlatOrderTable) (ref fuel i : Nat) :
    t.shape.find t.slots ref (fuel + 1) i
      = if (t.slots i).1 = 0 then i
        else if (t.slots i).1 = ref then i
        else t.shape.find t.slots ref fuel ((i + 1) % (t.mask + 1)) := rfl

theorem probe_zero (t : FlatOrderTable) (ref : Nat) : t.probe ref 0 = t.shape.home ref := by
  unfold probe shape
  rw [Nat.add_zero, Nat.mod_mod]

/-- **The three loops over probes** end where the generic search does. -/
theorem loop_eq {β : Type} {F : Nat → Nat → β} {g : Nat → β} (hroom : t.Room)
    (hstop : ∀ fuel i, t.Stops ref (t.probe ref i) → F (fuel + 1) i = g (t.probe ref i))
    (hpass : ∀ fuel i, ¬ t.Stops ref (t.probe ref i) → F (fuel + 1) i = F fuel (i + 1)) :
    F (t.mask + 1) 0 = g (t.shape.find t.slots ref (t.mask + 1) (t.shape.home ref)) := by
  obtain ⟨e, he, hempty⟩ := hroom
  have hwalk : ∀ fuel i, gap (t.mask + 1) (t.probe ref i) e < fuel →
      F fuel i = g (t.shape.find t.slots ref fuel (t.probe ref i)) := by
    intro fuel
    induction fuel with
    | zero => exact fun _ h => absurd h (Nat.not_lt_zero _)
    | succ fuel ih =>
        intro i hgap
        rw [shape_find_succ]
        by_cases hhere : t.Stops ref (t.probe ref i)
        · rw [hstop fuel i hhere]
          by_cases hzero : (t.slots (t.probe ref i)).1 = 0
          · rw [if_pos hzero]
          · have hkey : (t.slots (t.probe ref i)).1 = ref := hhere.resolve_right hzero
            rw [if_neg hzero, if_pos hkey]
        · obtain ⟨hkey, hzero⟩ := not_or.mp hhere
          rw [hpass fuel i hhere, if_neg hzero, if_neg hkey]
          -- the empty slot is one step nearer
          have hie : t.probe ref i ≠ e := fun heq => hzero (by rw [heq]; exact hempty)
          have hnear := gap_succ_left (t.probe_lt ref i) he hie
          rw [← probe_succ] at hnear
          rw [ih (i + 1) (by omega), probe_succ]
  have h := hwalk (t.mask + 1) 0 (gap_lt (t.probe_lt ref 0) he)
  rw [probe_zero] at h
  exact h

/-- Where the search for an order ends. -/
def place (t : FlatOrderTable) (ref : Nat) : Nat :=
  t.shape.find t.slots ref (t.mask + 1) (t.shape.home ref)

/-- **The search** ends at the order, or at an empty slot if the table has none. -/
theorem place_spec (h : t.Probing) (hroom : t.Room) (ref : Nat) :
    Shape.Found t.shape t.slots ref (t.place ref) := by
  obtain ⟨e, he, hempty⟩ := hroom
  exact Shape.find_spec h.inv he (not_not.mpr hempty)

theorem place_hit (h : t.Probing) (hroom : t.Room) (hne : ref ≠ 0)
    (hhit : (t.slots (t.place ref)).1 = ref) (m : OrderMeta) :
    t.Holds ref m ↔ (t.slots (t.place ref)).2 = m := by
  have hfound := place_spec h hroom ref
  have hself : t.Holds ref (t.slots (t.place ref)).2 :=
    ⟨t.place ref, hfound.lt, Prod.ext hhit rfl⟩
  constructor
  · exact fun hm => h.holds_inj hne hself hm
  · intro hm
    rw [← hm]
    exact hself

theorem place_miss (h : t.Probing) (hroom : t.Room) (hne : ref ≠ 0)
    (hmiss : (t.slots (t.place ref)).1 ≠ ref) :
    (t.slots (t.place ref)).1 = 0 ∧ ∀ m, ¬ t.Holds ref m := by
  have hfound := place_spec h hroom ref
  refine ⟨not_not.mp (hfound.stop.resolve_left hmiss), ?_⟩
  intro m ⟨x, hx, hslot⟩
  have hkey : (t.slots x).1 = ref := by rw [hslot]
  refine hfound.absent hmiss x hx ?_ hkey
  show (t.slots x).1 ≠ 0
  rw [hkey]
  exact hne

/-- **What is found** is what is held. -/
theorem find_iff (h : t.Probing) (hroom : t.Room) (hne : ref ≠ 0) (m : OrderMeta) :
    t.find ref = some m ↔ t.Holds ref m := by
  have hloop : t.find ref = if (t.slots (t.place ref)).1 = ref then some (t.slots (t.place ref)).2
      else none := by
    unfold find
    rw [if_neg hne]
    refine @loop_eq t ref _ (t.findFrom ref) (fun x => if (t.slots x).1 = ref then
      some (t.slots x).2 else none) hroom (fun fuel i hstop => ?_) fun fuel i hpass => ?_
    · rw [findFrom]
      split
      · rfl
      · rename_i hkey
        rw [if_pos (hstop.resolve_left hkey)]
    · obtain ⟨hkey, hzero⟩ := not_or.mp hpass
      rw [findFrom, if_neg hkey, if_neg hzero]
  rw [hloop]
  by_cases hhit : (t.slots (t.place ref)).1 = ref
  · rw [if_pos hhit, place_hit h hroom hne hhit, Option.some.injEq]
  · rw [if_neg hhit]
    exact ⟨fun hnone => absurd hnone.symm (Option.some_ne_none m),
      fun hm => absurd hm ((place_miss h hroom hne hhit).2 m)⟩

/-! ## Insertion -/

/-- The references that are stored. -/
def refs (t : FlatOrderTable) : Finset Nat := t.shape.keys t.slots

theorem mem_refs : ref ∈ t.refs ↔ ref ≠ 0 ∧ ∃ m, t.Holds ref m := mem_keys

/-- An order written at its place. -/
def store (t : FlatOrderTable) (ref : Nat) (m : OrderMeta) (x : Nat) : FlatOrderTable :=
  { t with
    slots := Function.update t.slots x (ref, m)
    size := if (t.slots x).1 = ref then t.size else t.size + 1 }

theorem store_self (t : FlatOrderTable) (ref : Nat) (m : OrderMeta) (x : Nat) :
    (t.store ref m x).slots x = (ref, m) := by
  unfold store
  exact Function.update_self x _ t.slots

theorem store_other (t : FlatOrderTable) (ref : Nat) (m : OrderMeta) {x y : Nat} (hyx : y ≠ x) :
    (t.store ref m x).slots y = t.slots y := by
  unfold store
  exact Function.update_of_ne hyx _ t.slots

theorem insertFrom_eq (hroom : t.Room) (ref : Nat) (m : OrderMeta) :
    t.insertFrom ref m (t.mask + 1) 0 = t.store ref m (t.place ref) := by
  have hslots : ∀ x, (fun y => if y = x then (ref, m) else t.slots y)
      = Function.update t.slots x (ref, m) := by
    intro x
    funext y
    rw [Function.update_apply]
  refine @loop_eq t ref _ (t.insertFrom ref m) (t.store ref m) hroom (fun fuel i hstop => ?_)
    fun fuel i hpass => insertFrom_pass hpass
  rw [insertFrom]
  unfold store
  rw [hslots]
  split
  · rfl
  · rename_i hkey
    rw [if_pos (hstop.resolve_left hkey)]

theorem store_holds (h : t.Probing) (hroom : t.Room) (hne : ref ≠ 0) (m : OrderMeta) {r : Nat}
    (hr : r ≠ 0) (m' : OrderMeta) : (t.store ref m (t.place ref)).Holds r m'
      ↔ if r = ref then m' = m else t.Holds r m' := by
  have hfound := place_spec h hroom ref
  -- the order is nowhere but at its place
  have helsewhere : ∀ y, y < t.mask + 1 → y ≠ t.place ref → (t.slots y).1 ≠ ref := by
    intro y hy hyx hkey
    have hocc : t.shape.Occ t.slots y := by
      show (t.slots y).1 ≠ 0
      rw [hkey]
      exact hne
    by_cases hhit : (t.slots (t.place ref)).1 = ref
    · exact hyx (h.inv.inj y _ hy hfound.lt hocc (hkey.trans hhit.symm))
    · exact hfound.absent hhit y hy hocc hkey
  by_cases href : r = ref
  · subst href
    rw [if_pos rfl]
    constructor
    · intro ⟨y, hy, hslot⟩
      by_cases hyx : y = t.place r
      · subst hyx
        rw [store_self] at hslot
        exact (congrArg Prod.snd hslot).symm
      · rw [store_other t r m hyx] at hslot
        exact absurd (by rw [hslot]) (helsewhere y hy hyx)
    · intro hm
      subst hm
      exact ⟨t.place r, hfound.lt, t.store_self r m' (t.place r)⟩
  · rw [if_neg href]
    constructor
    · intro ⟨y, hy, hslot⟩
      by_cases hyx : y = t.place ref
      · subst hyx
        rw [store_self] at hslot
        exact absurd (congrArg Prod.fst hslot).symm href
      · rw [store_other t ref m hyx] at hslot
        exact ⟨y, hy, hslot⟩
    · intro ⟨y, hy, hslot⟩
      have hyx : y ≠ t.place ref := by
        intro heq
        subst heq
        by_cases hhit : (t.slots (t.place ref)).1 = ref
        · rw [hslot] at hhit
          exact href hhit
        · have hzero := (place_miss h hroom hne hhit).1
          rw [hslot] at hzero
          exact hr hzero
      exact ⟨y, hy, (t.store_other ref m hyx).trans hslot⟩

/-- **One insertion** assigns the order and keeps the others. -/
theorem store_probing (h : t.Probing) (hroom : t.Room) (hne : ref ≠ 0) (m : OrderMeta) :
    (t.store ref m (t.place ref)).Probing
      ∧ (t.store ref m (t.place ref)).refs = insert ref t.refs := by
  have hrefs : (t.store ref m (t.place ref)).refs = insert ref t.refs := by
    ext r
    rw [Finset.mem_insert, mem_refs, mem_refs]
    by_cases hr : r = 0
    · subst hr
      constructor
      · exact fun hc => absurd rfl hc.1
      · exact fun hc => hc.elim (fun he => absurd he.symm hne) fun hc => absurd rfl hc.1
    · simp only [store_holds h hroom hne m hr]
      by_cases href : r = ref
      · subst href
        exact ⟨fun _ => Or.inl rfl, fun _ => ⟨hr, m, if_pos rfl ▸ rfl⟩⟩
      · simp only [if_neg href]
        exact ⟨Or.inr, fun hc => hc.resolve_left href⟩
  refine ⟨⟨?_, ?_⟩, hrefs⟩
  · by_cases hhit : (t.slots (t.place ref)).1 = ref
    · refine Shape.Inv.of_keys (S := t.shape) h.inv fun x => ?_
      show (Function.update t.slots (t.place ref) (ref, m) x).1 = (t.slots x).1
      by_cases hx : x = t.place ref
      · subst hx
        rw [Function.update_self, hhit]
      · rw [Function.update_of_ne hx]
    · have hzero := (place_miss h hroom hne hhit).1
      exact @Shape.insert_inv _ _ t.shape t.slots h.inv (ref, m) (t.place ref) hne
        (place_spec h hroom ref) (not_not.mpr hzero)
  · show (t.store ref m (t.place ref)).size = (t.store ref m (t.place ref)).refs.card
    rw [hrefs]
    have hcounted : t.size = t.refs.card := h.counted
    unfold store
    dsimp only
    by_cases hhit : (t.slots (t.place ref)).1 = ref
    · have hmem : ref ∈ t.refs :=
        mem_refs.mpr ⟨hne, _, (place_hit h hroom hne hhit _).mpr rfl⟩
      rw [if_pos hhit, Finset.insert_eq_of_mem hmem]
      exact hcounted
    · have hnot : ref ∉ t.refs := by
        intro hmem
        obtain ⟨-, m', hm'⟩ := mem_refs.mp hmem
        exact (place_miss h hroom hne hhit).2 m' hm'
      rw [if_neg hhit, Finset.card_insert_of_notMem hnot, hcounted]

/-! ## Growth -/

/-- A table whose slots are all empty holds nothing. -/
theorem probing_empty (hslots : ∀ x, t.slots x = (0, {})) (hsize : t.size = 0) :
    t.Probing ∧ ∀ r m, r ≠ 0 → ¬ t.Holds r m := by
  have hfree : ∀ x, (t.slots x).1 = 0 := fun x => congrArg Prod.fst (hslots x)
  have hnone : ∀ r m, r ≠ 0 → ¬ t.Holds r m := by
    rintro r m hr ⟨x, -, hslot⟩
    exact hr ((congrArg Prod.fst hslot).symm.trans (hfree x))
  have hrefs : t.refs = ∅ := by
    refine Finset.eq_empty_of_forall_notMem fun r hr => ?_
    obtain ⟨hne, m, hm⟩ := mem_refs.mp hr
    exact hnone r m hne hm
  refine ⟨⟨⟨fun k => Nat.mod_lt _ (Nat.succ_pos _), ?_, ?_⟩, ?_⟩, hnone⟩
  · intro x y _ _ hocc
    exact absurd (hfree x) hocc
  · intro x _ hocc
    exact absurd (hfree x) hocc
  · show t.size = t.refs.card
    rw [hsize, hrefs]
    rfl

/-- **A refill** up to slot `n` holds what those slots do. -/
theorem refill_holds (h : t.Probing) (n : Nat) (hn : n ≤ t.mask + 1) : (t.refill n).Probing
    ∧ ∀ r m, r ≠ 0 → ((t.refill n).Holds r m ↔ ∃ x, x < n ∧ t.slots x = (r, m)) := by
  induction n with
  | zero =>
      obtain ⟨hprobing, hnone⟩ := probing_empty (t := t.refill 0) (fun _ => rfl) rfl
      refine ⟨hprobing, fun r m hr => iff_of_false (hnone r m hr) ?_⟩
      rintro ⟨x, hx, -⟩
      exact absurd hx (Nat.not_lt_zero x)
  | succ n ih =>
      obtain ⟨hprobing, hholds⟩ := ih (by omega)
      obtain ⟨hmask, -, hsize⟩ := t.refill_spec n
      have hcard := Finset.card_filter_le (Finset.range n) fun x => (t.slots x).1 ≠ 0
      rw [Finset.card_range] at hcard
      have hroom := hprobing.room (by omega)
      rw [refill_succ]
      by_cases hzero : (t.slots n).1 = 0
      · rw [if_neg (not_not.mpr hzero)]
        refine ⟨hprobing, fun r m hr => (hholds r m hr).trans ?_⟩
        constructor
        · intro ⟨x, hx, hslot⟩
          exact ⟨x, by omega, hslot⟩
        · intro ⟨x, hx, hslot⟩
          have hxn : x ≠ n := by
            intro heq
            rw [← heq, hslot] at hzero
            exact hr hzero
          exact ⟨x, by omega, hslot⟩
      · rw [if_pos hzero, insertFrom_eq hroom]
        refine ⟨(store_probing hprobing hroom hzero _).1, fun r m hr => ?_⟩
        rw [store_holds hprobing hroom hzero _ hr]
        by_cases href : r = (t.slots n).1
        · rw [if_pos href]
          constructor
          · intro hm
            exact ⟨n, by omega, Prod.ext href.symm hm.symm⟩
          · intro ⟨x, hx, hslot⟩
            -- the old table held the order in one slot
            have hlt : n < t.mask + 1 := by omega
            have hltx : x < t.mask + 1 := by omega
            have hxn : n = x := h.inv.inj n x hlt hltx hzero (by
              show (t.slots n).1 = (t.slots x).1
              rw [hslot, href])
            rw [hxn, hslot]
        · rw [if_neg href, hholds r m hr]
          constructor
          · intro ⟨x, hx, hslot⟩
            exact ⟨x, by omega, hslot⟩
          · intro ⟨x, hx, hslot⟩
            have hxn : x ≠ n := by
              intro heq
              rw [← heq, hslot] at href
              exact href rfl
            exact ⟨x, by omega, hslot⟩

theorem grow_holds (h : t.Probing) : t.grow.Probing ∧ t.grow.mask + 1 = 2 * (t.mask + 1)
    ∧ ∀ r m, r ≠ 0 → (t.grow.Holds r m ↔ t.Holds r m) := by
  obtain ⟨hprobing, hholds⟩ := refill_holds h (t.mask + 1) (Nat.le_refl _)
  have hmask : (t.refill (t.mask + 1)).mask = 2 * (t.mask + 1) - 1 :=
    (t.refill_spec (t.mask + 1)).1
  exact ⟨hprobing, by show (t.refill (t.mask + 1)).mask + 1 = _; omega, hholds⟩

theorem grow_refs (h : t.Probing) : t.grow.refs = t.refs := by
  ext r
  rw [mem_refs, mem_refs]
  constructor
  · intro ⟨hne, m, hm⟩
    exact ⟨hne, m, ((grow_holds h).2.2 r m hne).mp hm⟩
  · intro ⟨hne, m, hm⟩
    exact ⟨hne, m, ((grow_holds h).2.2 r m hne).mpr hm⟩

/-! ## Deletion -/

theorem shape_shift_succ (t : FlatOrderTable) (slots : Nat → Nat × OrderMeta) (fuel hole scan : Nat) :
    t.shape.shift slots (fuel + 1) hole scan
      = if (slots ((scan + 1) % (t.mask + 1))).1 = 0 then (slots, hole)
        else if (if hole < (scan + 1) % (t.mask + 1) then
            hole < t.shape.home (slots ((scan + 1) % (t.mask + 1))).1
              ∧ t.shape.home (slots ((scan + 1) % (t.mask + 1))).1 ≤ (scan + 1) % (t.mask + 1)
          else hole < t.shape.home (slots ((scan + 1) % (t.mask + 1))).1
              ∨ t.shape.home (slots ((scan + 1) % (t.mask + 1))).1 ≤ (scan + 1) % (t.mask + 1)) then
          t.shape.shift slots fuel hole ((scan + 1) % (t.mask + 1))
        else t.shape.shift (Function.update slots hole (slots ((scan + 1) % (t.mask + 1)))) fuel
          ((scan + 1) % (t.mask + 1)) ((scan + 1) % (t.mask + 1)) := rfl

theorem scanFrom_succ (t : FlatOrderTable) (slots : Nat → Nat × OrderMeta) (fuel hole scan : Nat) :
    scanFrom t.mask (fuel + 1) slots hole scan
      = if (slots ((scan + 1) % (t.mask + 1))).1 = 0 then some (slots, hole)
        else if (if hole < (scan + 1) % (t.mask + 1) then
            hole < t.shape.home (slots ((scan + 1) % (t.mask + 1))).1
              ∧ t.shape.home (slots ((scan + 1) % (t.mask + 1))).1 ≤ (scan + 1) % (t.mask + 1)
          else hole < t.shape.home (slots ((scan + 1) % (t.mask + 1))).1
              ∨ t.shape.home (slots ((scan + 1) % (t.mask + 1))).1 ≤ (scan + 1) % (t.mask + 1)) then
          scanFrom t.mask fuel slots hole ((scan + 1) % (t.mask + 1))
        else scanFrom t.mask fuel (Function.update slots hole (slots ((scan + 1) % (t.mask + 1))))
          ((scan + 1) % (t.mask + 1)) ((scan + 1) % (t.mask + 1)) := rfl

/-- **The scan ends**: it meets the empty slot before it has gone round. -/
theorem scanFrom_eq {e : Nat} (he : e < t.mask + 1) (fuel : Nat) (slots : Nat → Nat × OrderMeta)
    (hole scan : Nat) (hempty : (slots e).1 = 0) (hhole : e ≠ hole) (hscan : scan < t.mask + 1)
    (hne : scan ≠ e) (hfuel : gap (t.mask + 1) scan e ≤ fuel) :
    scanFrom t.mask fuel slots hole scan = some (t.shape.shift slots fuel hole scan) := by
  induction fuel generalizing slots hole scan with
  | zero =>
      have hself := gap_self (t.mask + 1) scan
      exact absurd (gap_inj hscan hscan he (by omega)) hne
  | succ fuel ih =>
      have hnear := gap_succ_left hscan he hne
      have hlt : (scan + 1) % (t.mask + 1) < t.mask + 1 := mod_succ_lt hscan
      rw [scanFrom_succ, shape_shift_succ]
      generalize (scan + 1) % (t.mask + 1) = next at hnear hlt ⊢
      by_cases hzero : (slots next).1 = 0
      · rw [if_pos hzero, if_pos hzero]
      · have hnext : next ≠ e := fun heq => hzero (by rw [heq]; exact hempty)
        rw [if_neg hzero, if_neg hzero]
        by_cases hin : if hole < next then
            hole < t.shape.home (slots next).1 ∧ t.shape.home (slots next).1 ≤ next
          else hole < t.shape.home (slots next).1 ∨ t.shape.home (slots next).1 ≤ next
        · rw [if_pos hin, if_pos hin]
          exact ih slots hole next hempty hhole hlt hnext (by omega)
        · rw [if_neg hin, if_neg hin]
          refine ih _ next next ?_ hnext.symm hlt hnext (by omega)
          rw [Function.update_of_ne hhole]
          exact hempty

/-- **One deletion** removes the order and keeps the others. -/
theorem eraseAt_spec (h : t.Probing) (hroom : t.Room) {pos : Nat} (hpos : pos < t.mask + 1)
    (hocc : (t.slots pos).1 ≠ 0) : ∃ u, t.eraseAt pos = some u ∧ u.Probing ∧ u.mask = t.mask
      ∧ u.refs = t.refs.erase (t.slots pos).1
      ∧ ∀ r m, r ≠ 0 → (u.Holds r m ↔ r ≠ (t.slots pos).1 ∧ t.Holds r m) := by
  obtain ⟨e, he, hempty⟩ := hroom
  have hepos : e ≠ pos := fun heq => hocc (by rw [← heq]; exact hempty)
  have hscan := scanFrom_eq he (t.mask + 1) t.slots pos pos hempty hepos hpos hepos.symm
    (Nat.le_of_lt (gap_lt hpos he))
  obtain ⟨-, hinv, hmem⟩ := @Shape.shift_spec _ _ _ t.shape t.slots h.inv pos e hpos hocc he
    (not_not.mpr hempty) (0, ((t.shape.shift t.slots (t.mask + 1) pos pos).1
      (t.shape.shift t.slots (t.mask + 1) pos pos).2).2) rfl
  unfold eraseAt
  rw [hscan]
  refine ⟨_, rfl, ?_⟩
  dsimp only
  have hcap : t.shape.cap = t.mask + 1 := rfl
  rw [hcap] at hinv hmem
  generalize t.shape.shift t.slots (t.mask + 1) pos pos = x at hinv hmem ⊢
  generalize hu : ({ t with slots := Function.update x.1 x.2 (0, (x.1 x.2).2), size := t.size - 1 } :
    FlatOrderTable) = u
  have hshape : u.shape = t.shape := by rw [← hu]; rfl
  have hmask : u.mask = t.mask := by rw [← hu]
  have hslots : u.slots = Function.update x.1 x.2 (0, (x.1 x.2).2) := by rw [← hu]
  have hsize : u.size = t.size - 1 := by rw [← hu]
  rw [← hslots] at hinv hmem
  have hholds : ∀ r m, r ≠ 0 → (u.Holds r m ↔ r ≠ (t.slots pos).1 ∧ t.Holds r m) := by
    intro r m hr
    unfold Holds
    rw [hmask, hmem (r, m) hr]
    constructor
    · intro ⟨y, hy, hypos, hslot⟩
      refine ⟨fun heq => hypos ?_, y, hy, hslot⟩
      exact (h.inv.inj pos y hpos hy hocc (by
        show (t.slots pos).1 = (t.slots y).1
        rw [hslot, heq])).symm
    · intro ⟨hne, y, hy, hslot⟩
      refine ⟨y, hy, fun heq => hne ?_, hslot⟩
      rw [← heq, hslot]
  have hrefs : u.refs = t.refs.erase (t.slots pos).1 := by
    ext r
    rw [Finset.mem_erase, mem_refs, mem_refs]
    constructor
    · intro ⟨hr, m, hm⟩
      obtain ⟨hne, hm⟩ := (hholds r m hr).mp hm
      exact ⟨hne, hr, m, hm⟩
    · intro ⟨hne, hr, m, hm⟩
      exact ⟨hr, m, (hholds r m hr).mpr ⟨hne, hm⟩⟩
  refine ⟨⟨by rw [hshape]; exact hinv, ?_⟩, rfl, hrefs, hholds⟩
  show u.size = u.refs.card
  have hcounted : t.size = t.refs.card := h.counted
  have hin : (t.slots pos).1 ∈ t.refs := mem_refs.mpr ⟨hocc, _, pos, hpos, rfl⟩
  rw [hrefs, hsize, hcounted, Finset.card_erase_of_mem hin]

theorem erase_spec (h : t.Probing) (hroom : t.Room) (ref : Nat) :
    ∃ u, t.erase ref = some u ∧ u.Probing ∧ u.mask = t.mask ∧ u.size ≤ t.size
      ∧ ∀ r m, r ≠ 0 → (u.Holds r m ↔ r ≠ ref ∧ t.Holds r m) := by
  unfold erase
  by_cases hzero : ref = 0
  · subst hzero
    rw [if_pos rfl]
    exact ⟨t, rfl, h, rfl, Nat.le_refl _, fun r m hr => ⟨fun hm => ⟨hr, hm⟩, And.right⟩⟩
  have hloop : t.eraseFrom ref (t.mask + 1) 0
      = if (t.slots (t.place ref)).1 = ref then t.eraseAt (t.place ref) else some t := by
    refine @loop_eq t ref _ (t.eraseFrom ref) (fun x => if (t.slots x).1 = ref then t.eraseAt x
      else some t) hroom (fun fuel i hstop => ?_) fun fuel i hpass => ?_
    · rw [eraseFrom]
      split
      · rfl
      · rename_i hkey
        rw [if_pos (hstop.resolve_left hkey)]
    · obtain ⟨hkey, hnil⟩ := not_or.mp hpass
      rw [eraseFrom, if_neg hkey, if_neg hnil]
  rw [if_neg hzero, hloop]
  by_cases hhit : (t.slots (t.place ref)).1 = ref
  · rw [if_pos hhit]
    obtain ⟨u, hu, hprobing, hmask, hrefs, hholds⟩ :=
      eraseAt_spec h hroom (place_spec h hroom ref).lt (by rw [hhit]; exact hzero)
    rw [hhit] at hholds
    refine ⟨u, hu, hprobing, hmask, ?_, hholds⟩
    have hu : u.size = u.refs.card := hprobing.counted
    have ht : t.size = t.refs.card := h.counted
    rw [hu, ht, hrefs]
    exact Finset.card_erase_le
  · rw [if_neg hhit]
    refine ⟨t, rfl, h, rfl, Nat.le_refl _, fun r m hr => ⟨fun hm => ⟨?_, hm⟩, And.right⟩⟩
    intro heq
    subst heq
    exact (place_miss h hroom hzero hhit).2 m hm

/-! ## Runs -/

/-- **The table is the map** of the operations, half empty, and so it stays when it grows. -/
structure MapOf (t : FlatOrderTable) (ops : List Op) : Prop where
  find : ∀ ref, t.find ref = lastAssigned ops ref
  size : t.size = (stored ops).card
  half : 2 * t.used.card ≤ t.mask + 1
  meets : ∀ ref, ∃ i, i < t.mask + 1 ∧ (t.slots (t.probe ref i)).1 = 0
  grown : ∀ ref, t.grow.find ref = t.find ref

theorem mem_stored {ops : List Op} : ref ∈ stored ops ↔ (lastAssigned ops ref).isSome := by
  unfold stored
  rw [Finset.mem_filter, List.mem_toFinset]
  refine ⟨And.right, fun hsome => ⟨?_, hsome⟩⟩
  by_contra hnot
  -- a reference that no operation names has none
  have hnone : ∀ a, ops.foldl (Op.assign ref) a = a := by
    intro a
    clear hsome
    induction ops generalizing a with
    | nil => rfl
    | cons o ops ih =>
        rw [List.map_cons, List.mem_cons, not_or] at hnot
        have hother : o.assign ref a = a := by
          cases o with
          | insertOrAssign r m => exact if_neg fun heq => hnot.1 heq.symm
          | erase r => exact if_neg fun heq => hnot.1 heq.symm
        rw [List.foldl_cons, hother]
        exact ih hnot.2 a
  unfold lastAssigned at hsome
  rw [hnone] at hsome
  split at hsome
  · contradiction
  · contradiction

theorem lastAssigned_concat (ops : List Op) (o : Op) (hne : ref ≠ 0) :
    lastAssigned (ops ++ [o]) ref = o.assign ref (lastAssigned ops ref) := by
  unfold lastAssigned
  rw [if_neg hne, if_neg hne, List.foldl_append]
  rfl

/-- What holds of the table after the operations `ops`. -/
structure Follows (maxSlots : Nat) (t : FlatOrderTable) (ops : List Op) : Prop where
  probing : t.Probing
  half : 2 * t.size ≤ t.mask + 1
  slots : ∃ e, 6 ≤ e ∧ 2 ^ e ≤ maxSlots ∧ t.mask + 1 = 2 ^ e
  holds : ∀ ref m, ref ≠ 0 → (t.Holds ref m ↔ lastAssigned ops ref = some m)

variable {ops : List Op} {maxSlots : Nat}

theorem Follows.even (h : t.Follows maxSlots ops) : ∃ n, 0 < n ∧ t.mask + 1 = 2 * n := by
  obtain ⟨e, he, -, hslots⟩ := h.slots
  refine ⟨2 ^ (e - 1), Nat.two_pow_pos _, ?_⟩
  obtain ⟨d, rfl⟩ : ∃ d, e = d + 1 := ⟨e - 1, by omega⟩
  rw [hslots, Nat.pow_succ', Nat.add_sub_cancel]

theorem Follows.refs_eq (h : t.Follows maxSlots ops) : t.refs = stored ops := by
  ext ref
  rw [mem_refs, mem_stored, Option.isSome_iff_exists]
  constructor
  · intro ⟨hne, m, hm⟩
    exact ⟨m, (h.holds ref m hne).mp hm⟩
  · intro ⟨m, hm⟩
    have hne : ref ≠ 0 := by
      intro hzero
      unfold lastAssigned at hm
      rw [if_pos hzero] at hm
      contradiction
    exact ⟨hne, m, (h.holds ref m hne).mpr hm⟩

theorem Follows.size_eq (h : t.Follows maxSlots ops) : t.size = (stored ops).card := by
  rw [← h.refs_eq]
  exact h.probing.counted

/-- Growth or not, there is room for one more, and the orders are the same. -/
theorem Follows.ready (h : t.Follows maxSlots ops) :
    (HasRoom maxSlots ops → ∃ u,
        (if t.mask + 1 ≤ t.size * 2 then t.growIn maxSlots else some t) = some u)
      ∧ ∀ u, (if t.mask + 1 ≤ t.size * 2 then t.growIn maxSlots else some t) = some u →
        HasRoom maxSlots ops ∧ u.Probing ∧ 2 * (u.size + 1) ≤ u.mask + 1
          ∧ (∃ e, 6 ≤ e ∧ 2 ^ e ≤ maxSlots ∧ u.mask + 1 = 2 ^ e)
          ∧ ∀ r m, r ≠ 0 → (u.Holds r m ↔ t.Holds r m) := by
  have hsize := h.size_eq
  have hhalf := h.half
  obtain ⟨e, he, hle, hslots⟩ := h.slots
  obtain ⟨n, hn, heven⟩ := h.even
  by_cases hgrow : t.mask + 1 ≤ t.size * 2
  · rw [if_pos hgrow]
    unfold growIn
    have hdouble : 2 * (t.mask + 1) = 2 ^ (e + 1) := by rw [hslots, Nat.pow_succ']
    constructor
    · rintro ⟨d, hd, hdle⟩
      -- a larger power of two is held, so the next one is
      have hlt : e < d := by
        refine (Nat.pow_lt_pow_iff_right (by decide : 1 < 2)).mp ?_
        omega
      have hnext : 2 ^ (e + 1) ≤ 2 ^ d := Nat.pow_le_pow_right (by decide) hlt
      exact ⟨t.grow, if_neg (by omega)⟩
    · intro u hu
      by_cases hfull : maxSlots < 2 * (t.mask + 1)
      · rw [if_pos hfull] at hu
        cases hu
      · rw [if_neg hfull] at hu
        cases hu
        obtain ⟨hprobing, hmask, hholds⟩ := grow_holds h.probing
        have hcount : t.grow.size = t.grow.refs.card := hprobing.counted
        rw [grow_refs h.probing, h.refs_eq] at hcount
        refine ⟨⟨e + 1, by omega, by omega⟩, hprobing, by omega,
          ⟨e + 1, by omega, by omega, by omega⟩, hholds⟩
  · rw [if_neg hgrow]
    refine ⟨fun _ => ⟨t, rfl⟩, fun u hu => ?_⟩
    cases hu
    exact ⟨⟨e, by omega, hle⟩, h.probing, by omega, ⟨e, he, hle, hslots⟩, fun r m _ => Iff.rfl⟩

/-- **An assignment** returns when the vector has room for it, and then the table follows. -/
theorem Follows.insertOrAssign (h : t.Follows maxSlots ops) (ref : Nat) (m : OrderMeta) :
    ((ref ≠ 0 → HasRoom maxSlots ops) → ∃ u, t.insertOrAssignIn maxSlots ref m = some u)
      ∧ ∀ u, t.insertOrAssignIn maxSlots ref m = some u →
        (ref ≠ 0 → HasRoom maxSlots ops) ∧ u.Follows maxSlots (ops ++ [.insertOrAssign ref m]) := by
  unfold insertOrAssignIn
  by_cases hzero : ref = 0
  · rw [if_pos hzero]
    refine ⟨fun _ => ⟨t, rfl⟩, fun u hu => ⟨fun hne => absurd hzero hne, ?_⟩⟩
    cases hu
    refine ⟨h.probing, h.half, h.slots, fun r m' hr => ?_⟩
    rw [h.holds r m' hr, lastAssigned_concat ops _ hr]
    unfold Op.assign
    dsimp only
    rw [if_neg fun heq => hr (heq.symm.trans hzero)]
  rw [if_neg hzero]
  obtain ⟨hreturns, hready⟩ := h.ready
  generalize (if t.mask + 1 ≤ t.size * 2 then t.growIn maxSlots else some t) = r at hreturns hready
  constructor
  · intro hroom
    obtain ⟨u, rfl⟩ := hreturns (hroom hzero)
    exact ⟨_, rfl⟩
  intro v hv
  obtain ⟨u, rfl, rfl⟩ := Option.map_eq_some_iff.mp hv
  obtain ⟨hhas, hprobing, hroomy, hslots, hholds⟩ := hready u rfl
  refine ⟨fun _ => hhas, ?_⟩
  have hroom := hprobing.room (by omega)
  rw [insertFrom_eq hroom]
  have hmask : (u.store ref m (u.place ref)).mask = u.mask := rfl
  have hsize : (u.store ref m (u.place ref)).size ≤ u.size + 1 := by
    unfold store
    dsimp only
    split <;> omega
  refine ⟨(store_probing hprobing hroom hzero m).1, by omega, hslots, fun r m' hr => ?_⟩
  rw [store_holds hprobing hroom hzero m hr, lastAssigned_concat ops _ hr]
  unfold Op.assign
  dsimp only
  by_cases heq : r = ref
  · rw [if_pos heq, if_pos heq.symm, Option.some.injEq]
    exact eq_comm
  · rw [if_neg heq, if_neg fun he => heq he.symm, hholds r m' hr]
    exact h.holds r m' hr

theorem Follows.erase (h : t.Follows maxSlots ops) (ref : Nat) :
    ∃ u, t.erase ref = some u ∧ u.Follows maxSlots (ops ++ [.erase ref]) := by
  obtain ⟨n, hn, heven⟩ := h.even
  have hhalf := h.half
  obtain ⟨u, hu, hprobing, hmask, hsize, hholds⟩ :=
    erase_spec h.probing (h.probing.room (by omega)) ref
  refine ⟨u, hu, hprobing, by omega, by rw [hmask]; exact h.slots, fun r m hr => ?_⟩
  rw [hholds r m hr, h.holds r m hr, lastAssigned_concat ops _ hr]
  unfold Op.assign
  dsimp only
  by_cases heq : ref = r
  · rw [if_pos heq]
    exact ⟨fun hc => absurd heq.symm hc.1, fun hnone => absurd hnone.symm (Option.some_ne_none m)⟩
  · rw [if_neg heq]
    exact ⟨And.right, fun hc => ⟨fun he => heq he.symm, hc⟩⟩

/-- What the invariant says of the table. -/
theorem Follows.mapOf (h : t.Follows maxSlots ops) : t.MapOf ops := by
  obtain ⟨n, hn, heven⟩ := h.even
  have hhalf := h.half
  have hroom := h.probing.room (by omega)
  have hfind : ∀ u : FlatOrderTable, u.Probing → u.Room →
      (∀ r m, r ≠ 0 → (u.Holds r m ↔ t.Holds r m)) → ∀ ref, u.find ref = lastAssigned ops ref := by
    intro u hu huroom hsame ref
    by_cases hzero : ref = 0
    · subst hzero
      rfl
    · refine Option.ext fun m => ?_
      rw [find_iff hu huroom hzero, hsame ref m hzero, h.holds ref m hzero]
  have hself := hfind t h.probing hroom fun _ _ _ => Iff.rfl
  have hsize : t.size = t.refs.card := h.probing.counted
  refine ⟨hself, by rw [hsize, h.refs_eq], ?_, fun ref => ?_, fun ref => ?_⟩
  · have hused : t.used.card = t.size :=
      (Shape.size_eq_card_keys h.probing.inv).trans h.probing.counted.symm
    omega
  · obtain ⟨e, he, hempty⟩ := hroom
    obtain ⟨i, hi, hprobe⟩ := t.probe_surjective ref he
    exact ⟨i, hi, by rw [hprobe]; exact hempty⟩
  · obtain ⟨hprobing, hmask, hholds⟩ := grow_holds h.probing
    have hcount : t.grow.size = t.grow.refs.card := hprobing.counted
    rw [grow_refs h.probing, ← hsize] at hcount
    rw [hself, hfind t.grow hprobing (hprobing.room (by omega)) hholds]

/-- **A run** returns when it fits, and then its table follows the operations. -/
theorem Follows.run (h : t.Follows maxSlots ops) (rest : List Op) :
    ((∀ past ref m, past ++ [.insertOrAssign ref m] <+: rest → ref ≠ 0 →
          HasRoom maxSlots (ops ++ past)) → ∃ u, t.runOps maxSlots rest = some u)
      ∧ ∀ u, t.runOps maxSlots rest = some u →
        (∀ past ref m, past ++ [.insertOrAssign ref m] <+: rest → ref ≠ 0 →
          HasRoom maxSlots (ops ++ past)) ∧ u.Follows maxSlots (ops ++ rest) := by
  induction rest generalizing t ops with
  | nil =>
      refine ⟨fun _ => ⟨t, rfl⟩, fun u hu => ⟨fun past ref m hpre => ?_, ?_⟩⟩
      · have hlen := hpre.length_le
        rw [List.length_append] at hlen
        exact absurd hlen (Nat.not_succ_le_zero _)
      · cases hu
        rw [List.append_nil]
        exact h
  | cons o rest ih =>
      have hsplit : ∀ past, ops ++ o :: past = (ops ++ [o]) ++ past := by
        intro past
        rw [List.append_assoc]
        rfl
      -- the operation, by itself
      have hone : ((∀ ref m, o = .insertOrAssign ref m → ref ≠ 0 → HasRoom maxSlots ops) →
            ∃ u, t.onOp maxSlots o = some u)
          ∧ ∀ u, t.onOp maxSlots o = some u →
            (∀ ref m, o = .insertOrAssign ref m → ref ≠ 0 → HasRoom maxSlots ops)
              ∧ u.Follows maxSlots (ops ++ [o]) := by
        cases o with
        | insertOrAssign ref m =>
            obtain ⟨hreturns, hfollows⟩ := h.insertOrAssign ref m
            refine ⟨fun hroom => hreturns (hroom ref m rfl), fun u hu => ?_⟩
            obtain ⟨hroom, hnext⟩ := hfollows u hu
            refine ⟨fun ref' m' heq => ?_, hnext⟩
            cases heq
            exact hroom
        | erase ref =>
            obtain ⟨u, hu, hnext⟩ := h.erase ref
            refine ⟨fun _ => ⟨u, hu⟩, fun u' hu' => ⟨fun _ _ heq => Op.noConfusion heq, ?_⟩⟩
            have hsame : some u = some u' := hu.symm.trans hu'
            cases hsame
            exact hnext
      obtain ⟨hreturns, hfollows⟩ := hone
      have hcons : t.runOps maxSlots (o :: rest)
          = (t.onOp maxSlots o).bind fun u => u.runOps maxSlots rest := rfl
      rw [hcons]
      constructor
      · intro hfits
        obtain ⟨u, hu⟩ := hreturns fun ref m heq hne => by
          have hroom := hfits [] ref m (by rw [heq]; exact List.prefix_append [_] rest) hne
          rwa [List.append_nil] at hroom
        rw [hu]
        refine (ih (hfollows u hu).2).1 fun past ref m hpre hne => ?_
        rw [← hsplit]
        exact hfits (o :: past) ref m (List.prefix_cons_inj o |>.mpr hpre) hne
      · intro v hv
        obtain ⟨u, hu, hrest⟩ := Option.bind_eq_some_iff.mp hv
        obtain ⟨hroom, hnext⟩ := hfollows u hu
        obtain ⟨hlater, hend⟩ := (ih hnext).2 v hrest
        rw [hsplit]
        refine ⟨fun past ref m hpre hne => ?_, hend⟩
        cases past with
        | nil =>
            rw [List.append_nil]
            exact hroom ref m (List.cons_prefix_cons.mp hpre).1.symm hne
        | cons p past =>
            obtain ⟨rfl, htail⟩ := List.cons_prefix_cons.mp hpre
            rw [hsplit]
            exact hlater past ref m htail hne

/-! ## The constructor -/

/-- Above `2 ^ 63` the doubling wraps to zero and never ends. -/
theorem capacityFrom_never {cap : Nat} (hcap : 2 ^ 63 < cap) (fuel : Nat) :
    (∀ e ≤ 63, capacityFrom cap fuel (2 ^ e) = none) ∧ capacityFrom cap fuel 0 = none := by
  induction fuel with
  | zero => exact ⟨fun _ _ => rfl, rfl⟩
  | succ fuel ih =>
      refine ⟨fun e he => ?_, ?_⟩
      · have hle : (2 : Nat) ^ e ≤ 2 ^ 63 := Nat.pow_le_pow_right (by decide) he
        rw [capacityFrom, if_pos (by omega), ← Nat.pow_succ]
        by_cases hlast : e = 63
        · subst hlast
          exact ih.2
        · rw [Nat.mod_eq_of_lt ((Nat.pow_lt_pow_iff_right (by decide)).mpr (by omega))]
          exact ih.1 (e + 1) (by omega)
      · rw [capacityFrom, if_pos (by omega)]
        exact ih.2

theorem capacityFrom_double {cap fuel e : Nat} (he : e < 63) (hlt : 2 ^ e < cap) :
    capacityFrom cap (fuel + 1) (2 ^ e) = capacityFrom cap fuel (2 ^ (e + 1)) := by
  have hdouble : 2 ^ e * 2 % 2 ^ 64 = 2 ^ (e + 1) := by
    rw [← Nat.pow_succ]
    exact Nat.mod_eq_of_lt ((Nat.pow_lt_pow_iff_right (by decide)).mpr (by omega))
  rw [capacityFrom, if_pos hlt, hdouble]

/-- Doubling reaches a capacity of at most `2 ^ 63`, and goes no further than it must. -/
theorem capacityFrom_returns {cap : Nat} (hcap : cap ≤ 2 ^ 63) (e : Nat) (he : e ≤ 63) :
    ∃ fuel d, capacityFrom cap fuel (2 ^ e) = some (2 ^ d)
      ∧ ∀ c, e ≤ c → cap ≤ 2 ^ c → d ≤ c := by
  generalize hleft : 63 - e = left
  induction left generalizing e with
  | zero =>
      obtain rfl : e = 63 := by omega
      exact ⟨1, 63, if_neg (Nat.not_lt.mpr hcap), fun c hc _ => hc⟩
  | succ left ih =>
      by_cases hlt : 2 ^ e < cap
      · obtain ⟨fuel, d, hret, hleast⟩ := ih (e + 1) (by omega) (by omega)
        refine ⟨fuel + 1, d, (capacityFrom_double (by omega) hlt).trans hret, fun c hc hle => ?_⟩
        refine hleast c ?_ hle
        exact (Nat.pow_lt_pow_iff_right (by decide : 1 < 2)).mp (Nat.lt_of_lt_of_le hlt hle)
      · exact ⟨1, e, if_neg hlt, fun c hc _ => hc⟩

/-- What the doubling returns is a power of two, no smaller than the capacity. -/
theorem capacityFrom_sound {cap fuel e pow2 : Nat} (he : e ≤ 63)
    (hret : capacityFrom cap fuel (2 ^ e) = some pow2) :
    ∃ d, e ≤ d ∧ cap ≤ 2 ^ d ∧ pow2 = 2 ^ d := by
  by_cases hcap : 2 ^ 63 < cap
  · rw [(capacityFrom_never hcap fuel).1 e he] at hret
    cases hret
  induction fuel generalizing e with
  | zero => cases hret
  | succ fuel ih =>
      by_cases hlt : 2 ^ e < cap
      · have hlt63 : e < 63 := by
          refine (Nat.pow_lt_pow_iff_right (by decide : 1 < 2)).mp ?_
          omega
        rw [capacityFrom_double hlt63 hlt] at hret
        obtain ⟨d, hd, hle, rfl⟩ := ih (by omega) hret
        exact ⟨d, by omega, hle, rfl⟩
      · rw [capacityFrom, if_neg hlt] at hret
        cases hret
        exact ⟨e, Nat.le_refl _, by omega, rfl⟩

/-- An empty table follows no operations. -/
theorem follows_nil {e : Nat} (he : 6 ≤ e) (hle : 2 ^ e ≤ maxSlots) :
    ({ mask := 2 ^ e - 1 } : FlatOrderTable).Follows maxSlots [] := by
  have hpos : 0 < 2 ^ e := Nat.two_pow_pos e
  obtain ⟨hprobing, hnone⟩ :=
    probing_empty (t := { mask := 2 ^ e - 1 }) (fun _ => rfl) rfl
  refine ⟨hprobing, Nat.zero_le _, ⟨e, he, hle, Nat.sub_add_cancel hpos⟩, fun r m hr => ?_⟩
  refine ⟨fun hm => absurd hm (hnone r m hr), fun hm => ?_⟩
  unfold lastAssigned at hm
  rw [if_neg hr] at hm
  contradiction

/-- **A table is constructed** for the capacities that the vector can hold, and no others. -/
theorem constructs_iff (hmax : maxSlots < 2 ^ 63) (cap : UInt64) :
    (∃ t, Constructs maxSlots cap t) ↔ Holdable maxSlots cap := by
  constructor
  · rintro ⟨t, fuel, pow2, hret, hle, -⟩
    obtain ⟨d, hd, hcap, rfl⟩ := capacityFrom_sound (e := 6) (by decide) hret
    exact ⟨d, hd, hcap, hle⟩
  · rintro ⟨e, he, hcap, hle⟩
    have hsmall : cap.toNat ≤ 2 ^ 63 := by omega
    obtain ⟨fuel, d, hret, hleast⟩ := capacityFrom_returns hsmall 6 (by decide)
    have hpow : 2 ^ d ≤ 2 ^ e := Nat.pow_le_pow_right (by decide) (hleast e he hcap)
    exact ⟨_, fuel, 2 ^ d, hret, by omega, rfl⟩

theorem Constructs.follows {cap : UInt64} (h : Constructs maxSlots cap t) :
    t.Follows maxSlots [] := by
  obtain ⟨fuel, pow2, hret, hle, rfl⟩ := h
  obtain ⟨d, hd, -, rfl⟩ := capacityFrom_sound (e := 6) (by decide) hret
  exact follows_nil hd hle

/--
**The order table is a finite map**, as far as a vector can hold it.

The constructor returns a table for exactly the capacities whose rounding to a power of
two the vector holds. From each such table a sequence of assignments and deletions
returns exactly when every assignment finds the vector able to hold more than twice what
is stored, and the table is then the map of what was last assigned and not erased since.
-/
theorem order_table_is_map (hmax : maxSlots < 2 ^ 63) (cap : UInt64) :
    ((∃ t, Constructs maxSlots cap t) ↔ Holdable maxSlots cap)
      ∧ ∀ t, Constructs maxSlots cap t → ∀ ops,
        ((∃ u, t.runOps maxSlots ops = some u) ↔ Fits maxSlots ops)
          ∧ ∀ u, t.runOps maxSlots ops = some u → u.MapOf ops := by
  refine ⟨constructs_iff hmax cap, fun t ht ops => ?_⟩
  obtain ⟨hreturns, hfollows⟩ := ht.follows.run ops
  refine ⟨⟨fun ⟨u, hu⟩ => (hfollows u hu).1, hreturns⟩, fun u hu => ?_⟩
  exact (hfollows u hu).2.mapOf

/-- Short sequences fit. -/
theorem fits_of_length {e : Nat} (he : 2 ^ e ≤ maxSlots) (h : 2 * ops.length < 2 ^ e) :
    Fits maxSlots ops := by
  intro past ref m hpre _
  have hlen := hpre.length_le
  rw [List.length_append] at hlen
  have hcard : (stored past).card ≤ past.length := by
    refine Nat.le_trans (Finset.card_filter_le _ _) ?_
    refine Nat.le_trans (List.toFinset_card_le _) ?_
    rw [List.length_map]
  exact ⟨e, by omega, he⟩

/-- Assigned twice, erased and assigned again, beside another order and the reference that is none. -/
def deskOps : List Op :=
  [.insertOrAssign 100 { shares := 5 }, .insertOrAssign 7 { shares := 9 },
    .insertOrAssign 0 { shares := 1 }, .insertOrAssign 100 { shares := 6 }, .erase 100, .erase 3,
    .insertOrAssign 100 { shares := 4 }]

/-- The table of a gateway, after these operations. -/
theorem order_table_is_map_desk : ∃ t u, Constructs maxSize 2048 t
    ∧ t.runOps maxSize deskOps = some u ∧ u.MapOf deskOps ∧ (stored deskOps).card = 2 := by
  have hmap := order_table_is_map (by decide : maxSize < 2 ^ 63) 2048
  obtain ⟨t, ht⟩ := hmap.1.mpr ⟨11, by decide, by decide, by decide⟩
  obtain ⟨u, hu⟩ := (hmap.2 t ht deskOps).1.mpr (fits_of_length (e := 11) (by decide) (by decide))
  exact ⟨t, u, ht, hu, (hmap.2 t ht deskOps).2 u hu, by decide⟩

/-- **A capacity of `2 ^ 62`** is more than a vector of slots can hold. -/
theorem capacity_never_held : ¬ ∃ t, Constructs maxSize 4611686018427387904 t
    ∧ ∀ ops, ∃ u, t.runOps maxSize ops = some u ∧ u.MapOf ops := by
  rintro ⟨t, ⟨fuel, pow2, hret, hle, -⟩, -⟩
  obtain ⟨d, -, hcap, rfl⟩ := capacityFrom_sound (e := 6) (by decide) hret
  have hsmall : maxSize < 4611686018427387904 := by decide
  have hlarge : 4611686018427387904 ≤ 2 ^ d := hcap
  omega

end FlatOrderTable

end Ouch

end Mog
