import Mog.Lib.LinearProbe
import Mog.Lib.QueueSum
import Mog.Sim.Tracker

/-!
# The tracker table keeps its lists

`LinkInv t L` says that `L s x` is the list of entry `x` on side `s`:

1. its links run through `L s x` and its count is the length,
2. its members are the linked trackers of its own side and price,
3. only live trackers are linked, and a live one that is not sits at a level the
   full table has no entry for,
4. the entries are found by the probe from their price's hash.

What the rest of the simulator sees of the table is less: each slot's `view`, which
levels have an entry, and which trackers the event under way has synced.
-/

namespace Mog

open LinkedChain LinearProbe QueueSum

/-- What a live tracker records of its order. -/
structure TrackView where
  ref : Nat
  priceTicks : Int
  qtyRemaining : Int
  qtyAhead : Int
  side : Side
deriving DecidableEq

def Tracked.view (o : Tracked) : TrackView :=
  { ref := o.ref, priceTicks := o.priceTicks, qtyRemaining := o.qtyRemaining
    qtyAhead := o.qtyAhead, side := o.side }

/-- The level table as an instance of the generic one. -/
def levelShape : Shape TrackLevel (Option Int) where
  cap := kLevelMapSize
  key e := if e.occupied then some e.price else none
  nil := none
  home k := levelHash (k.getD 0)

theorem levelMask (i : Nat) : i &&& (kLevelMapSize - 1) = i % kLevelMapSize :=
  Nat.and_two_pow_sub_one_eq_mod i 12

theorem levelHash_lt (price : Int) : levelHash price < kLevelMapSize := by
  unfold levelHash
  dsimp only
  rw [levelMask]
  exact Nat.mod_lt _ (by decide)

/-- Cell `x` is the entry of a price. -/
def IsEntry (m : Nat → TrackLevel) (price : Int) (x : Nat) : Prop :=
  x < kLevelMapSize ∧ (m x).occupied = true ∧ (m x).price = price

theorem occ_iff_occupied (m : Nat → TrackLevel) (x : Nat) :
    levelShape.Occ m x ↔ (m x).occupied = true := by
  unfold Shape.Occ levelShape
  cases h : (m x).occupied <;> simp [h]

theorem key_of_occupied {m : Nat → TrackLevel} {x : Nat} (h : (m x).occupied = true) :
    levelShape.key (m x) = some (m x).price := by simp [levelShape, h]

/-- No two cells are the entry of one price. -/
theorem IsEntry.unique {m : Nat → TrackLevel} (hm : levelShape.Inv m) {price : Int} {x y : Nat}
    (hx : IsEntry m price x) (hy : IsEntry m price y) : x = y := by
  refine hm.inj x y hx.1 hy.1 ((occ_iff_occupied m x).mpr hx.2.1) ?_
  rw [key_of_occupied hx.2.1, key_of_occupied hy.2.1, hx.2.2, hy.2.2]

/-- The cells before an entry, from its price's hash on, are occupied. -/
theorem IsEntry.path {m : Nat → TrackLevel} (hm : levelShape.Inv m) {price : Int} {x : Nat}
    (hx : IsEntry m price x) {n : Nat}
    (hn : n < gap kLevelMapSize (levelHash price) x) :
    (m ((levelHash price + n) % kLevelMapSize)).occupied = true := by
  have hh := levelHash_lt price
  have hlt := gap_lt hh hx.1
  have hkey : levelShape.home (levelShape.key (m x)) = levelHash price := by
    rw [key_of_occupied hx.2.1, hx.2.2]; rfl
  refine (occ_iff_occupied m _).mp
    (hm.path x hx.1 ((occ_iff_occupied m x).mpr hx.2.1) _ (Nat.mod_lt _ (by decide)) ?_)
  rw [hkey]
  show gap kLevelMapSize _ _ < gap kLevelMapSize _ _
  rw [gap_steps hh (by omega)]
  exact hn

/-- The first `n` cells from the price's hash on do not hold the price. -/
def Passed (m : Nat → TrackLevel) (price : Int) (n : Nat) : Prop :=
  ∀ j, j < n → ¬ IsEntry m price ((levelHash price + j) % kLevelMapSize)

theorem Passed.succ {m : Nat → TrackLevel} {price : Int} {n : Nat} (h : Passed m price n)
    (hn : ¬ IsEntry m price ((levelHash price + n) % kLevelMapSize)) : Passed m price (n + 1) := by
  intro j hj
  by_cases hjn : j = n
  · rw [hjn]; exact hn
  · exact h j (by omega)

/-- A pass over the whole table has met every entry. -/
theorem Passed.all {m : Nat → TrackLevel} {price : Int} (h : Passed m price kLevelMapSize) (x : Nat) :
    ¬ IsEntry m price x := by
  intro hx
  have hh := levelHash_lt price
  have := h _ (gap_lt hh hx.1)
  rw [steps_gap hh hx.1] at this
  exact this hx

/-- A pass that meets an empty cell has met every entry of the price. -/
theorem Passed.empty {m : Nat → TrackLevel} (hm : levelShape.Inv m) {price : Int} {n : Nat}
    (h : Passed m price n) (hempty : (m ((levelHash price + n) % kLevelMapSize)).occupied = false)
    (x : Nat) : ¬ IsEntry m price x := by
  intro hx
  have hh := levelHash_lt price
  rcases Nat.lt_or_ge (gap kLevelMapSize (levelHash price) x) n with hlt | hge
  · have := h _ hlt
    rw [steps_gap hh hx.1] at this
    exact this hx
  · rcases Nat.eq_or_lt_of_le hge with heq | hgt
    · rw [heq, steps_gap hh hx.1, hx.2.1] at hempty
      exact Bool.noConfusion hempty
    · rw [hx.path hm hgt] at hempty
      exact Bool.noConfusion hempty

theorem levelFindFrom_spec {m : Nat → TrackLevel} (hm : levelShape.Inv m) (price : Int) :
    ∀ fuel n, n + fuel = kLevelMapSize → Passed m price n →
      match levelFindFrom m (levelHash price) price fuel n with
      | some x => IsEntry m price x
      | none => ∀ x, ¬ IsEntry m price x := by
  intro fuel
  induction fuel with
  | zero =>
      intro n hn hp
      rw [show n = kLevelMapSize by omega] at hp
      exact hp.all
  | succ fuel ih =>
      intro n hn hp
      rw [levelFindFrom, levelMask]
      by_cases hocc : (m ((levelHash price + n) % kLevelMapSize)).occupied = false
      · rw [if_pos hocc]
        exact hp.empty hm hocc
      · rw [if_neg hocc]
        by_cases hpr : (m ((levelHash price + n) % kLevelMapSize)).price = price
        · rw [if_pos hpr]
          exact ⟨Nat.mod_lt _ (by decide), by simpa using hocc, hpr⟩
        · rw [if_neg hpr]
          exact ih (n + 1) (by omega) (hp.succ (fun he => hpr he.2.2))

/-- What the scan of `level_get` returns. -/
inductive Scanned (m : Nat → TrackLevel) (price : Int) : Option Nat × Option Nat → Prop where
  | found (x : Nat) (e : Option Nat) (h : IsEntry m price x) : Scanned m price (some x, e)
  | fresh (x : Nat) (hx : x < kLevelMapSize) (hempty : (m x).occupied = false)
      (hfirst : ∀ y, y < kLevelMapSize →
        gap kLevelMapSize (levelHash price) y < gap kLevelMapSize (levelHash price) x →
        (m y).occupied = true)
      (habs : ∀ y, ¬ IsEntry m price y) : Scanned m price (none, some x)
  | full (hfull : ∀ y, y < kLevelMapSize → (m y).occupied = true)
      (habs : ∀ y, ¬ IsEntry m price y) : Scanned m price (none, none)

/-- The first empty cell among the first `n` from the price's hash on. -/
def FirstEmpty (m : Nat → TrackLevel) (price : Int) (n : Nat) : Option Nat → Prop
  | none => ∀ j, j < n → (m ((levelHash price + j) % kLevelMapSize)).occupied = true
  | some x => x < kLevelMapSize ∧ (m x).occupied = false
      ∧ ∀ y, y < kLevelMapSize →
        gap kLevelMapSize (levelHash price) y < gap kLevelMapSize (levelHash price) x →
        (m y).occupied = true

theorem levelScan_spec (m : Nat → TrackLevel) (price : Int) :
    ∀ fuel n e, n + fuel = kLevelMapSize → Passed m price n → FirstEmpty m price n e →
      Scanned m price (levelScan m (levelHash price) price fuel n e) := by
  have hh := levelHash_lt price
  intro fuel
  induction fuel with
  | zero =>
      intro n e hn hp he
      rw [show n = kLevelMapSize by omega] at hp he
      cases e with
      | none =>
          refine .full (fun y hy => ?_) hp.all
          have := he _ (gap_lt hh hy)
          rwa [steps_gap hh hy] at this
      | some x => exact .fresh x he.1 he.2.1 he.2.2 hp.all
  | succ fuel ih =>
      intro n e hn hp he
      unfold levelScan
      dsimp only
      rw [levelMask]
      by_cases hocc : (m ((levelHash price + n) % kLevelMapSize)).occupied = true
      · rw [if_pos hocc]
        by_cases hpr : (m ((levelHash price + n) % kLevelMapSize)).price = price
        · rw [if_pos hpr]
          exact .found _ _ ⟨Nat.mod_lt _ (by decide), hocc, hpr⟩
        · rw [if_neg hpr]
          refine ih (n + 1) e (by omega) (hp.succ (fun hx => hpr hx.2.2)) ?_
          cases e with
          | none =>
              intro j hj
              by_cases hjn : j = n
              · rw [hjn]; exact hocc
              · exact he j (by omega)
          | some x => exact he
      · rw [if_neg hocc]
        have hpass := hp.succ (fun hx => hocc hx.2.1)
        cases e with
        | some x => exact ih (n + 1) (some x) (by omega) hpass he
        | none =>
            refine ih (n + 1) (some _) (by omega) hpass ?_
            refine ⟨Nat.mod_lt _ (by decide), by simpa using hocc, fun y hy hlt => ?_⟩
            rw [gap_steps hh (by omega)] at hlt
            have := he _ hlt
            rwa [steps_gap hh hy] at this

namespace TrackTable

/-! ## The invariant -/

/-- The level of a side and price has an entry. -/
def HasEntry (t : TrackTable) (s : Side) (price : Int) : Prop :=
  ∃ x, IsEntry (t.levelMaps s) price x

/-- The tracker lists, with what each entry's list is. -/
structure LinkInv (t : TrackTable) (L : Side → Nat → List Nat) : Prop where
  dead : ∀ i, (t.tracked i).live = false → (t.tracked i).levelLinked = false
  bound : ∀ i, (t.tracked i).live = true → i < t.size ∧ i ≠ kNullIndex
  probing : ∀ s, levelShape.Inv (t.levelMaps s)
  chain : ∀ s x, x < kLevelMapSize →
    Chain (fun i => (t.tracked i).levelNext) (fun i => (t.tracked i).levelPrev) kNullIndex
      (t.levelMaps s x).head ((L s x).getLastD kNullIndex) (L s x)
  count : ∀ s x, x < kLevelMapSize → (t.levelMaps s x).count = (L s x).length
  mem : ∀ s x i, x < kLevelMapSize → (i ∈ L s x ↔ (t.tracked i).levelLinked = true
    ∧ (t.tracked i).side = s ∧ IsEntry (t.levelMaps s) (t.tracked i).priceTicks x)
  placed : ∀ i, (t.tracked i).live = true →
    ((t.tracked i).levelLinked = true ↔ t.HasEntry (t.tracked i).side (t.tracked i).priceTicks)
  degraded : ∀ i, (t.tracked i).live = true →
    ¬ t.HasEntry (t.tracked i).side (t.tracked i).priceTicks →
    t.isFallbackLevel (t.tracked i).side (t.tracked i).priceTicks
  fallback : ∀ s p, t.isFallbackLevel s p →
    (∀ x, x < kLevelMapSize → (t.levelMaps s x).occupied = true) ∧ ¬ t.HasEntry s p

/-- The tracker table's invariant. -/
def TrackInv (t : TrackTable) : Prop := ∃ L, t.LinkInv L

/-- What slot `i`'s tracker records, when it is live. -/
def at? (t : TrackTable) (i : Nat) : Option TrackView :=
  if (t.tracked i).live then some (t.tracked i).view else none

variable {t t' : TrackTable} {L : Side → Nat → List Nat}

theorem at?_live {i : Nat} (h : (t.tracked i).live = true) : t.at? i = some (t.tracked i).view := by
  rw [at?, if_pos h]

theorem at?_dead {i : Nat} (h : (t.tracked i).live = false) : t.at? i = none := by
  rw [at?, if_neg (by simp [h])]

theorem at?_eq_none {i : Nat} : t.at? i = none ↔ (t.tracked i).live = false := by
  unfold at?
  cases (t.tracked i).live <;> simp

theorem at?_eq_some {i : Nat} {v : TrackView} :
    t.at? i = some v ↔ (t.tracked i).live = true ∧ (t.tracked i).view = v := by
  unfold at?
  cases (t.tracked i).live <;> simp

namespace LinkInv

theorem live_of_linked (h : t.LinkInv L) {i : Nat} (hl : (t.tracked i).levelLinked = true) :
    (t.tracked i).live = true := by
  cases hv : (t.tracked i).live with
  | true => rfl
  | false => rw [h.dead i hv] at hl; exact Bool.noConfusion hl

/-- The members of a list are live trackers of its level. -/
theorem mem_iff (h : t.LinkInv L) {s : Side} {p : Int} {x : Nat} (hx : IsEntry (t.levelMaps s) p x)
    (i : Nat) :
    i ∈ L s x ↔ (t.tracked i).live = true ∧ (t.tracked i).side = s
      ∧ (t.tracked i).priceTicks = p := by
  rw [h.mem s x i hx.1]
  constructor
  · rintro ⟨h1, h2, h3⟩
    exact ⟨h.live_of_linked h1, h2, by rw [← h3.2.2, hx.2.2]⟩
  · rintro ⟨h1, rfl, rfl⟩
    exact ⟨(h.placed i h1).mpr ⟨x, hx⟩, rfl, hx⟩

/-- Two lists with a member in common are one list. -/
theorem mem_unique (h : t.LinkInv L) {s s' : Side} {x x' i : Nat} (hx : x < kLevelMapSize)
    (hx' : x' < kLevelMapSize) (hi : i ∈ L s x) (hi' : i ∈ L s' x') : s' = s ∧ x' = x := by
  obtain ⟨_, h1, h2⟩ := (h.mem s x i hx).mp hi
  obtain ⟨_, h3, h4⟩ := (h.mem s' x' i hx').mp hi'
  have hs : s' = s := h3.symm.trans h1
  subst hs
  exact ⟨rfl, h4.unique (h.probing s') h2⟩

/-- The members of the lists are live. -/
theorem live_of_mem (h : t.LinkInv L) {s : Side} {x i : Nat} (hx : x < kLevelMapSize)
    (hi : i ∈ L s x) : (t.tracked i).live = true :=
  h.live_of_linked ((h.mem s x i hx).mp hi).1

theorem not_mem_of_dead (h : t.LinkInv L) {s : Side} {x i : Nat}
    (hdead : (t.tracked i).live = false) (hx : x < kLevelMapSize) : i ∉ L s x := by
  intro hi
  rw [h.live_of_mem hx hi] at hdead
  exact Bool.noConfusion hdead

/-- The head of one list is in no other. -/
theorem ne_head (h : t.LinkInv L) {s s' : Side} {x x' i : Nat} (hx : x < kLevelMapSize)
    (hx' : x' < kLevelMapSize) (hother : ¬ (s' = s ∧ x' = x)) (hi : i ∈ L s' x') :
    i ≠ (t.levelMaps s x).head := by
  intro he
  have hchain := h.chain s x hx
  cases hl : L s x with
  | nil =>
      have hnull := hchain.head_eq_null.mpr hl
      exact (h.chain s' x' hx').ne_null (by rw [← hnull, ← he]; exact hi)
  | cons a l =>
      rw [hl] at hchain
      have hmem : i ∈ L s x := by rw [hl, he, hchain.head_cons]; simp
      exact hother (h.mem_unique hx hx' hmem hi)

/-- **`level_find` is exact.** -/
theorem levelFind_eq_some (h : t.LinkInv L) {s : Side} {p : Int} {x : Nat} :
    t.levelFind s p = some x ↔ IsEntry (t.levelMaps s) p x := by
  have hs := levelFindFrom_spec (h.probing s) p kLevelMapSize 0 (by rw [Nat.zero_add])
    (fun j hj => absurd hj (Nat.not_lt_zero j))
  unfold levelFind
  cases hf : levelFindFrom (t.levelMaps s) (levelHash p) p kLevelMapSize 0 with
  | none =>
      rw [hf] at hs
      exact ⟨fun he => absurd he (by simp), fun he => absurd he (hs x)⟩
  | some y =>
      rw [hf] at hs
      exact ⟨fun he => by rw [← Option.some.inj he]; exact hs,
        fun he => by rw [he.unique (h.probing s) hs]⟩

theorem levelFind_eq_none (h : t.LinkInv L) {s : Side} {p : Int} :
    t.levelFind s p = none ↔ ¬ t.HasEntry s p := by
  constructor
  · rintro hf ⟨x, hx⟩
    rw [h.levelFind_eq_some.mpr hx] at hf
    exact absurd hf (by simp)
  · intro hn
    cases hf : t.levelFind s p with
    | none => rfl
    | some x => exact absurd ⟨x, h.levelFind_eq_some.mp hf⟩ hn

/-- Trackers that keep their links, level and life keep the lists. -/
theorem congr (h : t.LinkInv L) (hsize : t'.size = t.size) (hmaps : t'.levelMaps = t.levelMaps)
    (hfall : t'.fallbackLevels = t.fallbackLevels)
    (ht : ∀ i, (t'.tracked i).live = (t.tracked i).live
      ∧ (t'.tracked i).levelLinked = (t.tracked i).levelLinked
      ∧ (t'.tracked i).side = (t.tracked i).side
      ∧ (t'.tracked i).priceTicks = (t.tracked i).priceTicks
      ∧ (t'.tracked i).levelNext = (t.tracked i).levelNext
      ∧ (t'.tracked i).levelPrev = (t.tracked i).levelPrev) : t'.LinkInv L where
  dead i hi := by rw [(ht i).2.1]; exact h.dead i ((ht i).1 ▸ hi)
  bound i hi := by rw [hsize]; exact h.bound i ((ht i).1 ▸ hi)
  probing s := by rw [hmaps]; exact h.probing s
  chain s x hx := by
    rw [hmaps]
    exact (h.chain s x hx).congr (fun i _ => (ht i).2.2.2.2.1) (fun i _ => (ht i).2.2.2.2.2)
  count s x hx := by rw [hmaps]; exact h.count s x hx
  mem s x i hx := by
    rw [(ht i).2.1, (ht i).2.2.1, (ht i).2.2.2.1, hmaps]; exact h.mem s x i hx
  placed i hi := by
    rw [HasEntry, (ht i).2.1, (ht i).2.2.1, (ht i).2.2.2.1, hmaps]
    exact h.placed i ((ht i).1 ▸ hi)
  degraded i hi hn := by
    rw [HasEntry, (ht i).2.2.1, (ht i).2.2.2.1, hmaps] at hn
    rw [isFallbackLevel, (ht i).2.2.1, (ht i).2.2.2.1, hfall]
    exact h.degraded i ((ht i).1 ▸ hi) hn
  fallback s p hp := by
    rw [isFallbackLevel, hfall] at hp
    rw [HasEntry, hmaps]
    exact h.fallback s p hp

end LinkInv

/-- What the operations on trackers leave alone. -/
structure SameLevels (t t' : TrackTable) : Prop where
  size : t'.size = t.size
  recentSync : t'.recentSync = t.recentSync
  fallbackLevels : t'.fallbackLevels = t.fallbackLevels
  entry : ∀ s p, t'.HasEntry s p ↔ t.HasEntry s p

theorem SameLevels.refl (t : TrackTable) : SameLevels t t := ⟨rfl, rfl, rfl, fun _ _ => Iff.rfl⟩

theorem SameLevels.trans {t'' : TrackTable} (h : SameLevels t t') (h' : SameLevels t' t'') :
    SameLevels t t'' :=
  ⟨h'.size.trans h.size, h'.recentSync.trans h.recentSync, h'.fallbackLevels.trans h.fallbackLevels,
    fun s p => (h'.entry s p).trans (h.entry s p)⟩

/-! ## Retiring a tracker -/

theorem modify_tracked (t : TrackTable) (i : Nat) (f : Tracked → Tracked) (j : Nat) :
    (t.modify i f).tracked j = if j = i then f (t.tracked i) else t.tracked j := by
  simp only [modify, Function.update_apply]

theorem setLevel_levelMaps (t : TrackTable) (s : Side) (x : Nat) (e : TrackLevel) (s' : Side)
    (y : Nat) : (t.setLevel s x e).levelMaps s' y = if s' = s ∧ y = x then e else t.levelMaps s' y := by
  unfold setLevel
  dsimp only
  by_cases hs : s' = s
  · subst hs
    rw [if_pos rfl, Function.update_apply]
    simp
  · rw [if_neg hs, if_neg (fun h => hs h.1)]

@[simp] theorem modify_levelMaps (t : TrackTable) (i : Nat) (f : Tracked → Tracked) :
    (t.modify i f).levelMaps = t.levelMaps := rfl

@[simp] theorem setLevel_tracked (t : TrackTable) (s : Side) (x : Nat) (e : TrackLevel) :
    (t.setLevel s x e).tracked = t.tracked := rfl

/-- A tracker after `unlinkAt` has bridged the gap left by `o`. -/
def bridged (o : Tracked) (j : Nat) (v : Tracked) : Tracked :=
  { v with
    levelNext := if o.levelPrev ≠ kNullIndex ∧ j = o.levelPrev then o.levelNext else v.levelNext
    levelPrev := if o.levelNext ≠ kNullIndex ∧ j = o.levelNext then o.levelPrev else v.levelPrev }

theorem unlinkAt_tracked (t : TrackTable) (idx x j : Nat) :
    (t.unlinkAt idx x).tracked j = bridged (t.tracked idx) j (t.tracked j) := by
  unfold unlinkAt bridged
  dsimp only
  by_cases hp : (t.tracked idx).levelPrev = kNullIndex <;>
    by_cases hn : (t.tracked idx).levelNext = kNullIndex <;>
    simp only [hp, hn, ne_eq, not_true_eq_false, not_false_eq_true, if_true, if_false, true_and,
      false_and] <;>
    split <;> simp only [setLevel_tracked, modify_tracked] <;> split_ifs <;> simp_all

theorem eq_of_count_zero {e : TrackLevel} (h : e.count = 0) :
    e = { price := e.price, head := e.head, occupied := e.occupied } := by
  cases e; simp_all

theorem unlinkAt_levelMaps (t : TrackTable) (idx x : Nat) (s : Side) (y : Nat) :
    (t.unlinkAt idx x).levelMaps s y
      = if s = (t.tracked idx).side ∧ y = x then
          { t.levelMaps s y with
            head := if (t.tracked idx).levelPrev = kNullIndex then (t.tracked idx).levelNext
              else (t.levelMaps s y).head
            count := (t.levelMaps s y).count - 1 }
        else t.levelMaps s y := by
  unfold unlinkAt
  dsimp only
  by_cases hp : (t.tracked idx).levelPrev = kNullIndex <;>
    by_cases hn : (t.tracked idx).levelNext = kNullIndex <;>
    simp only [hp, hn, ne_eq, not_true_eq_false, not_false_eq_true, if_true, if_false] <;>
    split <;> simp only [setLevel_levelMaps, modify_levelMaps] at * <;> split_ifs <;> simp_all
  all_goals exact eq_of_count_zero ‹_›

/-- What retiring the tracker of slot `idx` does. -/
structure Retired (t t' : TrackTable) (idx : Nat) : Prop where
  inv : t'.TrackInv
  at_other : ∀ j, j ≠ idx → t'.at? j = t.at? j
  at_self : t'.at? idx = none
  view : (t'.tracked idx).view = (t.tracked idx).view
  same : SameLevels t t'

/-- Losing the unlinked tracker of `idx` keeps the lists. -/
theorem LinkInv.drop (h : t.LinkInv L) {idx : Nat} (hun : (t.tracked idx).levelLinked = false) :
    (t.modify idx (fun o => { o with live := false })).LinkInv L := by
  have hne : ∀ s x i, x < kLevelMapSize → i ∈ L s x → i ≠ idx := by
    intro s x i hx hi he
    rw [he] at hi
    rw [((h.mem s x idx hx).mp hi).1] at hun
    exact Bool.noConfusion hun
  refine
    { dead := ?_, bound := ?_, probing := h.probing, chain := ?_, count := h.count, mem := ?_,
      placed := ?_, degraded := ?_, fallback := h.fallback }
  · intro i hi
    rw [modify_tracked] at hi ⊢
    by_cases hii : i = idx
    · rw [if_pos hii]; exact hun
    · rw [if_neg hii] at hi ⊢; exact h.dead i hi
  · intro i hi
    rw [modify_tracked] at hi
    by_cases hii : i = idx
    · rw [if_pos hii] at hi; exact Bool.noConfusion hi
    · rw [if_neg hii] at hi; exact h.bound i hi
  · intro s x hx
    refine (h.chain s x hx).congr (fun i hi => ?_) (fun i hi => ?_)
    all_goals rw [modify_tracked, if_neg (hne s x i hx hi)]
  · intro s x i hx
    rw [modify_tracked]
    by_cases hii : i = idx
    · rw [if_pos hii, hii]; exact h.mem s x idx hx
    · rw [if_neg hii]; exact h.mem s x i hx
  · intro i hi
    rw [modify_tracked] at hi ⊢
    by_cases hii : i = idx
    · rw [if_pos hii] at hi; exact Bool.noConfusion hi
    · rw [if_neg hii] at hi ⊢; exact h.placed i hi
  · intro i hi hn
    rw [modify_tracked] at hi hn ⊢
    by_cases hii : i = idx
    · rw [if_pos hii] at hi; exact Bool.noConfusion hi
    · rw [if_neg hii] at hi hn ⊢; exact h.degraded i hi hn

theorem isEntry_congr {m m' : Nat → TrackLevel}
    (h : ∀ x, (m' x).occupied = (m x).occupied ∧ (m' x).price = (m x).price) (p : Int) (x : Nat) :
    IsEntry m' p x ↔ IsEntry m p x := by
  rw [IsEntry, IsEntry, (h x).1, (h x).2]

theorem levelShape_congr {m m' : Nat → TrackLevel} (hm : levelShape.Inv m)
    (h : ∀ x, (m' x).occupied = (m x).occupied ∧ (m' x).price = (m x).price) :
    levelShape.Inv m' := by
  have hkey : ∀ x, levelShape.key (m' x) = levelShape.key (m x) := fun x => by
    simp only [levelShape, (h x).1, (h x).2]
  have hocc : ∀ x, levelShape.Occ m' x ↔ levelShape.Occ m x := fun x => by
    rw [Shape.Occ, Shape.Occ, hkey]
  refine ⟨hm.home_lt, fun x y hx hy ho hk => ?_, fun x hx ho y hy hg => ?_⟩
  · rw [hkey, hkey] at hk
    exact hm.inj x y hx hy ((hocc x).mp ho) hk
  · rw [hkey] at hg
    exact (hocc y).mpr (hm.path x hx ((hocc x).mp ho) y hy hg)

/-- Taking the tracker of `idx` out of its list keeps the lists. -/
theorem LinkInv.take (h : t.LinkInv L) {idx x : Nat} (hlink : (t.tracked idx).levelLinked = true)
    (hx : IsEntry (t.levelMaps (t.tracked idx).side) (t.tracked idx).priceTicks x)
    (hsize : t'.size = t.size) (hfall : t'.fallbackLevels = t.fallbackLevels)
    (htr : ∀ j, t'.tracked j = bridged (t.tracked idx) j
      (if j = idx then { t.tracked idx with live := false, levelLinked := false } else t.tracked j))
    (hmaps : ∀ s y, t'.levelMaps s y = if s = (t.tracked idx).side ∧ y = x then
        { t.levelMaps s y with
          head := if (t.tracked idx).levelPrev = kNullIndex then (t.tracked idx).levelNext
            else (t.levelMaps s y).head
          count := (t.levelMaps s y).count - 1 }
      else t.levelMaps s y) :
    t'.LinkInv (fun s y => (L s y).erase idx) := by
  -- Entries keep their price and their being occupied, so that prices are looked up as before.
  have hentry : ∀ s y, (t'.levelMaps s y).occupied = (t.levelMaps s y).occupied
      ∧ (t'.levelMaps s y).price = (t.levelMaps s y).price := by
    intro s y; rw [hmaps]; split <;> exact ⟨rfl, rfl⟩
  have hmem : idx ∈ L (t.tracked idx).side x := (h.mem _ _ _ hx.1).mpr ⟨hlink, rfl, hx⟩
  have hchain := h.chain (t.tracked idx).side x hx.1
  -- Of the trackers only `idx` changes its state; the neighbours change a pointer.
  have hlive : ∀ j, (t'.tracked j).live = if j = idx then false else (t.tracked j).live := by
    intro j; rw [htr]; unfold bridged; split <;> rfl
  have hlinked : ∀ j, (t'.tracked j).levelLinked
      = if j = idx then false else (t.tracked j).levelLinked := by
    intro j; rw [htr]; unfold bridged; split <;> rfl
  have hside : ∀ j, (t'.tracked j).side = (t.tracked j).side := by
    intro j; rw [htr]; unfold bridged; split
    · rename_i hj; rw [hj]
    · rfl
  have hprice : ∀ j, (t'.tracked j).priceTicks = (t.tracked j).priceTicks := by
    intro j; rw [htr]; unfold bridged; split
    · rename_i hj; rw [hj]
    · rfl
  have hiff : ∀ s p y, IsEntry (t'.levelMaps s) p y ↔ IsEntry (t.levelMaps s) p y :=
    fun s p y => isEntry_congr (hentry s) p y
  have hhas : ∀ s p, t'.HasEntry s p ↔ t.HasEntry s p := fun s p => exists_congr (hiff s p)
  refine
    { dead := ?_, bound := ?_, probing := fun s => levelShape_congr (h.probing s) (hentry s),
      chain := ?_, count := ?_, mem := ?_, placed := ?_, degraded := ?_, fallback := ?_ }
  -- `dead` and `bound`: a dead tracker stands in no list, a live one in the table.
  · intro j hj
    rw [hlive] at hj
    rw [hlinked]
    split
    · rfl
    · rename_i hne; rw [if_neg hne] at hj; exact h.dead j hj
  · intro j hj
    rw [hlive] at hj
    by_cases hne : j = idx
    · rw [if_pos hne] at hj; exact Bool.noConfusion hj
    · rw [if_neg hne] at hj; rw [hsize]; exact h.bound j hj
  -- `chain`: the list of `idx` is spliced, every other one keeps its pointers.
  · intro s y hy
    by_cases hsy : s = (t.tracked idx).side ∧ y = x
    · obtain ⟨rfl, rfl⟩ := hsy
      have hn : ∀ j ∈ L (t.tracked idx).side y, j ≠ idx → (t'.tracked j).levelNext
          = if j = (t.tracked idx).levelPrev then (t.tracked idx).levelNext
            else (t.tracked j).levelNext := by
        intro j hj hne
        have hjn : j ≠ kNullIndex := fun he => hchain.ne_null (he ▸ hj)
        rw [htr, if_neg hne]
        unfold bridged
        dsimp only
        by_cases hjp : j = (t.tracked idx).levelPrev
        · rw [if_pos ⟨hjp ▸ hjn, hjp⟩, if_pos hjp]
        · rw [if_neg (fun hh => hjp hh.2), if_neg hjp]
      have hp : ∀ j ∈ L (t.tracked idx).side y, j ≠ idx → (t'.tracked j).levelPrev
          = if j = (t.tracked idx).levelNext then (t.tracked idx).levelPrev
            else (t.tracked j).levelPrev := by
        intro j hj hne
        have hjn : j ≠ kNullIndex := fun he => hchain.ne_null (he ▸ hj)
        rw [htr, if_neg hne]
        unfold bridged
        dsimp only
        by_cases hjp : j = (t.tracked idx).levelNext
        · rw [if_pos ⟨hjp ▸ hjn, hjp⟩, if_pos hjp]
        · rw [if_neg (fun hh => hjp hh.2), if_neg hjp]
      -- The splice is the chain's own; the tail has no pointer in the table.
      have hc := hchain.unlink hmem hn hp
      rw [hmaps, if_pos ⟨rfl, rfl⟩]
      rw [hc.tail] at hc
      exact hc
    · -- the cells of another list are neither the tracker nor its neighbours
      have hout : ∀ j, j ∈ L s y → j ∉ L (t.tracked idx).side x := fun j hj hj' => by
        obtain ⟨h1, h2⟩ := h.mem_unique hx.1 hy hj' hj
        exact hsy ⟨h1, h2⟩
      have hni : idx ∉ L s y := fun hi => hout idx hi hmem
      rw [List.erase_of_not_mem hni, hmaps, if_neg hsy]
      refine (h.chain s y hy).congr (fun j hj => ?_) (fun j hj => ?_)
      all_goals
        have hji : j ≠ idx := fun he => hni (he ▸ hj)
        rw [htr, if_neg hji]
        unfold bridged
        dsimp only
        rw [if_neg]
        rintro ⟨hnn, hje⟩
      · exact hout j hj (hje ▸ (hchain.prv_mem hmem).resolve_left hnn)
      · exact hout j hj (hje ▸ (hchain.nxt_mem hmem).resolve_left hnn)
  -- `count`: the list of `idx` is one shorter.
  · intro s y hy
    rw [hmaps]
    by_cases hsy : s = (t.tracked idx).side ∧ y = x
    · obtain ⟨rfl, rfl⟩ := hsy
      rw [if_pos ⟨rfl, rfl⟩, List.length_erase_of_mem hmem, h.count _ _ hy]
    · have hni : idx ∉ L s y := fun hi => by
        obtain ⟨h1, h2⟩ := h.mem_unique hx.1 hy hmem hi
        exact hsy ⟨h1, h2⟩
      rw [if_neg hsy, List.erase_of_not_mem hni]
      exact h.count s y hy
  -- `mem`: the lists hold the linked trackers, without `idx`.
  · intro s y i hy
    rw [(h.chain s y hy).nodup.mem_erase_iff, hlinked, hside, hprice, hiff, h.mem s y i hy]
    by_cases hi : i = idx
    · rw [if_pos hi]; simp [hi]
    · rw [if_neg hi]; simp [hi]
  -- `placed`, `degraded` and `fallback`: `idx` is dead, and for the others nothing has changed.
  · intro i hi
    rw [hlive] at hi
    by_cases hne : i = idx
    · rw [if_pos hne] at hi; exact Bool.noConfusion hi
    · rw [if_neg hne] at hi
      rw [hlinked, if_neg hne, hside, hprice, hhas]
      exact h.placed i hi
  · intro i hi
    rw [hlive] at hi
    by_cases hne : i = idx
    · rw [if_pos hne] at hi; exact Bool.noConfusion hi
    · rw [if_neg hne] at hi
      rw [hside, hprice, hhas, isFallbackLevel, hfall]
      exact h.degraded i hi
  · intro s p hp
    rw [isFallbackLevel, hfall] at hp
    rw [hhas]
    exact ⟨fun y hy => by rw [(hentry s y).1]; exact (h.fallback s p hp).1 y hy,
      (h.fallback s p hp).2⟩

/-- **Retiring a live tracker** takes it out of its list. -/
theorem retire_spec (h : t.LinkInv L) (idx : Nat) : Retired t (t.retire idx) idx := by
  have hview : ∀ (o : Tracked) (j : Nat) (v : Tracked), (bridged o j v).view = v.view :=
    fun _ _ _ => rfl
  have hlive : ∀ (o : Tracked) (j : Nat) (v : Tracked), (bridged o j v).live = v.live :=
    fun _ _ _ => rfl
  have hself : (t.modify idx (fun o => { o with live := false })).tracked idx
      = { t.tracked idx with live := false } := by rw [modify_tracked, if_pos rfl]
  unfold retire unlinkTracked
  dsimp only
  rw [hself]
  dsimp only
  -- A tracker of a fallback level is in no list; any other is spliced out of its level's.
  by_cases hlink : (t.tracked idx).levelLinked = false
  · rw [if_pos hlink]
    refine ⟨⟨L, h.drop hlink⟩, fun j hj => ?_, at?_dead (by rw [hself]), by rw [hself]; rfl,
      ⟨rfl, rfl, rfl, fun _ _ => Iff.rfl⟩⟩
    rw [at?, modify_tracked, if_neg hj]
    rfl
  · rw [if_neg hlink]
    rw [Bool.not_eq_false] at hlink
    obtain ⟨x, hx⟩ := (h.placed idx (h.live_of_linked hlink)).mp hlink
    have hfind : (t.modify idx (fun o => { o with live := false })).levelFind (t.tracked idx).side
        (t.tracked idx).priceTicks = some x := h.levelFind_eq_some.mpr hx
    rw [hfind]
    dsimp only
    generalize hu : ((t.modify idx (fun o => { o with live := false })).modify idx
      (fun o => { o with levelLinked := false })) = u
    have hu_maps : u.levelMaps = t.levelMaps := by rw [← hu]; rfl
    have hu_tr : ∀ j, u.tracked j
        = if j = idx then { t.tracked idx with live := false, levelLinked := false }
          else t.tracked j := by
      intro j
      rw [← hu, modify_tracked, modify_tracked, modify_tracked]
      split
      · rw [if_pos rfl]
      · rfl
    have hu_idx := hu_tr idx
    rw [if_pos rfl] at hu_idx
    have htr : ∀ j, (u.unlinkAt idx x).tracked j = bridged (t.tracked idx) j
        (if j = idx then { t.tracked idx with live := false, levelLinked := false }
          else t.tracked j) := by
      intro j
      rw [unlinkAt_tracked, hu_tr j, hu_idx]
      rfl
    have hmaps : ∀ s y, (u.unlinkAt idx x).levelMaps s y
        = if s = (t.tracked idx).side ∧ y = x then
          { t.levelMaps s y with
            head := if (t.tracked idx).levelPrev = kNullIndex then (t.tracked idx).levelNext
              else (t.levelMaps s y).head
            count := (t.levelMaps s y).count - 1 }
        else t.levelMaps s y := by
      intro s y
      rw [unlinkAt_levelMaps, hu_idx, hu_maps]
    have hsame : (u.unlinkAt idx x).size = t.size ∧ (u.unlinkAt idx x).recentSync = t.recentSync
        ∧ (u.unlinkAt idx x).fallbackLevels = t.fallbackLevels := by
      rw [← hu]
      unfold unlinkAt
      dsimp only
      split <;> split <;> split <;> exact ⟨rfl, rfl, rfl⟩
    refine ⟨⟨_, h.take hlink hx hsame.1 hsame.2.2 htr hmaps⟩, fun j hj => ?_, ?_, ?_,
      ⟨hsame.1, hsame.2.1, hsame.2.2, fun s p => ?_⟩⟩
    · rw [at?, htr, if_neg hj, hlive, hview]
      rfl
    · refine at?_dead ?_
      rw [htr, if_pos rfl]
      rfl
    · rw [htr, if_pos rfl, hview]
      rfl
    · refine exists_congr (fun y => isEntry_congr (fun z => ?_) p y)
      rw [hmaps]
      split <;> exact ⟨rfl, rfl⟩

/-! ## Listing a tracker -/

/-- The list of a cell that is no entry is empty, and so is the cell. -/
theorem LinkInv.vacant (h : t.LinkInv L) {s : Side} {x : Nat} (hx : x < kLevelMapSize)
    (hempty : (t.levelMaps s x).occupied = false) :
    L s x = [] ∧ (t.levelMaps s x).head = kNullIndex ∧ (t.levelMaps s x).count = 0 := by
  have hnil : L s x = [] := by
    refine List.eq_nil_iff_forall_not_mem.mpr (fun i hi => ?_)
    rw [((h.mem s x i hx).mp hi).2.2.2.1] at hempty
    exact Bool.noConfusion hempty
  refine ⟨hnil, (h.chain s x hx).head_eq_null.mpr hnil, ?_⟩
  rw [h.count s x hx, hnil]
  rfl

/-- Claiming an empty cell for a price keeps the lists. -/
theorem LinkInv.claim (h : t.LinkInv L) {s : Side} {price : Int} {x : Nat} (hx : x < kLevelMapSize)
    (hempty : (t.levelMaps s x).occupied = false)
    (hfirst : ∀ y, y < kLevelMapSize →
      gap kLevelMapSize (levelHash price) y < gap kLevelMapSize (levelHash price) x →
      (t.levelMaps s y).occupied = true)
    (habs : ∀ y, ¬ IsEntry (t.levelMaps s) price y)
    (hsize : t'.size = t.size) (hfall : t'.fallbackLevels = t.fallbackLevels)
    (htr : t'.tracked = t.tracked)
    (hmaps : ∀ s' y, t'.levelMaps s' y = if s' = s ∧ y = x then
      { t.levelMaps s x with occupied := true, price } else t.levelMaps s' y) :
    t'.LinkInv L ∧ ∀ s' p, t'.HasEntry s' p ↔ t.HasEntry s' p ∨ (s' = s ∧ p = price) := by
  have hnofall : ∀ p, ¬ t.isFallbackLevel s p := fun p hp => by
    rw [(h.fallback s p hp).1 x hx] at hempty
    exact Bool.noConfusion hempty
  -- The entries are the old ones and `x`, which holds the price now.
  have hiff : ∀ s' p y, IsEntry (t'.levelMaps s') p y
      ↔ IsEntry (t.levelMaps s') p y ∨ (s' = s ∧ p = price ∧ y = x) := by
    intro s' p y
    rw [IsEntry, IsEntry, hmaps]
    by_cases hsy : s' = s ∧ y = x
    · obtain ⟨rfl, rfl⟩ := hsy
      rw [if_pos ⟨rfl, rfl⟩]
      simp [hx, hempty, eq_comm]
    · rw [if_neg hsy]
      refine ⟨Or.inl, fun hh => hh.resolve_right (fun hc => hsy ⟨hc.1, hc.2.2⟩)⟩
  have hhas : ∀ s' p, t'.HasEntry s' p ↔ t.HasEntry s' p ∨ (s' = s ∧ p = price) := by
    intro s' p
    simp only [HasEntry, hiff]
    constructor
    · rintro ⟨y, hy | ⟨h1, h2, _⟩⟩
      · exact Or.inl ⟨y, hy⟩
      · exact Or.inr ⟨h1, h2⟩
    · rintro (⟨y, hy⟩ | ⟨h1, h2⟩)
      · exact ⟨y, Or.inl hy⟩
      · exact ⟨x, Or.inr ⟨h1, h2, rfl⟩⟩
  have hcell : ∀ s' y, (t'.levelMaps s' y).head = (t.levelMaps s' y).head
      ∧ (t'.levelMaps s' y).count = (t.levelMaps s' y).count := by
    intro s' y
    rw [hmaps]
    split
    · rename_i hh; rw [hh.1, hh.2]; exact ⟨rfl, rfl⟩
    · exact ⟨rfl, rfl⟩
  -- a live tracker without an entry has its level on the fallback list, which is empty here
  have hnone : ∀ i, (t.tracked i).live = true →
      ¬ t.HasEntry (t.tracked i).side (t.tracked i).priceTicks → (t.tracked i).side ≠ s := by
    intro i hi hn hs
    have := h.degraded i hi hn
    rw [hs] at this
    exact hnofall _ this
  refine ⟨?_, hhas⟩
  refine
    { dead := ?_, bound := ?_, probing := ?_, chain := ?_, count := ?_, mem := ?_, placed := ?_,
      degraded := ?_, fallback := ?_ }
  -- No tracker changes. What is to be shown is that probing still finds every entry, that no linked
  -- tracker is at the new price, and that no live one has been waiting for an entry on this side.
  · rw [htr]; exact h.dead
  · rw [htr, hsize]; exact h.bound
  · intro s'
    by_cases hss : s' = s
    · subst hss
      have hupd : t'.levelMaps s' = Function.update (t.levelMaps s') x
          { t.levelMaps s' x with occupied := true, price } := by
        funext y
        rw [hmaps, Function.update_apply]
        simp
      have hkey : levelShape.key { t.levelMaps s' x with occupied := true, price } = some price := rfl
      rw [hupd]
      refine Shape.insert_inv (h.probing s') (by rw [hkey]; exact Option.some_ne_none _) ?_
        (by rw [occ_iff_occupied, hempty]; exact Bool.noConfusion)
      rw [hkey]
      refine ⟨hx, fun y hy hg => (occ_iff_occupied _ y).mpr (hfirst y hy hg),
        Or.inr (by rw [occ_iff_occupied, hempty]; exact Bool.noConfusion), ?_⟩
      intro _ y hy hocc hk
      rw [occ_iff_occupied] at hocc
      rw [key_of_occupied hocc] at hk
      exact habs y ⟨hy, hocc, Option.some.inj hk⟩
    · have hsame : t'.levelMaps s' = t.levelMaps s' := by
        funext y
        rw [hmaps, if_neg (fun hh => hss hh.1)]
      rw [hsame]
      exact h.probing s'
  · intro s' y hy
    rw [(hcell s' y).1, htr]
    exact h.chain s' y hy
  · intro s' y hy
    rw [(hcell s' y).2]
    exact h.count s' y hy
  · intro s' y i hy
    rw [hiff, htr, h.mem s' y i hy]
    refine ⟨fun hh => ⟨hh.1, hh.2.1, Or.inl hh.2.2⟩, ?_⟩
    rintro ⟨h1, h2, h3 | ⟨h3, h4, h5⟩⟩
    · exact ⟨h1, h2, h3⟩
    · obtain ⟨z, hz⟩ := (h.placed i (h.live_of_linked h1)).mp h1
      rw [h2, h3, h4] at hz
      exact absurd hz (habs z)
  · intro i hi
    rw [htr] at hi
    rw [hhas, htr]
    have hpl := h.placed i hi
    refine ⟨fun hh => Or.inl (hpl.mp hh), ?_⟩
    rintro (hh | ⟨h1, h2⟩)
    · exact hpl.mpr hh
    · by_contra hn
      exact hnone i hi (fun hh => hn (hpl.mpr hh)) h1
  · intro i hi hn
    rw [htr] at hi
    rw [hhas, htr] at hn
    rw [isFallbackLevel, hfall, htr]
    exact h.degraded i hi (fun hh => hn (Or.inl hh))
  · intro s' p hp
    rw [isFallbackLevel, hfall] at hp
    have hss : s' ≠ s := fun he => hnofall p (he ▸ hp)
    refine ⟨fun y hy => ?_, ?_⟩
    · rw [hmaps, if_neg (fun hh => hss hh.1)]
      exact (h.fallback s' p hp).1 y hy
    · rw [hhas]
      rintro (hh | hh)
      · exact (h.fallback s' p hp).2 hh
      · exact hss hh.1

/-- Slot `idx` becomes a live tracker at the head of entry `x`'s list. -/
theorem LinkInv.push (h : t.LinkInv L) {idx x : Nat} {s : Side} {price : Int} {v : Tracked}
    (hdead : (t.tracked idx).live = false) (hidx : idx < t.size ∧ idx ≠ kNullIndex)
    (hx : IsEntry (t.levelMaps s) price x) (hv : v.side = s ∧ v.priceTicks = price ∧ v.live = true
      ∧ v.levelLinked = true ∧ v.levelNext = (t.levelMaps s x).head ∧ v.levelPrev = kNullIndex)
    (hsize : t'.size = t.size) (hfall : t'.fallbackLevels = t.fallbackLevels)
    (htr : ∀ j, t'.tracked j = if j = idx then v
      else if (t.levelMaps s x).head ≠ kNullIndex ∧ j = (t.levelMaps s x).head then
        { t.tracked j with levelPrev := idx }
      else t.tracked j)
    (hmaps : ∀ s' y, t'.levelMaps s' y = if s' = s ∧ y = x then
      { t.levelMaps s x with head := idx, count := (t.levelMaps s x).count + 1 }
      else t.levelMaps s' y) :
    t'.LinkInv (fun s' y => if s' = s ∧ y = x then idx :: L s x else L s' y) := by
  obtain ⟨hv1, hv2, hv3, hv4, hv5, hv6⟩ := hv
  -- Entries keep their price; only the head and the count of entry `x` change.
  have hentry : ∀ s' y, (t'.levelMaps s' y).occupied = (t.levelMaps s' y).occupied
      ∧ (t'.levelMaps s' y).price = (t.levelMaps s' y).price := by
    intro s' y
    rw [hmaps]
    split
    · rename_i hh; rw [hh.1, hh.2]; exact ⟨rfl, rfl⟩
    · exact ⟨rfl, rfl⟩
  have hiff : ∀ s' p y, IsEntry (t'.levelMaps s') p y ↔ IsEntry (t.levelMaps s') p y :=
    fun s' p y => isEntry_congr (hentry s') p y
  have hhas : ∀ s' p, t'.HasEntry s' p ↔ t.HasEntry s' p := fun s' p => exists_congr (hiff s' p)
  have hchain := h.chain s x hx.1
  have hni : ∀ s' y, y < kLevelMapSize → idx ∉ L s' y := fun _ _ hy => h.not_mem_of_dead hdead hy
  -- Of the other trackers the old head of the list changes, and that in its back pointer alone.
  have hkeep : ∀ j, j ≠ idx → (t'.tracked j).live = (t.tracked j).live
      ∧ (t'.tracked j).levelLinked = (t.tracked j).levelLinked
      ∧ (t'.tracked j).side = (t.tracked j).side
      ∧ (t'.tracked j).priceTicks = (t.tracked j).priceTicks
      ∧ (t'.tracked j).levelNext = (t.tracked j).levelNext := by
    intro j hj
    rw [htr, if_neg hj]
    split <;> exact ⟨rfl, rfl, rfl, rfl, rfl⟩
  have hself := htr idx
  rw [if_pos rfl] at hself
  refine
    { dead := ?_, bound := ?_, probing := fun s' => levelShape_congr (h.probing s') (hentry s'),
      chain := ?_, count := ?_, mem := ?_, placed := ?_, degraded := ?_, fallback := ?_ }
  -- `dead` and `bound`: slot `idx` is live now and stands in the table.
  · intro j hj
    by_cases hji : j = idx
    · rw [hji, hself, hv3] at hj; exact Bool.noConfusion hj
    · obtain ⟨h1, h2, _⟩ := hkeep j hji
      rw [h1] at hj
      rw [h2]
      exact h.dead j hj
  · intro j hj
    rw [hsize]
    by_cases hji : j = idx
    · rw [hji]; exact hidx
    · rw [(hkeep j hji).1] at hj
      exact h.bound j hj
  -- `chain`: entry `x`'s list has `idx` in front of the old head.
  · intro s' y hy
    by_cases hsy : s' = s ∧ y = x
    · obtain ⟨rfl, rfl⟩ := hsy
      rw [if_pos ⟨rfl, rfl⟩, hmaps, if_pos ⟨rfl, rfl⟩]
      refine hchain.cons (hni _ _ hy) hidx.2 (fun j hj => ?_) (fun j hj => ?_) ?_ ?_
      · exact (hkeep j (fun he => hni _ _ hy (he ▸ hj))).2.2.2.2
      · have hjn : j ≠ kNullIndex := fun he => hchain.ne_null (he ▸ hj)
        rw [htr, if_neg (fun he => hni _ _ hy (he ▸ hj))]
        by_cases hjh : j = (t.levelMaps s' y).head
        · rw [if_pos ⟨hjh ▸ hjn, hjh⟩, if_pos hjh]
        · rw [if_neg (fun hh => hjh hh.2), if_neg hjh]
      · rw [hself, hv5]
      · rw [hself, hv6]
    · rw [if_neg hsy, hmaps, if_neg hsy]
      refine (h.chain s' y hy).congr (fun j hj => ?_) (fun j hj => ?_)
      · exact (hkeep j (fun he => hni _ _ hy (he ▸ hj))).2.2.2.2
      · have hji : j ≠ idx := fun he => hni _ _ hy (he ▸ hj)
        have hjh : j ≠ (t.levelMaps s x).head := h.ne_head hx.1 hy hsy hj
        rw [htr, if_neg hji, if_neg (fun hh => hjh hh.2)]
  -- `count`: that list is one longer.
  · intro s' y hy
    rw [hmaps]
    by_cases hsy : s' = s ∧ y = x
    · rw [if_pos hsy, if_pos hsy, List.length_cons, ← h.count s x hx.1]
    · rw [if_neg hsy, if_neg hsy]
      exact h.count s' y hy
  -- `mem`: `idx` is listed at its own level and nowhere else.
  · intro s' y j hy
    rw [hiff]
    by_cases hji : j = idx
    · rw [hji, hself, hv4, hv1, hv2]
      by_cases hsy : s' = s ∧ y = x
      · obtain ⟨rfl, rfl⟩ := hsy
        simp [hx]
      · rw [if_neg hsy]
        refine ⟨fun hi => absurd hi (hni s' y hy), fun hh => ?_⟩
        obtain ⟨_, rfl, he⟩ := hh
        exact absurd ⟨rfl, he.unique (h.probing _) hx⟩ hsy
    · obtain ⟨_, h2, h3, h4, _⟩ := hkeep j hji
      rw [h2, h3, h4, ← h.mem s' y j hy]
      split
      · rename_i hsy; rw [hsy.1, hsy.2]; simp [hji]
      · exact Iff.rfl
  · intro j hj
    rw [hhas]
    by_cases hji : j = idx
    · rw [hji, hself, hv4, hv1, hv2]
      exact ⟨fun _ => ⟨x, hx⟩, fun _ => rfl⟩
    · obtain ⟨h1, h2, h3, h4, _⟩ := hkeep j hji
      rw [h1] at hj
      rw [h2, h3, h4]
      exact h.placed j hj
  -- `degraded` and `fallback`: `idx` has an entry, so no level becomes a fallback.
  · intro j hj hn
    rw [hhas] at hn
    rw [isFallbackLevel, hfall]
    by_cases hji : j = idx
    · rw [hji, hself, hv1, hv2] at hn
      exact absurd ⟨x, hx⟩ hn
    · obtain ⟨h1, _, h3, h4, _⟩ := hkeep j hji
      rw [h1] at hj
      rw [h3, h4] at hn ⊢
      exact h.degraded j hj hn
  · intro s' p hp
    rw [isFallbackLevel, hfall] at hp
    rw [hhas]
    exact ⟨fun y hy => by rw [(hentry s' y).1]; exact (h.fallback s' p hp).1 y hy,
      (h.fallback s' p hp).2⟩

/-- Slot `idx` becomes a live tracker at a level that finds the table full. -/
theorem LinkInv.unlisted (h : t.LinkInv L) {idx : Nat} {s : Side} {price : Int} {v : Tracked}
    (hdead : (t.tracked idx).live = false) (hidx : idx < t.size ∧ idx ≠ kNullIndex)
    (hfull : ∀ y, y < kLevelMapSize → (t.levelMaps s y).occupied = true)
    (habs : ¬ t.HasEntry s price) (hv : v.side = s ∧ v.priceTicks = price ∧ v.live = true
      ∧ v.levelLinked = (t.tracked idx).levelLinked)
    (hsize : t'.size = t.size) (hmaps : t'.levelMaps = t.levelMaps)
    (hfall : ∀ s' p, t'.isFallbackLevel s' p ↔ t.isFallbackLevel s' p ∨ (s' = s ∧ p = price))
    (htr : ∀ j, t'.tracked j = if j = idx then v else t.tracked j) : t'.LinkInv L := by
  obtain ⟨hv1, hv2, hv3, hv4⟩ := hv
  have hni : ∀ s' y, y < kLevelMapSize → idx ∉ L s' y := fun _ _ hy => h.not_mem_of_dead hdead hy
  have hself := htr idx
  rw [if_pos rfl] at hself
  have hunl : v.levelLinked = false := hv4.trans (h.dead idx hdead)
  -- The table of levels is left as it is, full on this side: the level goes on the fallback list.
  have hhas : ∀ s' p, t'.HasEntry s' p ↔ t.HasEntry s' p := fun s' p => by
    rw [HasEntry, HasEntry, hmaps]
  refine
    { dead := ?_, bound := ?_, probing := by rw [hmaps]; exact h.probing, chain := ?_,
      count := by rw [hmaps]; exact h.count, mem := ?_, placed := ?_, degraded := ?_,
      fallback := ?_ }
  · intro j hj
    rw [htr] at hj ⊢
    by_cases hji : j = idx
    · rw [if_pos hji, hv3] at hj; exact Bool.noConfusion hj
    · rw [if_neg hji] at hj ⊢; exact h.dead j hj
  · intro j hj
    rw [hsize]
    rw [htr] at hj
    by_cases hji : j = idx
    · rw [hji]; exact hidx
    · rw [if_neg hji] at hj; exact h.bound j hj
  -- `chain` and `mem`: a dead slot stood in no list, and stands in none now.
  · intro s' y hy
    rw [hmaps]
    refine (h.chain s' y hy).congr (fun j hj => ?_) (fun j hj => ?_)
    all_goals
      have hji : j ≠ idx := fun he => hni s' y hy (he ▸ hj)
      rw [htr, if_neg hji]
  · intro s' y j hy
    rw [hmaps, htr]
    by_cases hji : j = idx
    · rw [if_pos hji, hji, hunl]
      refine ⟨fun hi => absurd hi (hni s' y hy), fun hh => Bool.noConfusion hh.1⟩
    · rw [if_neg hji]; exact h.mem s' y j hy
  · intro j hj
    rw [htr] at hj
    rw [hhas, htr]
    by_cases hji : j = idx
    · rw [if_pos hji, hunl, hv1, hv2]
      exact ⟨fun hh => Bool.noConfusion hh, fun hh => absurd hh habs⟩
    · rw [if_neg hji] at hj ⊢; exact h.placed j hj
  · intro j hj hn
    rw [htr] at hj
    rw [hhas, htr] at hn
    rw [hfall, htr]
    by_cases hji : j = idx
    · rw [if_pos hji, hv1, hv2]; exact Or.inr ⟨rfl, rfl⟩
    · rw [if_neg hji] at hj hn ⊢; exact Or.inl (h.degraded j hj hn)
  · intro s' p hp
    rw [hhas, hmaps]
    rcases (hfall s' p).mp hp with hh | ⟨rfl, rfl⟩
    · exact h.fallback s' p hh
    · exact ⟨hfull, habs⟩

theorem linkAt_tracked (t : TrackTable) {idx x : Nat} {s : Side}
    (hne : (t.levelMaps s x).head ≠ idx) (j : Nat) :
    (t.linkAt idx s x).tracked j = if j = idx then
        { t.tracked idx with
          levelNext := (t.levelMaps s x).head, levelPrev := kNullIndex, levelLinked := true }
      else if (t.levelMaps s x).head ≠ kNullIndex ∧ j = (t.levelMaps s x).head then
        { t.tracked j with levelPrev := idx }
      else t.tracked j := by
  unfold linkAt
  dsimp only
  by_cases hh : (t.levelMaps s x).head = kNullIndex
  · rw [if_neg (not_not.mpr hh), modify_tracked, setLevel_tracked]
    simp only [modify_tracked, hh]
    split_ifs <;> simp_all
  · rw [if_pos hh, modify_tracked, setLevel_tracked]
    simp only [modify_tracked]
    split_ifs <;> simp_all

theorem linkAt_levelMaps (t : TrackTable) (idx x : Nat) (s s' : Side) (y : Nat) :
    (t.linkAt idx s x).levelMaps s' y = if s' = s ∧ y = x then
        { t.levelMaps s x with head := idx, count := (t.levelMaps s x).count + 1 }
      else t.levelMaps s' y := by
  unfold linkAt
  dsimp only
  rw [modify_levelMaps, setLevel_levelMaps]
  split
  · rfl
  · split <;> rfl

theorem linkAt_same (t : TrackTable) (idx x : Nat) (s : Side) :
    (t.linkAt idx s x).size = t.size ∧ (t.linkAt idx s x).recentSync = t.recentSync
      ∧ (t.linkAt idx s x).fallbackLevels = t.fallbackLevels := by
  unfold linkAt
  dsimp only
  split <;> exact ⟨rfl, rfl, rfl⟩

/-- What tracking a new order in slot `idx` does. -/
structure Rested (t t' : TrackTable) (idx : Nat) (v : TrackView) : Prop where
  inv : t'.TrackInv
  at_self : t'.at? idx = some v
  at_other : ∀ j, j ≠ idx → t'.at? j = t.at? j
  size : t'.size = t.size
  recentSync : t'.recentSync = t.recentSync

/-- The head of a list is not a dead slot. -/
theorem LinkInv.head_ne (h : t.LinkInv L) {idx x : Nat} {s : Side} (hx : x < kLevelMapSize)
    (hdead : (t.tracked idx).live = false) (hnull : idx ≠ kNullIndex) :
    (t.levelMaps s x).head ≠ idx := by
  intro he
  have hc := h.chain s x hx
  cases hl : L s x with
  | nil => exact hnull (he ▸ hc.head_eq_null.mpr hl)
  | cons a l =>
      rw [hl] at hc
      have hi : idx ∈ L s x := by rw [hl, ← he, hc.head_cons]; simp
      exact h.not_mem_of_dead hdead hx hi

/-- **Tracking a resting order** lists it at its level. -/
theorem linkTracked_spec (h : t.LinkInv L) {idx : Nat} (s : Side) (price : Int) (v : Tracked)
    (hdead : (t.tracked idx).live = false) (hidx : idx < t.size ∧ idx ≠ kNullIndex)
    (hv : v.side = s ∧ v.priceTicks = price ∧ v.live = true
      ∧ v.levelLinked = (t.tracked idx).levelLinked) :
    Rested t ((t.modify idx (fun _ => v)).linkTracked idx s price) idx v.view := by
  obtain ⟨hv1, hv2, hv3, hv4⟩ := hv
  have hs := levelScan_spec (t.levelMaps s) price kLevelMapSize 0 none
    (by rw [Nat.zero_add]) (fun j hj => absurd hj (Nat.not_lt_zero j))
    (fun j hj => absurd hj (Nat.not_lt_zero j))
  -- the same insertion whether the entry was there or has just been claimed
  have hlisted : ∀ (t1 : TrackTable) (x : Nat), t1.LinkInv L → IsEntry (t1.levelMaps s) price x →
      t1.tracked = t.tracked → t1.size = t.size → t1.recentSync = t.recentSync →
      Rested t ((t1.modify idx (fun _ => v)).linkAt idx s x) idx v.view := by
    intro t1 x h1 hx htr1 hsize1 hsync1
    have hdead1 : (t1.tracked idx).live = false := by rw [htr1]; exact hdead
    have hne : ((t1.modify idx (fun _ => v)).levelMaps s x).head ≠ idx :=
      h1.head_ne hx.1 hdead1 hidx.2
    obtain ⟨e1, e2, e3⟩ := linkAt_same (t1.modify idx (fun _ => v)) idx x s
    have htr' : ∀ j, ((t1.modify idx (fun _ => v)).linkAt idx s x).tracked j
        = if j = idx then
            { v with
              levelNext := (t1.levelMaps s x).head, levelPrev := kNullIndex, levelLinked := true }
          else if (t1.levelMaps s x).head ≠ kNullIndex ∧ j = (t1.levelMaps s x).head then
            { t1.tracked j with levelPrev := idx }
          else t1.tracked j := by
      intro j
      rw [linkAt_tracked _ hne, modify_tracked, if_pos rfl, modify_tracked]
      by_cases hj : j = idx
      · rw [if_pos hj, if_pos hj]; rfl
      · rw [if_neg hj, if_neg hj, if_neg hj]; rfl
    have hinv := h1.push (v := { v with
        levelNext := (t1.levelMaps s x).head, levelPrev := kNullIndex, levelLinked := true })
      hdead1 (by rw [hsize1]; exact hidx) hx ⟨hv1, hv2, hv3, rfl, rfl, rfl⟩ e1 e3 htr'
      (linkAt_levelMaps _ idx x s)
    refine ⟨⟨_, hinv⟩, ?_, fun j hj => ?_, e1.trans hsize1, e2.trans hsync1⟩
    · have hself := htr' idx
      rw [if_pos rfl] at hself
      rw [at?, hself, if_pos hv3]
      rfl
    · rw [at?, htr', if_neg hj, at?, htr1]
      split <;> split <;> rfl
  unfold linkTracked levelGet
  rw [modify_levelMaps]
  generalize levelScan (t.levelMaps s) (levelHash price) price kLevelMapSize 0 none = r at *
  cases hs with
  | found x e hx => exact hlisted t x h hx rfl rfl rfl
  | fresh x hx hempty hfirst habs =>
      have hcl : (t.setLevel s x { t.levelMaps s x with occupied := true, price }).LinkInv L := by
        refine (h.claim hx hempty hfirst habs ?_ ?_ ?_ (setLevel_levelMaps t s x _)).1
        all_goals rfl
      refine hlisted _ x hcl ⟨hx, ?_, ?_⟩ rfl rfl rfl
      all_goals rw [setLevel_levelMaps, if_pos ⟨rfl, rfl⟩]
  | full hfull habs =>
      refine ⟨⟨L, h.unlisted (v := v) hdead hidx hfull (fun ⟨x, hx⟩ => habs x hx)
        ⟨hv1, hv2, hv3, hv4⟩ rfl rfl (fun s' p => ?_)
        (modify_tracked t idx (fun _ => v))⟩, ?_, fun j hj => ?_,
        rfl, rfl⟩
      · unfold isFallbackLevel
        dsimp only
        by_cases hss : s' = s
        · subst hss; simp [modify]
        · simp [hss, modify]
      · rw [at?, modify_tracked, if_pos rfl, if_pos hv3]
      · rw [at?, modify_tracked, if_neg hj]
        rfl

/-! ## Moving positions -/

/-- A tracker's record with its position changed by `f`. -/
def TrackView.mapAhead (f : Int → Int) (v : TrackView) : TrackView :=
  { v with qtyAhead := f v.qtyAhead }

/-- `t'` is `t` with positions changed: `ahead i` is what slot `i`'s position becomes. -/
structure Moved (t t' : TrackTable) (ahead : Nat → Int → Int) : Prop where
  inv : t'.TrackInv
  at_eq : ∀ j, t'.at? j = (t.at? j).map (TrackView.mapAhead (ahead j))
  same : SameLevels t t'

/-- Writing a position keeps the lists. -/
theorem LinkInv.position (h : t.LinkInv L) (i : Nat) (f : Tracked → Int) :
    (t.modify i (fun o => { o with qtyAhead := f o })).LinkInv L := by
  refine h.congr rfl rfl rfl (fun j => ?_)
  rw [modify_tracked]
  split
  · rename_i hj; rw [hj]; exact ⟨rfl, rfl, rfl, rfl, rfl, rfl⟩
  · exact ⟨rfl, rfl, rfl, rfl, rfl, rfl⟩

theorem at?_position (t : TrackTable) (i : Nat) (f : Int → Int) (j : Nat) :
    (t.modify i (fun o => { o with qtyAhead := f o.qtyAhead })).at? j
      = if j = i then (t.at? j).map (TrackView.mapAhead f) else t.at? j := by
  unfold at?
  rw [modify_tracked]
  by_cases hj : j = i
  · rw [if_pos hj, if_pos hj, hj]
    dsimp only
    split <;> rfl
  · rw [if_neg hj, if_neg hj]

variable {k : Nat} {b : OrderBook k}

theorem recomputeWalk_spec (b : OrderBook k) (l : List Nat) : ∀ (cum : Int) (t : TrackTable),
    t.LinkInv L → l.Nodup →
    (recomputeWalk b l cum t).LinkInv L ∧ SameLevels t (recomputeWalk b l cum t)
      ∧ ∀ j, (recomputeWalk b l cum t).at? j
        = if j ∈ l then (t.at? j).map (TrackView.mapAhead (fun _ =>
            cum + ahead (fun i => (b.arena.atIndex i).qtyRemaining) j l))
          else t.at? j := by
  induction l with
  | nil => intro cum t h _; exact ⟨h, SameLevels.refl t, fun j => by simp [recomputeWalk]⟩
  | cons i l ih =>
      intro cum t h hnd
      obtain ⟨hil, hnd⟩ := List.nodup_cons.mp hnd
      rw [recomputeWalk]
      -- the head's own position is what has been summed so far
      have hstep : ∀ u : TrackTable, u = (if t.isLive i then
            t.modify i (fun o => { o with qtyAhead := cum }) else t) →
          u.LinkInv L ∧ SameLevels t u ∧ ∀ j, u.at? j
            = if j = i then (t.at? j).map (TrackView.mapAhead (fun _ => cum)) else t.at? j := by
        intro u hu
        by_cases hl : t.isLive i
        · rw [if_pos hl] at hu
          subst hu
          exact ⟨h.position i (fun _ => cum), ⟨rfl, rfl, rfl, fun _ _ => Iff.rfl⟩,
            at?_position t i (fun _ => cum)⟩
        · rw [if_neg hl] at hu
          subst hu
          refine ⟨h, SameLevels.refl _, fun j => ?_⟩
          split
          · rename_i hj
            have hdead : (u.tracked i).live = false := by
              by_contra hv
              rw [Bool.not_eq_false] at hv
              exact hl ⟨(h.bound i hv).1, hv⟩
            rw [hj, at?_dead hdead]
            rfl
          · rfl
      obtain ⟨h1, h2, h3⟩ := hstep _ rfl
      obtain ⟨h4, h5, h6⟩ := ih (cum + (b.arena.atIndex i).qtyRemaining) _ h1 hnd
      refine ⟨h4, h2.trans h5, fun j => ?_⟩
      rw [h6, h3]
      by_cases hji : j = i
      · subst hji
        rw [if_neg hil, if_pos rfl, if_pos (by simp)]
        rw [ahead_cons_self, Int.add_zero]
      · rw [if_neg hji]
        by_cases hjl : j ∈ l
        · rw [if_pos hjl, if_pos (by simp [hjl])]
          rw [ahead_cons_of_ne (Ne.symm hji)]
          simp only [Int.add_assoc]
        · rw [if_neg hjl, if_neg (by simp [hjl, hji])]

theorem subtractWalk_spec (take : Int) (skip : Bool) (l : List Nat) :
    ∀ (fuel i : Nat) (p : Nat) (t : TrackTable), t.LinkInv L → l.length ≤ fuel →
    Seg (fun j => (t.tracked j).levelNext) (fun j => (t.tracked j).levelPrev) p i kNullIndex l →
    kNullIndex ∉ l → l.Nodup →
    (subtractWalk take skip fuel i t).LinkInv L ∧ SameLevels t (subtractWalk take skip fuel i t)
      ∧ ∀ j, (subtractWalk take skip fuel i t).at? j
        = if j ∈ l ∧ ¬ (skip = true ∧ j ∈ t.recentSync) then
            (t.at? j).map (TrackView.mapAhead (fun a => a - take))
          else t.at? j := by
  -- The walk follows the chain, so the induction is on the list that it stands for.
  induction l with
  | nil =>
      intro fuel i p t h _ hseg _ _
      have hi : i = kNullIndex := hseg
      have hsub : subtractWalk take skip fuel i t = t := by
        cases fuel with
        | zero => rfl
        | succ fuel => rw [subtractWalk, if_pos hi]
      rw [hsub]
      exact ⟨h, SameLevels.refl t, fun j => by simp⟩
  | cons a l ih =>
      intro fuel i p t h hlen hseg hnull hnd
      obtain ⟨rfl, hprev, hseg⟩ := hseg
      obtain ⟨hil, hnd⟩ := List.nodup_cons.mp hnd
      simp only [List.length_cons] at hlen
      obtain ⟨f, rfl⟩ : ∃ f, fuel = f + 1 := ⟨fuel - 1, by omega⟩
      have hne : i ≠ kNullIndex := fun he => hnull (by simp [he])
      have hnull' : kNullIndex ∉ l := fun hm => hnull (by simp [hm])
      rw [subtractWalk, if_neg hne]
      by_cases hskip : skip = true ∧ i ∈ t.recentSync
      -- A tracker that was brought up to date in this call is passed over.
      · rw [if_pos hskip]
        obtain ⟨h4, h5, h6⟩ := ih f _ _ t h (by omega) hseg hnull' hnd
        refine ⟨h4, h5, fun j => ?_⟩
        rw [h6]
        by_cases hji : j = i
        · subst hji
          rw [if_neg (fun hh => hil hh.1), if_neg (fun hh => hh.2 hskip)]
        · simp [hji]
      · rw [if_neg hskip]
        dsimp only
        have hpos := h.position i (fun o => o.qtyAhead - take)
        have hat := at?_position t i (fun a => a - take)
        have htr := modify_tracked t i (fun o => { o with qtyAhead := o.qtyAhead - take })
        have hsync : (t.modify i (fun o => { o with qtyAhead := o.qtyAhead - take })).recentSync
            = t.recentSync := rfl
        have hsame : SameLevels t (t.modify i (fun o => { o with qtyAhead := o.qtyAhead - take })) :=
          ⟨rfl, rfl, rfl, fun _ _ => Iff.rfl⟩
        generalize t.modify i (fun o => { o with qtyAhead := o.qtyAhead - take }) = u at *
        have hnext : (u.tracked i).levelNext = (t.tracked i).levelNext := by
          rw [htr, if_pos rfl]
        -- The write moves a position and no pointer, so the rest of the chain is where it was.
        have hseg' : Seg (fun j => (u.tracked j).levelNext) (fun j => (u.tracked j).levelPrev) i
            ((u.tracked i).levelNext) kNullIndex l := by
          rw [hnext]
          refine hseg.congr (fun j hj => ?_) (fun j hj => ?_)
          all_goals
            have hji : j ≠ i := fun he => hil (he ▸ hj)
            rw [htr, if_neg hji]
        obtain ⟨h4, h5, h6⟩ := ih f _ _ u hpos (by omega) hseg' hnull' hnd
        refine ⟨h4, hsame.trans h5, fun j => ?_⟩
        rw [h6, hat, hsync]
        by_cases hji : j = i
        · subst hji
          rw [if_neg (fun hh => hil hh.1), if_pos rfl, if_pos ⟨by simp, hskip⟩]
        · simp [hji]

end TrackTable

end Mog
