import Mathlib.Data.List.Perm.Basic
import Mathlib.Data.Nat.Bitwise
import Mog.Lib.LowerBound

/-!
# Do markouts depend on the order of arrival?

Fills are measured against the first mid at or after each horizon: at once where history has
it, and later, from the pending list, where it has not. The sums are doubles; what is kept here
is each pair that is added to them.

Each fill has three horizons, and a horizon of a fill is measured once: by the first sample that
reaches it, whether that sample came before the fill or after. So the set of what is measured
depends on the samples in their order and on the fills as a set, and not on which of them
arrived first.
-/

namespace Mog

namespace Markouts

/-- A fill. `nth` tells equal fills apart, and nothing reads it. -/
structure Fill where
  ts : Nat
  price : Int
  side : Nat
  nth : Nat
  deriving DecidableEq

structure Sample where
  ts : Nat
  mid2 : Int
  deriving DecidableEq

/-- A fill with a horizon that is not yet measured; bit `h` of the mask is set where it is. -/
structure Pending where
  fill : Fill
  measured : Nat
  deriving DecidableEq

/-- One call of `accumulate`. -/
structure Measurement where
  horizon : Nat
  fill : Fill
  mid2 : Int
  deriving DecidableEq

def kHorizons : List Nat := [1000, 10000, 100000]

def kAllMeasured : Nat := 1 <<< kHorizons.length - 1

end Markouts

open Markouts in
structure Markouts where
  mids : List Sample
  pending : List Pending
  n : List Nat
  log : List Measurement

namespace Markouts

def init : Markouts := { mids := [], pending := [], n := [0, 0, 0], log := [] }

def count (m : Markouts) (h : Nat) : Nat := m.n.getD h 0

def accumulate (m : Markouts) (h : Nat) (f : Fill) (mid2 : Int) : Markouts :=
  { m with
    n := m.n.modify h fun c => (c + 1) % 2 ^ 64
    log := m.log ++ [{ horizon := h, fill := f, mid2 := mid2 }] }

def sampleAt (mids : List Sample) (ts : Nat) : Option Sample :=
  LowerBound.lowerBound? (fun s => decide (s.ts < ts)) mids

/-- The sample that a fill is measured against. -/
def found (mids : List Sample) (f : Fill) (h : Nat) : Option Sample :=
  sampleAt mids ((f.ts + kHorizons.getD h 0) % 2 ^ 64)

/-- One horizon of a fill. -/
def measure (x : Markouts × Pending) (h : Nat) : Markouts × Pending :=
  match found x.1.mids x.2.fill h with
  | none => x
  | some s =>
      (x.1.accumulate h x.2.fill s.mid2, { x.2 with measured := x.2.measured ||| 1 <<< h })

/-- One horizon of a pending fill. -/
def measureRest (x : Markouts × Pending) (h : Nat) : Markouts × Pending :=
  if x.2.measured.testBit h then x else measure x h

/-- `l[i] = l.back(); l.pop_back()`. -/
def swapRemove {α : Type} (l : List α) (i : Nat) : List α :=
  match l.getLast? with
  | none => l
  | some last => (l.set i last).dropLast

/-- The scan of the pending list from `i`, with `left` entries not yet looked at. -/
def scan : Nat → Nat → Markouts → Markouts
  | 0, _, m => m
  | left + 1, i, m =>
      match m.pending[i]? with
      | none => m
      | some p =>
          let x := (List.range kHorizons.length).foldl measureRest (m, p)
          let pending := x.1.pending.set i x.2
          if x.2.measured = kAllMeasured then
            scan left i { x.1 with pending := swapRemove pending i }
          else scan left (i + 1) { x.1 with pending := pending }

def addMid (m : Markouts) (s : Sample) : Markouts :=
  scan m.pending.length 0 { m with mids := m.mids ++ [s] }

def addFill (m : Markouts) (f : Fill) : Markouts :=
  let x := (List.range kHorizons.length).foldl measure (m, { fill := f, measured := 0 })
  if x.2.measured ≠ kAllMeasured then { x.1 with pending := x.1.pending ++ [x.2] } else x.1

inductive Call where
  | mid (s : Sample)
  | fill (f : Fill)
  deriving DecidableEq

def Call.mid? : Call → Option Sample
  | mid s => some s
  | fill _ => none

def Call.fill? : Call → Option Fill
  | mid _ => none
  | fill f => some f

def onCall (m : Markouts) : Call → Markouts
  | .mid s => m.addMid s
  | .fill f => m.addFill f

def run (m : Markouts) (calls : List Call) : Markouts := calls.foldl onCall m

/-- The pairs of fill and mid measured at a horizon. -/
def measuredAt (m : Markouts) (h : Nat) : List (Fill × Int) :=
  (m.log.filter fun x => x.horizon = h).map fun x => (x.fill, x.mid2)

/-! ## The horizons of one fill -/

variable {m : Markouts} {mids mids' : List Sample} {p : Pending} {f : Fill} {h : Nat}

/-- The mask `k` after horizon `h`. -/
def mark (mids : List Sample) (f : Fill) (k h : Nat) : Nat :=
  if (found mids f h).isSome then k ||| 1 <<< h else k

/-- The mask `k` after all horizons. -/
def marked (mids : List Sample) (f : Fill) (k : Nat) : Nat :=
  (List.range kHorizons.length).foldl (mark mids f) k

/-- What a horizon adds to the log. -/
def news (mids : List Sample) (p : Pending) (h : Nat) : Option Measurement :=
  if p.measured.testBit h then none
  else (found mids p.fill h).map fun s => { horizon := h, fill := p.fill, mid2 := s.mid2 }

/-- What all horizons add to it. -/
def allNews (mids : List Sample) (p : Pending) : List Measurement :=
  (List.range kHorizons.length).filterMap (news mids p)

/-- What stays pending. -/
def kept (mids : List Sample) (p : Pending) : Option Pending :=
  if marked mids p.fill p.measured = kAllMeasured then none
  else some { p with measured := marked mids p.fill p.measured }

theorem testBit_mark (k h j : Nat) : (k ||| 1 <<< h).testBit j = (k.testBit j || decide (j = h)) := by
  rw [Nat.testBit_or, Nat.one_shiftLeft, Nat.testBit_two_pow]
  congr 1
  exact decide_eq_decide.mpr eq_comm

theorem testBit_foldl_mark (mids : List Sample) (f : Fill) (hs : List Nat) (k j : Nat) :
    (hs.foldl (mark mids f) k).testBit j
      = (k.testBit j || (decide (j ∈ hs) && (found mids f j).isSome)) := by
  induction hs generalizing k with
  | nil => simp
  | cons h hs ih =>
      rw [List.foldl_cons, ih]
      unfold mark
      by_cases hfound : (found mids f h).isSome
      · rw [if_pos hfound, testBit_mark]
        by_cases hj : j = h
        · subst hj
          simp [hfound]
        · simp [hj]
      · rw [if_neg hfound]
        by_cases hj : j = h
        · subst hj
          simp [hfound]
        · simp [hj]

theorem testBit_marked (mids : List Sample) (f : Fill) (k j : Nat) : (marked mids f k).testBit j
    = (k.testBit j || (decide (j < kHorizons.length) && (found mids f j).isSome)) := by
  unfold marked
  rw [testBit_foldl_mark]
  simp only [List.mem_range]

theorem testBit_kAllMeasured (j : Nat) :
    kAllMeasured.testBit j = decide (j < kHorizons.length) := by
  unfold kAllMeasured
  rw [Nat.one_shiftLeft, Nat.testBit_two_pow_sub_one]

theorem measureRest_step (m : Markouts) (p : Pending) (h : Nat) :
    (measureRest (m, p) h).1.mids = m.mids
      ∧ (measureRest (m, p) h).1.pending = m.pending
      ∧ (measureRest (m, p) h).1.log = m.log ++ (news m.mids p h).toList
      ∧ (measureRest (m, p) h).2 = { p with measured := mark m.mids p.fill p.measured h } := by
  unfold measureRest measure news mark
  dsimp only
  by_cases hbit : p.measured.testBit h
  · rw [if_pos hbit, if_pos hbit]
    refine ⟨rfl, rfl, (List.append_nil _).symm, ?_⟩
    -- the bit is there already
    have hsame : p.measured ||| 1 <<< h = p.measured := by
      refine Nat.eq_of_testBit_eq fun j => ?_
      rw [testBit_mark]
      by_cases hj : j = h
      · subst hj
        rw [hbit]
        rfl
      · rw [decide_eq_false hj, Bool.or_false]
    rw [hsame, ite_self]
  · rw [if_neg hbit, if_neg hbit]
    cases found m.mids p.fill h with
    | none => exact ⟨rfl, rfl, (List.append_nil _).symm, rfl⟩
    | some s => exact ⟨rfl, rfl, rfl, rfl⟩

/-- A horizon does not hide another. -/
theorem news_mark {h h' : Nat} (hne : h' ≠ h) (mids : List Sample) (p : Pending) :
    news mids { p with measured := mark mids p.fill p.measured h } h' = news mids p h' := by
  have hbit : (mark mids p.fill p.measured h).testBit h' = p.measured.testBit h' := by
    unfold mark
    split
    · rw [testBit_mark, decide_eq_false hne, Bool.or_false]
    · rfl
  unfold news
  dsimp only
  rw [hbit]

/-- **The horizons of a pending fill.** Those with a sample are marked and logged, the others are
left. -/
theorem foldl_measureRest {hs : List Nat} (hnodup : hs.Nodup) (m : Markouts) (p : Pending) :
    (hs.foldl measureRest (m, p)).1.mids = m.mids
      ∧ (hs.foldl measureRest (m, p)).1.pending = m.pending
      ∧ (hs.foldl measureRest (m, p)).1.log = m.log ++ hs.filterMap (news m.mids p)
      ∧ (hs.foldl measureRest (m, p)).2
        = { p with measured := hs.foldl (mark m.mids p.fill) p.measured } := by
  induction hs generalizing m p with
  | nil => exact ⟨rfl, rfl, (List.append_nil _).symm, rfl⟩
  | cons h hs ih =>
      obtain ⟨hnot, hnodup⟩ := List.nodup_cons.mp hnodup
      obtain ⟨hmids, hpending, hlog, hp⟩ := measureRest_step m p h
      rw [List.foldl_cons]
      generalize measureRest (m, p) h = x at hmids hpending hlog hp
      obtain ⟨m₁, p₁⟩ := x
      dsimp only at hmids hpending hlog hp
      subst hp
      obtain ⟨ihmids, ihpending, ihlog, ihp⟩ :=
        ih hnodup m₁ { p with measured := mark m.mids p.fill p.measured h }
      have hrest : hs.filterMap (news m.mids { p with measured := mark m.mids p.fill p.measured h })
          = hs.filterMap (news m.mids p) := by
        refine List.filterMap_congr fun h' hh' => ?_
        have hne : h' ≠ h := fun he => hnot (he ▸ hh')
        exact news_mark hne m.mids p
      rw [hmids] at ihmids ihlog ihp
      rw [hpending] at ihpending
      rw [hlog, hrest, List.append_assoc] at ihlog
      refine ⟨ihmids, ihpending, ?_, ihp⟩
      rw [ihlog, List.filterMap_cons]
      cases news m.mids p h with
      | none => rfl
      | some x => rfl

/-- **One look at a pending fill.** -/
theorem measureRest_all (m : Markouts) (p : Pending) :
    ((List.range kHorizons.length).foldl measureRest (m, p)).1.mids = m.mids
      ∧ ((List.range kHorizons.length).foldl measureRest (m, p)).1.pending = m.pending
      ∧ ((List.range kHorizons.length).foldl measureRest (m, p)).1.log = m.log ++ allNews m.mids p
      ∧ ((List.range kHorizons.length).foldl measureRest (m, p)).2
        = { p with measured := marked m.mids p.fill p.measured } :=
  foldl_measureRest List.nodup_range m p

/-- A new fill has no horizon to skip. -/
theorem foldl_measure {hs : List Nat} (hnodup : hs.Nodup) (m : Markouts) (p : Pending)
    (hbits : ∀ h ∈ hs, p.measured.testBit h = false) :
    hs.foldl measure (m, p) = hs.foldl measureRest (m, p) := by
  induction hs generalizing m p with
  | nil => rfl
  | cons h hs ih =>
      obtain ⟨hnot, hnodup⟩ := List.nodup_cons.mp hnodup
      have hstep : measure (m, p) h = measureRest (m, p) h := by
        unfold measureRest
        rw [if_neg (Bool.eq_false_iff.mp (hbits h List.mem_cons_self))]
      rw [List.foldl_cons, List.foldl_cons, hstep]
      refine ih hnodup (measureRest (m, p) h).1 (measureRest (m, p) h).2 fun h' hh' => ?_
      rw [(measureRest_step m p h).2.2.2]
      dsimp only
      have hold := hbits h' (List.mem_cons_of_mem _ hh')
      unfold mark
      split
      · have hne : h' ≠ h := fun he => hnot (he ▸ hh')
        rw [testBit_mark, hold, decide_eq_false hne]
        rfl
      · exact hold

/-! ## The counters -/

/-- The counters count the log. -/
def Counted (m : Markouts) : Prop :=
  ∀ h < kHorizons.length, m.n[h]? = some ((m.measuredAt h).length % 2 ^ 64)

theorem Counted.accumulate (hm : m.Counted) (h : Nat) (f : Fill) (mid2 : Int) :
    (m.accumulate h f mid2).Counted := by
  intro j hj
  have hold := hm j hj
  unfold Markouts.accumulate measuredAt
  unfold measuredAt at hold
  rw [List.length_map] at hold
  rw [List.length_map, List.getElem?_modify, List.filter_append, List.length_append, hold]
  by_cases hjh : h = j
  · subst hjh
    rw [List.filter_cons_of_pos (by simp)]
    simp
  · rw [List.filter_cons_of_neg (by simpa using hjh)]
    simp [hjh]

theorem Counted.measureRest {x : Markouts × Pending} (hx : x.1.Counted) (h : Nat) :
    (measureRest x h).1.Counted := by
  unfold Markouts.measureRest measure
  split
  · exact hx
  · split
    · exact hx
    · exact hx.accumulate _ _ _

theorem Counted.foldl {hs : List Nat} {x : Markouts × Pending} (hx : x.1.Counted) :
    (hs.foldl Markouts.measureRest x).1.Counted := by
  induction hs generalizing x with
  | nil => exact hx
  | cons h hs ih => exact ih (hx.measureRest h)

theorem Counted.scan (hm : m.Counted) (left i : Nat) : (scan left i m).Counted := by
  induction left generalizing i m with
  | zero => exact hm
  | succ left ih =>
      unfold Markouts.scan
      split
      · exact hm
      · rename_i p _
        have hx := @Counted.foldl (List.range kHorizons.length) (m, p) hm
        generalize (List.range kHorizons.length).foldl Markouts.measureRest (m, p) = x at hx ⊢
        have hpending : ∀ l, ({ x.1 with pending := l } : Markouts).Counted := fun _ => hx
        dsimp only
        split
        · exact ih (hpending _) _
        · exact ih (hpending _) _

/-- **A new fill** is measured where it can be, and kept if a horizon is left. -/
theorem addFill_spec (m : Markouts) (f : Fill) : (m.addFill f).mids = m.mids
    ∧ (m.addFill f).pending = m.pending ++ (kept m.mids { fill := f, measured := 0 }).toList
    ∧ (m.addFill f).log = m.log ++ allNews m.mids { fill := f, measured := 0 }
    ∧ (m.Counted → (m.addFill f).Counted) := by
  unfold addFill
  dsimp only
  rw [foldl_measure List.nodup_range _ _ fun h _ => Nat.zero_testBit h]
  obtain ⟨hmids, hpending, hlog, hp⟩ := measureRest_all m { fill := f, measured := 0 }
  have hcounted : m.Counted → ((List.range kHorizons.length).foldl measureRest
      (m, { fill := f, measured := 0 })).1.Counted := fun hm => Counted.foldl hm
  generalize (List.range kHorizons.length).foldl measureRest (m, { fill := f, measured := 0 }) = x
    at hmids hpending hlog hp hcounted ⊢
  unfold kept
  dsimp only
  rw [hp]
  dsimp only
  by_cases hall : marked m.mids f 0 = kAllMeasured
  · rw [if_neg (not_not.mpr hall), if_pos hall]
    exact ⟨hmids, hpending.trans (List.append_nil _).symm, hlog, hcounted⟩
  · rw [if_pos hall, if_neg hall, hpending]
    exact ⟨hmids, rfl, hlog, hcounted⟩

/-! ## The scan -/

/-- What is removed is replaced by the last. -/
theorem swapRemove_append {α : Type} (a : List α) (x : α) (rest : List α) :
    ∃ r, swapRemove (a ++ x :: rest) a.length = a ++ r ∧ r.Perm rest := by
  unfold swapRemove
  rcases List.eq_nil_or_concat rest with rfl | ⟨rest, last, rfl⟩
  · refine ⟨[], ?_, List.Perm.refl _⟩
    rw [List.getLast?_concat]
    simp
  · refine ⟨last :: rest, ?_, ?_⟩
    · have hlast : (a ++ x :: (rest.concat last)).getLast? = some last := by
        rw [List.concat_eq_append, ← List.cons_append, ← List.append_assoc, List.getLast?_concat]
      rw [hlast]
      dsimp only
      rw [List.set_append_right _ _ (Nat.le_refl _), Nat.sub_self, List.set_cons_zero,
        List.concat_eq_append, ← List.cons_append, ← List.append_assoc, List.dropLast_concat]
    · rw [List.concat_eq_append]
      exact (List.perm_append_singleton last rest).symm

/-- **The scan** keeps what has a horizon left and logs what is found, each entry looked at once
although the list is mutated below it. -/
theorem scan_spec (rest a : List Pending) (m : Markouts) (hpending : m.pending = a ++ rest) :
    (scan rest.length a.length m).mids = m.mids
      ∧ ∃ r, (scan rest.length a.length m).pending = a ++ r
        ∧ r.Perm (rest.filterMap (kept m.mids))
        ∧ (scan rest.length a.length m).log.Perm (m.log ++ rest.flatMap (allNews m.mids)) := by
  generalize hleft : rest.length = left
  induction left generalizing rest a m with
  | zero =>
      obtain rfl := List.length_eq_zero_iff.mp hleft
      exact ⟨rfl, [], hpending, List.Perm.refl _, List.Perm.of_eq (List.append_nil _).symm⟩
  | succ left ih =>
      obtain ⟨p, rest, rfl⟩ := List.exists_cons_of_length_eq_add_one hleft
      have hget : m.pending[a.length]? = some p := by
        rw [hpending, List.getElem?_append_right (Nat.le_refl _), Nat.sub_self]
        rfl
      have hlen : rest.length = left := Nat.succ.inj hleft
      obtain ⟨hmids, hpend, hlog, hp⟩ := measureRest_all m p
      unfold scan
      rw [hget]
      dsimp only
      generalize (List.range kHorizons.length).foldl measureRest (m, p) = x at hmids hpend hlog hp ⊢
      obtain ⟨⟨mids₁, pending₁, n₁, log₁⟩, p₁⟩ := x
      dsimp only at hmids hpend hlog hp ⊢
      subst hmids hlog hp
      rw [hpend, hpending, List.set_append_right _ _ (Nat.le_refl _), Nat.sub_self,
        List.set_cons_zero, List.filterMap_cons, List.flatMap_cons]
      by_cases hall : marked m.mids p.fill p.measured = kAllMeasured
      · -- the entry goes, and the last takes its place
        have hkept : kept m.mids p = none := if_pos hall
        rw [if_pos hall, hkept]
        obtain ⟨r, hr, hperm⟩ := swapRemove_append a
          { p with measured := marked m.mids p.fill p.measured } rest
        rw [hr]
        obtain ⟨ihmids, r', ihpending, ihperm, ihlog⟩ := ih r a
          { mids := m.mids, pending := a ++ r, n := n₁, log := m.log ++ allNews m.mids p } rfl
          (hperm.length_eq.trans hlen)
        rw [List.append_assoc] at ihlog
        refine ⟨ihmids, r', ihpending, ihperm.trans (hperm.filterMap _), ihlog.trans ?_⟩
        exact ((hperm.flatMap_right _).append_left _).append_left _
      · -- the entry stays with its new mask
        have hkept : kept m.mids p = some { p with measured := marked m.mids p.fill p.measured } :=
          if_neg hall
        rw [if_neg hall, hkept]
        obtain ⟨ihmids, r', ihpending, ihperm, ihlog⟩ := ih rest
          (a ++ [{ p with measured := marked m.mids p.fill p.measured }])
          { mids := m.mids, n := n₁, log := m.log ++ allNews m.mids p
            pending := a ++ { p with measured := marked m.mids p.fill p.measured } :: rest }
          (by rw [List.append_assoc]; rfl) hlen
        rw [List.length_append] at ihmids ihpending ihlog
        rw [List.append_assoc] at ihpending ihlog
        exact ⟨ihmids, _, ihpending, ihperm.cons _, ihlog⟩

/-! ## More mids -/

/-- The later samples do not change what was found. -/
def Extends (mids mids' : List Sample) : Prop :=
  ∀ f h s, found mids f h = some s → found mids' f h = some s

theorem Extends.isSome (hext : Extends mids mids') (hs : (found mids f h).isSome) :
    (found mids' f h).isSome := by
  obtain ⟨s, hs⟩ := Option.isSome_iff_exists.mp hs
  rw [hext f h s hs]
  rfl

theorem marked_zero (mids : List Sample) (f : Fill) :
    marked mids f 0 = kAllMeasured ↔ ∀ h < kHorizons.length, (found mids f h).isSome := by
  constructor
  · intro heq h hh
    have hbit := testBit_marked mids f 0 h
    rw [heq, testBit_kAllMeasured, decide_eq_true hh, Nat.zero_testBit, Bool.false_or,
      Bool.true_and] at hbit
    exact hbit.symm
  · intro hall
    refine Nat.eq_of_testBit_eq fun j => ?_
    rw [testBit_marked, testBit_kAllMeasured, Nat.zero_testBit, Bool.false_or]
    by_cases hj : j < kHorizons.length
    · rw [hall j hj, Bool.and_true]
    · rw [decide_eq_false hj, Bool.false_and]

/-- Marks are not lost. -/
theorem marked_marked (hext : Extends mids mids') (f : Fill) :
    marked mids' f (marked mids f 0) = marked mids' f 0 := by
  refine Nat.eq_of_testBit_eq fun j => ?_
  rw [testBit_marked, testBit_marked, testBit_marked, Nat.zero_testBit, Bool.false_or,
    Bool.false_or]
  by_cases hfound : (found mids f j).isSome
  · rw [hfound, hext.isSome hfound, Bool.and_true, Bool.or_self]
  · rw [Bool.eq_false_iff.mpr hfound, Bool.and_false, Bool.false_or]

/-- What stays pending after all samples stays pending after the first of them. -/
theorem kept_bind_kept (hext : Extends mids mids') (f : Fill) :
    (kept mids { fill := f, measured := 0 }).bind (kept mids')
      = kept mids' { fill := f, measured := 0 } := by
  unfold kept
  dsimp only
  by_cases hall : marked mids f 0 = kAllMeasured
  · have hall' : marked mids' f 0 = kAllMeasured :=
      (marked_zero mids' f).mpr fun h hh => hext.isSome ((marked_zero mids f).mp hall h hh)
    rw [if_pos hall, if_pos hall']
    rfl
  · rw [if_neg hall, Option.bind_some]
    dsimp only
    rw [marked_marked hext f]

/-- Two parts of a list, told apart element by element. -/
theorem filterMap_split {α β : Type} {g a b : α → Option β} (l : List α)
    (h : ∀ x ∈ l, (g x = a x ∧ b x = none) ∨ (g x = b x ∧ a x = none)) :
    (l.filterMap g).Perm (l.filterMap a ++ l.filterMap b) := by
  induction l with
  | nil => exact List.Perm.refl _
  | cons x l ih =>
      have ih := ih fun y hy => h y (List.mem_cons_of_mem _ hy)
      rw [List.filterMap_cons, List.filterMap_cons, List.filterMap_cons]
      rcases h x List.mem_cons_self with ⟨hg, hnone⟩ | ⟨hg, hnone⟩
      · rw [hg, hnone]
        cases a x with
        | none => exact ih
        | some y => exact ih.cons y
      · rw [hg, hnone]
        cases b x with
        | none => exact ih
        | some y => exact (ih.cons y).trans List.perm_middle.symm

/-- **What a fill gets from all samples** is what it gets from the first, and what it gets later
while it is pending. -/
theorem allNews_split (hext : Extends mids mids') (f : Fill) :
    (allNews mids' { fill := f, measured := 0 }).Perm
      (allNews mids { fill := f, measured := 0 }
        ++ (kept mids { fill := f, measured := 0 }).toList.flatMap (allNews mids')) := by
  unfold kept
  dsimp only
  by_cases hall : marked mids f 0 = kAllMeasured
  · have hfound := (marked_zero mids f).mp hall
    rw [if_pos hall, Option.toList_none, List.flatMap_nil, List.append_nil]
    refine List.Perm.of_eq (List.filterMap_congr fun h hh => ?_)
    obtain ⟨s, hs⟩ := Option.isSome_iff_exists.mp (hfound h (List.mem_range.mp hh))
    unfold news
    dsimp only
    rw [hext f h s hs, hs]
  · rw [if_neg hall, Option.toList_some, List.flatMap_singleton]
    refine filterMap_split _ fun h hh => ?_
    have hbit : (marked mids f 0).testBit h = (found mids f h).isSome := by
      rw [testBit_marked, Nat.zero_testBit, Bool.false_or, decide_eq_true (List.mem_range.mp hh),
        Bool.true_and]
    unfold news
    dsimp only
    rw [hbit, Nat.zero_testBit, if_neg Bool.false_ne_true, if_neg Bool.false_ne_true]
    cases hs : found mids f h with
    | none => exact Or.inr ⟨rfl, rfl⟩
    | some s =>
        rw [hext f h s hs]
        exact Or.inl ⟨rfl, rfl⟩

theorem flatMap_allNews (hext : Extends mids mids') (fills : List Fill) :
    (fills.flatMap fun f => allNews mids' { fill := f, measured := 0 }).Perm
      ((fills.flatMap fun f => allNews mids { fill := f, measured := 0 })
        ++ (fills.filterMap fun f => kept mids { fill := f, measured := 0 }).flatMap
          (allNews mids')) := by
  have hpending : (fills.filterMap fun f => kept mids { fill := f, measured := 0 }).flatMap
      (allNews mids') = fills.flatMap fun f =>
        (kept mids { fill := f, measured := 0 }).toList.flatMap (allNews mids') := by
    induction fills with
    | nil => rfl
    | cons f fills ih =>
        rw [List.filterMap_cons, List.flatMap_cons, ← ih]
        cases kept mids { fill := f, measured := 0 } with
        | none => rfl
        | some p =>
            rw [Option.toList_some, List.flatMap_singleton]
            rfl
  rw [hpending]
  exact (List.Perm.flatMap_left _ fun f _ => allNews_split hext f).trans
    (List.flatMap_append_perm _ _ _).symm

/-! ## Runs -/

/-- **Where each fill stands**: what its samples give it is in the log, and it is pending if a
horizon has none. -/
structure Attributed (m : Markouts) (fills : List Fill) : Prop where
  pending : m.pending.Perm (fills.filterMap fun f => kept m.mids { fill := f, measured := 0 })
  log : m.log.Perm (fills.flatMap fun f => allNews m.mids { fill := f, measured := 0 })
  counted : m.Counted

theorem attributed_init : init.Attributed [] where
  pending := List.Perm.refl _
  log := List.Perm.refl _
  counted := by
    unfold Counted
    decide

theorem Attributed.addFill {fills : List Fill} (hm : m.Attributed fills) (f : Fill) :
    (m.addFill f).Attributed (fills ++ [f]) := by
  obtain ⟨hmids, hpending, hlog, hcounted⟩ := addFill_spec m f
  refine ⟨?_, ?_, hcounted hm.counted⟩
  · rw [hmids, hpending, List.filterMap_append]
    refine (hm.pending.append_right _).trans (List.Perm.of_eq (congrArg _ ?_))
    rw [List.filterMap_cons]
    cases kept m.mids { fill := f, measured := 0 } with
    | none => rfl
    | some p => rfl
  · rw [hmids, hlog, List.flatMap_append, List.flatMap_singleton]
    exact hm.log.append_right _

theorem Attributed.addMid {fills : List Fill} (hm : m.Attributed fills) (s : Sample)
    (hext : Extends m.mids (m.mids ++ [s])) :
    (m.addMid s).mids = m.mids ++ [s] ∧ (m.addMid s).Attributed fills := by
  obtain ⟨hmids, r, hpending, hperm, hlog⟩ :=
    scan_spec m.pending [] { m with mids := m.mids ++ [s] } rfl
  have hcounted : ({ m with mids := m.mids ++ [s] } : Markouts).Counted := hm.counted
  have hmids : (m.addMid s).mids = m.mids ++ [s] := hmids
  refine ⟨hmids, ?_, ?_, hcounted.scan _ _⟩
  · rw [hmids]
    have hpending : (m.addMid s).pending = r := hpending
    rw [hpending]
    refine hperm.trans ((hm.pending.filterMap _).trans (List.Perm.of_eq ?_))
    rw [List.filterMap_filterMap]
    exact List.filterMap_congr fun f _ => kept_bind_kept hext f
  · rw [hmids]
    refine hlog.trans (List.Perm.trans ?_ (flatMap_allNews hext fills).symm)
    exact hm.log.append (hm.pending.flatMap_right _)

theorem found_eq_find? (hsorted : mids.Pairwise fun s t => s.ts ≤ t.ts) (f : Fill) (h : Nat) :
    found mids f h
      = mids.find? fun s => decide ((f.ts + kHorizons.getD h 0) % 2 ^ 64 ≤ s.ts) := by
  unfold found sampleAt
  rw [LowerBound.lowerBound?_eq_find?]
  · congr 1
    funext s
    rw [← decide_not]
    exact decide_eq_decide.mpr Nat.not_lt
  · refine hsorted.imp fun hst hbefore => ?_
    exact decide_eq_true (Nat.lt_of_le_of_lt hst (of_decide_eq_true hbefore))

theorem extends_concat {s : Sample} (hsorted : (mids ++ [s]).Pairwise fun s t => s.ts ≤ t.ts) :
    Extends mids (mids ++ [s]) := by
  intro f h x hx
  rw [found_eq_find? (List.pairwise_append.mp hsorted).1] at hx
  rw [found_eq_find? hsorted, List.find?_append, hx]
  rfl

/-- **A run** attributes the fills that were added to the mids that were. -/
theorem attributed_run (calls : List Call) {fills : List Fill} (hm : m.Attributed fills)
    (hsorted : (m.mids ++ calls.filterMap Call.mid?).Pairwise fun s t => s.ts ≤ t.ts) :
    (m.run calls).mids = m.mids ++ calls.filterMap Call.mid?
      ∧ (m.run calls).Attributed (fills ++ calls.filterMap Call.fill?) := by
  induction calls generalizing m fills with
  | nil =>
      rw [List.filterMap_nil, List.filterMap_nil, List.append_nil, List.append_nil]
      exact ⟨rfl, hm⟩
  | cons c calls ih =>
      cases c with
      | mid s =>
          have hsplit : m.mids ++ (Call.mid s :: calls).filterMap Call.mid?
              = (m.mids ++ [s]) ++ calls.filterMap Call.mid? := by
            rw [List.append_assoc]
            rfl
          rw [hsplit] at hsorted ⊢
          obtain ⟨hmids, hstep⟩ :=
            hm.addMid s (extends_concat (List.pairwise_append.mp hsorted).1)
          rw [← hmids] at hsorted ⊢
          exact ih hstep hsorted
      | fill f =>
          have hsplit : fills ++ (Call.fill f :: calls).filterMap Call.fill?
              = (fills ++ [f]) ++ calls.filterMap Call.fill? := by
            rw [List.append_assoc]
            rfl
          have hmids : m.mids ++ (Call.fill f :: calls).filterMap Call.mid?
              = (m.addFill f).mids ++ calls.filterMap Call.mid? := by
            rw [(addFill_spec m f).1]
            rfl
          rw [hmids] at hsorted ⊢
          rw [hsplit]
          exact ih (hm.addFill f) hsorted

/-! ## What is measured -/

/-- The first sample at or after the horizon. -/
def firstMid (mids : List Sample) (f : Fill) (h : Nat) : Option Sample :=
  mids.find? fun s => decide (f.ts + kHorizons.getD h 0 ≤ s.ts)

theorem filter_news {hs : List Nat} (hnodup : hs.Nodup) (mids : List Sample) (p : Pending)
    (h : Nat) : (hs.filterMap (news mids p)).filter (fun x => x.horizon = h)
      = if h ∈ hs then (news mids p h).toList else [] := by
  induction hs with
  | nil => rfl
  | cons h' hs ih =>
      obtain ⟨hnot, hrest⟩ := List.nodup_cons.mp hnodup
      have hhorizon : ∀ x, news mids p h' = some x → x.horizon = h' := by
        intro x hx
        unfold news at hx
        split at hx
        · contradiction
        · obtain ⟨s, -, rfl⟩ := Option.map_eq_some_iff.mp hx
          rfl
      rw [List.filterMap_cons]
      by_cases heq : h = h'
      · subst heq
        rw [if_pos List.mem_cons_self]
        cases hx : news mids p h with
        | none => rw [ih hrest, if_neg hnot]; rfl
        | some x =>
            rw [List.filter_cons_of_pos (by simpa using hhorizon x hx), ih hrest, if_neg hnot]
            rfl
      · have hmem : (h ∈ h' :: hs) = (h ∈ hs) := by
          rw [List.mem_cons, eq_false heq, false_or]
        simp only [hmem]
        cases hx : news mids p h' with
        | none => exact ih hrest
        | some x =>
            have hx := hhorizon x hx
            rw [List.filter_cons_of_neg (by simpa [hx] using fun he => heq he.symm)]
            exact ih hrest

/-- **The log at one horizon** has the fills that found a sample. -/
theorem measuredAt_perm {fills : List Fill} (hm : m.Attributed fills) (hh : h < kHorizons.length) :
    (m.measuredAt h).Perm
      (fills.filterMap fun f => (found m.mids f h).map fun s => (f, s.mid2)) := by
  refine ((hm.log.filter _).map _).trans (List.Perm.of_eq ?_)
  generalize m.mids = mids
  clear hm
  induction fills with
  | nil => rfl
  | cons f fills ih =>
      have hmem : h ∈ List.range kHorizons.length := List.mem_range.mpr hh
      rw [List.flatMap_cons, List.filter_append, List.map_append, ih]
      unfold allNews
      rw [filter_news List.nodup_range, if_pos hmem, List.filterMap_cons]
      unfold news
      dsimp only
      rw [Nat.zero_testBit, if_neg Bool.false_ne_true]
      cases found mids f h with
      | none => rfl
      | some s => rfl

/-- An order of arrival of the mids and the fills. -/
structure Interleaves (mids : List Sample) (fills : List Fill) (calls : List Call) : Prop where
  mids : calls.filterMap Call.mid? = mids
  fills : (calls.filterMap Call.fill?).Perm fills

theorem run_measuredAt {fills : List Fill} {calls : List Call}
    (hsorted : mids.Pairwise fun s t => s.ts ≤ t.ts) (hfills : ∀ f ∈ fills, f.ts < 2 ^ 63)
    (hcalls : Interleaves mids fills calls) (hh : h < kHorizons.length) :
    ((init.run calls).measuredAt h).Perm
        (fills.filterMap fun f => (firstMid mids f h).map fun s => (f, s.mid2))
      ∧ (init.run calls).count h = ((init.run calls).measuredAt h).length % 2 ^ 64 := by
  have hmids : init.mids ++ calls.filterMap Call.mid? = mids := hcalls.mids
  obtain ⟨hrun, hm⟩ := attributed_run calls attributed_init (by rw [hmids]; exact hsorted)
  rw [hmids] at hrun
  refine ⟨(measuredAt_perm hm hh).trans ?_, ?_⟩
  · rw [List.nil_append]
    refine (hcalls.fills.filterMap _).trans (List.Perm.of_eq (List.filterMap_congr fun f hf => ?_))
    rw [hrun, found_eq_find? hsorted]
    -- nothing wraps: the horizons are small
    have hlt := hfills f hf
    have hhorizon : kHorizons.getD h 0 ≤ 100000 := by
      revert h
      decide
    rw [Nat.mod_eq_of_lt (by omega)]
    rfl
  · unfold count
    rw [List.getD_eq_getElem?_getD, hm.counted h hh]
    rfl

/-- **Markouts do not depend on the order of arrival.** For mids in order of time and any fills,
however the two arrive: at each horizon no fill is measured more often than it was added, it is
measured exactly if a sample has the horizon behind it, and then against the first of these; and
the pairs measured, and their number, are the same for every such order. -/
theorem markouts_order_free (mids : List Sample) (fills : List Fill) (calls : List Call)
    (hsorted : mids.Pairwise fun s t => s.ts ≤ t.ts) (hfills : ∀ f ∈ fills, f.ts < 2 ^ 63)
    (hcalls : Interleaves mids fills calls) (h : Nat) (hh : h < kHorizons.length) :
    (∀ f, ((init.run calls).measuredAt h).countP (fun x => x.1 = f) ≤ fills.count f)
      ∧ (∀ f ∈ fills, (∃ mid2, (f, mid2) ∈ (init.run calls).measuredAt h)
          ↔ ∃ s ∈ mids, f.ts + kHorizons.getD h 0 ≤ s.ts)
      ∧ (∀ f mid2, (f, mid2) ∈ (init.run calls).measuredAt h →
          ∃ s, firstMid mids f h = some s ∧ s.mid2 = mid2)
      ∧ (init.run calls).count h = ((init.run calls).measuredAt h).length % 2 ^ 64
      ∧ ∀ calls', Interleaves mids fills calls' →
          ((init.run calls').measuredAt h).Perm ((init.run calls).measuredAt h)
            ∧ (init.run calls').count h = (init.run calls).count h := by
  -- What is measured is, up to order, each fill with the first sample past its horizon; nothing of
  -- that depends on how the calls were interleaved.
  obtain ⟨hperm, hcount⟩ := run_measuredAt hsorted hfills hcalls hh
  have hmem : ∀ f mid2, (f, mid2) ∈ (init.run calls).measuredAt h
      ↔ f ∈ fills ∧ ∃ s, firstMid mids f h = some s ∧ s.mid2 = mid2 := by
    intro f mid2
    rw [hperm.mem_iff, List.mem_filterMap]
    constructor
    · intro ⟨g, hg, hmap⟩
      obtain ⟨s, hs, hpair⟩ := Option.map_eq_some_iff.mp hmap
      cases hpair
      exact ⟨hg, s, hs, rfl⟩
    · intro ⟨hf, s, hs, hmid⟩
      refine ⟨f, hf, ?_⟩
      rw [hs, ← hmid]
      rfl
  refine ⟨fun f => ?_, fun f hf => ?_, fun f mid2 hx => ((hmem f mid2).mp hx).2, hcount, ?_⟩
  · rw [hperm.countP_eq]
    clear hperm hmem hcount hcalls
    induction fills with
    | nil => exact Nat.le_refl 0
    | cons g fills ih =>
        have ih := ih fun f hf => hfills f (List.mem_cons_of_mem _ hf)
        rw [List.filterMap_cons, List.count_cons]
        cases firstMid mids g h with
        | none => exact Nat.le_add_right_of_le ih
        | some s =>
            dsimp only [Option.map_some]
            rw [List.countP_cons]
            refine Nat.add_le_add ih (Nat.le_of_eq ?_)
            simp [beq_iff_eq]
  · have hfirst : (∃ mid2, (f, mid2) ∈ (init.run calls).measuredAt h)
        ↔ (firstMid mids f h).isSome := by
      rw [Option.isSome_iff_exists]
      constructor
      · intro ⟨mid2, hx⟩
        obtain ⟨s, hs, -⟩ := ((hmem f mid2).mp hx).2
        exact ⟨s, hs⟩
      · intro ⟨s, hs⟩
        exact ⟨s.mid2, (hmem f s.mid2).mpr ⟨hf, s, hs, rfl⟩⟩
    rw [hfirst]
    unfold firstMid
    rw [List.find?_isSome]
    simp only [decide_eq_true_eq]
  · intro calls' hcalls'
    obtain ⟨hperm', hcount'⟩ := run_measuredAt hsorted hfills hcalls' hh
    have hsame := hperm'.trans hperm.symm
    exact ⟨hsame, by rw [hcount', hcount, hsame.length_eq]⟩

/-- A fill that waits for the second of two mids. -/
def waiting : Fill := { ts := 500, price := 7, side := 66, nth := 0 }

/-- **A fill between two mids** and the same fill before both. -/
theorem markouts_order_free_waiting :
    ((init.run [.fill waiting, .mid ⟨1200, 14⟩, .mid ⟨1600, 16⟩]).measuredAt 0).Perm
      ((init.run [.mid ⟨1200, 14⟩, .mid ⟨1600, 16⟩, .fill waiting]).measuredAt 0) :=
  ((markouts_order_free [⟨1200, 14⟩, ⟨1600, 16⟩] [waiting]
    [.mid ⟨1200, 14⟩, .mid ⟨1600, 16⟩, .fill waiting] (by decide) (by decide)
    ⟨rfl, List.Perm.refl _⟩ 0 (by decide)).2.2.2.2
    [.fill waiting, .mid ⟨1200, 14⟩, .mid ⟨1600, 16⟩] ⟨rfl, List.Perm.refl _⟩).1

end Markouts

end Mog
