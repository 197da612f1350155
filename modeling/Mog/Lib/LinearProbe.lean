import Mathlib.Data.Finset.Card
import Mathlib.Order.Interval.Finset.Nat
import Mathlib.Logic.Function.Basic
import Mathlib.Tactic.SplitIfs
import Mathlib.Tactic.ByContra
import Mathlib.Tactic.Push

/-!
# Open addressing with linear probing and backward-shift deletion

A table is a memory `T : Nat → ε` of which the first `cap` cells count. A cell
whose key is `nil` is empty. A key is looked for from its home cell onwards,
cyclically, until it or an empty cell is met; deletion leaves no tombstone but
shifts later entries of the cluster back into the hole.

The invariant says that no empty cell lies between an entry's home and the cell
it sits in. Everything cyclic is expressed through `gap`, the distance from one
cell to another walking forwards, so that the arithmetic is left to `omega`.
-/

namespace LinearProbe

/-- The forward distance from cell `a` to cell `b` in a ring of `cap` cells. -/
def gap (cap a b : Nat) : Nat := if a ≤ b then b - a else b + cap - a

theorem gap_self (cap a : Nat) : gap cap a a = 0 := by simp [gap]

theorem gap_lt {cap a b : Nat} (ha : a < cap) (hb : b < cap) : gap cap a b < cap := by
  unfold gap; split <;> omega

/-- Two cells at the same distance from a third are the same cell. -/
theorem gap_inj {cap a b c : Nat} (ha : a < cap) (hb : b < cap) (hc : c < cap)
    (h : gap cap a b = gap cap a c) : b = c := by
  unfold gap at h; split_ifs at h <;> omega

theorem mod_succ_lt {cap i : Nat} (hi : i < cap) : (i + 1) % cap < cap :=
  Nat.mod_lt _ (by omega)

theorem mod_succ_eq {cap i : Nat} (hi : i < cap) :
    (i + 1) % cap = if i + 1 = cap then 0 else i + 1 := by
  split
  · rename_i h; rw [h, Nat.mod_self]
  · exact Nat.mod_eq_of_lt (by omega)

/-- One step forward lengthens the distance by one, unless it closes the ring. -/
theorem gap_succ {cap a i : Nat} (ha : a < cap) (hi : i < cap) (h : gap cap a i + 1 < cap) :
    gap cap a ((i + 1) % cap) = gap cap a i + 1 := by
  rw [mod_succ_eq hi]
  unfold gap at h ⊢
  split_ifs at h ⊢ <;> omega

/-- One step forward shortens the distance to any cell not yet reached. -/
theorem gap_succ_left {cap i e : Nat} (hi : i < cap) (he : e < cap) (h : i ≠ e) :
    gap cap ((i + 1) % cap) e + 1 = gap cap i e := by
  rw [mod_succ_eq hi]
  unfold gap
  split_ifs <;> omega

/-- The cell reached in `j` steps lies at distance `j`. -/
theorem gap_steps {cap a j : Nat} (ha : a < cap) (hj : j < cap) : gap cap a ((a + j) % cap) = j := by
  by_cases h : a + j < cap
  · rw [Nat.mod_eq_of_lt h]
    unfold gap
    split <;> omega
  · rw [Nat.mod_eq_sub_mod (by omega), Nat.mod_eq_of_lt (by omega)]
    unfold gap
    split <;> omega

/-- Every cell is reached in as many steps as it is distant. -/
theorem steps_gap {cap a x : Nat} (ha : a < cap) (hx : x < cap) : (a + gap cap a x) % cap = x := by
  have hlt := gap_lt ha hx
  exact gap_inj ha (Nat.mod_lt _ (by omega)) hx (gap_steps ha hlt)

/-- The scan's test, read as a statement about distances: `h` lies in the cyclic
interval that starts just after `i` and ends at `j`. -/
theorem in_gap_iff {cap i j h : Nat} (hi : i < cap) (hj : j < cap) (hh : h < cap) (hne : i ≠ j) :
    (if i < j then i < h ∧ h ≤ j else i < h ∨ h ≤ j) ↔ h ≠ i ∧ gap cap i h ≤ gap cap i j := by
  unfold gap
  split_ifs <;> omega

/-- From a home inside the interval the way to `x` does not lead over the hole. -/
theorem clear_of_in_gap {cap i x h : Nat} (hx : x < cap) (hh : h < cap)
    (hne : h ≠ i) (hle : gap cap i h ≤ gap cap i x) : ¬ gap cap h i < gap cap h x := by
  unfold gap at *
  split_ifs at * <;> omega

/-- From a home outside the interval it does. -/
theorem over_of_not_in_gap {cap i x h : Nat} (hi : i < cap) (hh : h < cap)
    (hne : x ≠ i) (hout : ¬ (h ≠ i ∧ gap cap i h ≤ gap cap i x)) : gap cap h i < gap cap h x := by
  by_cases heq : h = i
  · subst heq
    rw [gap_self]
    unfold gap
    split_ifs <;> omega
  · have hlt : gap cap i x < gap cap i h := Nat.lt_of_not_le fun hle => hout ⟨heq, hle⟩
    unfold gap at *
    split_ifs at * <;> omega

/-- A way that leads over the hole and past the scan leads over the scan's next cell. -/
theorem over_next {cap i j x h : Nat} (hi : i < cap) (hj : j < cap) (hx : x < cap) (hh : h < cap)
    (hover : gap cap h i < gap cap h x) (hpast : gap cap i j < gap cap i x) :
    gap cap h j < gap cap h x := by
  unfold gap at *
  split_ifs at * <;> omega

variable {ε κ : Type} [DecidableEq κ]

/-- What a table is made of: its size, how to read a cell's key, the key that
marks an empty cell, and each key's home cell. -/
structure Shape (ε κ : Type) where
  cap : Nat
  key : ε → κ
  nil : κ
  home : κ → Nat

namespace Shape

variable (S : Shape ε κ)

/-- The cell holds an entry. -/
def Occ (T : Nat → ε) (i : Nat) : Prop := S.key (T i) ≠ S.nil

instance (T : Nat → ε) (i : Nat) : Decidable (S.Occ T i) := inferInstanceAs (Decidable (_ ≠ _))

/-- Probe from cell `i` for `k`: the first cell that is empty or holds `k`. -/
def find (T : Nat → ε) (k : κ) : Nat → Nat → Nat
  | 0, i => i
  | fuel + 1, i =>
      if S.key (T i) = S.nil then i
      else if S.key (T i) = k then i
      else find T k fuel ((i + 1) % S.cap)

/-- Close the hole at `i`, the scan standing at `j`: an entry whose home does not
lie in the cyclic interval from just after the hole to the entry moves into the
hole and leaves its own cell as the new hole. -/
def shift (T : Nat → ε) : Nat → Nat → Nat → (Nat → ε) × Nat
  | 0, i, _ => (T, i)
  | fuel + 1, i, j =>
      let j := (j + 1) % S.cap
      if S.key (T j) = S.nil then (T, i)
      else
        let h := S.home (S.key (T j))
        if (if i < j then i < h ∧ h ≤ j else i < h ∨ h ≤ j) then shift T fuel i j
        else shift (Function.update T i (T j)) fuel j j

/-- The number of occupied cells. -/
def size (T : Nat → ε) : Nat := ((Finset.range S.cap).filter (fun i => S.Occ T i)).card

/-- The table invariant. -/
structure Inv (T : Nat → ε) : Prop where
  /-- Every home cell is a cell of the table. -/
  home_lt : ∀ k, S.home k < S.cap
  /-- No key sits in two cells. -/
  inj : ∀ x y, x < S.cap → y < S.cap → S.Occ T x → S.key (T x) = S.key (T y) → x = y
  /-- No empty cell lies between an entry's home and its cell. -/
  path : ∀ x, x < S.cap → S.Occ T x → ∀ y, y < S.cap →
    gap S.cap (S.home (S.key (T x))) y < gap S.cap (S.home (S.key (T x))) x → S.Occ T y

variable {S}

/-! ## Probing -/

/-- What a finished probe for `k` has established about the cell `p` it stopped at:
the cells passed are occupied, and `p` holds `k` unless no cell does. -/
structure Found (S : Shape ε κ) (T : Nat → ε) (k : κ) (p : Nat) : Prop where
  lt : p < S.cap
  passed : ∀ y, y < S.cap → gap S.cap (S.home k) y < gap S.cap (S.home k) p → S.Occ T y
  stop : S.key (T p) = k ∨ ¬ S.Occ T p
  absent : S.key (T p) ≠ k → ∀ x, x < S.cap → S.Occ T x → S.key (T x) ≠ k

/-- **The probe is exact.** With an empty cell left, the probe for `k` stops within
`cap` cells, at the one cell holding `k` or, when no cell does, at an empty cell. -/
theorem find_spec {T : Nat → ε} (hinv : S.Inv T) {e : Nat} (he : e < S.cap) (hempty : ¬ S.Occ T e)
    {k : κ} : Found S T k (S.find T k S.cap (S.home k)) := by
  -- everything already passed is occupied by other keys, and the fuel covers the rest
  have walk : ∀ (fuel i : Nat), i < S.cap → S.cap ≤ fuel + gap S.cap (S.home k) i →
      (∀ y, y < S.cap → gap S.cap (S.home k) y < gap S.cap (S.home k) i →
        S.Occ T y ∧ S.key (T y) ≠ k) →
      Found S T k (S.find T k fuel i) := by
    intro fuel
    induction fuel with
    | zero =>
        intro i hi hfuel _
        have := gap_lt (hinv.home_lt k) hi
        omega
    | succ fuel ih =>
        intro i hi hfuel hseen
        rw [find]
        by_cases hnil : S.key (T i) = S.nil
        · rw [if_pos hnil]
          refine ⟨hi, fun y hy h => (hseen y hy h).1, Or.inr (fun h => h hnil), ?_⟩
          intro _ x hx hocc hkey
          have hpath := hinv.path x hx hocc i hi
          rw [hkey] at hpath
          rcases Nat.lt_trichotomy (gap S.cap (S.home k) x) (gap S.cap (S.home k) i) with h | h | h
          · exact (hseen x hx h).2 hkey
          · exact hocc (gap_inj (hinv.home_lt k) hx hi h ▸ hnil)
          · exact hpath h hnil
        · rw [if_neg hnil]
          by_cases hk : S.key (T i) = k
          · rw [if_pos hk]
            exact ⟨hi, fun y hy h => (hseen y hy h).1, Or.inl hk, fun h => absurd hk h⟩
          · rw [if_neg hk]
            have hlt : gap S.cap (S.home k) i + 1 < S.cap := by
              by_contra hge
              refine hempty (hseen e he ?_).1
              have h1 := gap_lt (hinv.home_lt k) he
              rcases Nat.lt_or_ge (gap S.cap (S.home k) e) (gap S.cap (S.home k) i) with h | h
              · exact h
              · have hei : e = i := gap_inj (hinv.home_lt k) he hi (by omega)
                exact absurd (hei ▸ hnil) (not_not.mpr (not_not.mp hempty))
            have hnext := gap_succ (hinv.home_lt k) hi hlt
            refine ih _ (mod_succ_lt hi) (by omega) ?_
            intro y hy hgap
            rcases Nat.lt_or_ge (gap S.cap (S.home k) y) (gap S.cap (S.home k) i) with h | h
            · exact hseen y hy h
            · have hyi : y = i := gap_inj (hinv.home_lt k) hy hi (by omega)
              subst hyi
              exact ⟨hnil, hk⟩
  exact walk S.cap (S.home k) (hinv.home_lt k) (by omega) (fun y _ h => by
    rw [gap_self] at h; omega)

/-! ## Insertion -/

omit [DecidableEq κ] in
theorem occ_update {T : Nat → ε} {p : Nat} {v : ε} (hv : S.key v ≠ S.nil) {x : Nat} :
    S.Occ (Function.update T p v) x ↔ x = p ∨ S.Occ T x := by
  unfold Occ
  by_cases h : x = p
  · subst h; simp [hv]
  · simp [h]

omit [DecidableEq κ] in
/-- **Insertion keeps the invariant**: an entry may be written into the empty cell
its own probe stopped at. -/
theorem insert_inv {T : Nat → ε} (hinv : S.Inv T) {v : ε} {p : Nat} (hv : S.key v ≠ S.nil)
    (hf : Found S T (S.key v) p) (hp : ¬ S.Occ T p) : S.Inv (Function.update T p v) := by
  have habs : ∀ x, x < S.cap → S.Occ T x → S.key (T x) ≠ S.key v :=
    hf.absent (fun h => hp (by unfold Occ; rw [h]; exact hv))
  refine ⟨hinv.home_lt, ?_, ?_⟩
  · intro x y hx hy hocc hkey
    by_cases hxp : x = p <;> by_cases hyp : y = p
    · rw [hxp, hyp]
    · subst hxp
      simp only [Function.update_self, Function.update_of_ne hyp] at hkey
      exact absurd hkey.symm (habs y hy (by unfold Occ; rw [← hkey]; exact hv))
    · subst hyp
      simp only [Function.update_self, Function.update_of_ne hxp] at hkey
      exact absurd hkey (habs x hx (((occ_update hv).mp hocc).resolve_left hxp))
    · simp only [Function.update_of_ne hxp, Function.update_of_ne hyp] at hkey
      exact hinv.inj x y hx hy (((occ_update hv).mp hocc).resolve_left hxp) hkey
  · intro x hx hocc y hy hgap
    refine (occ_update hv).mpr ?_
    by_cases hxp : x = p
    · subst hxp
      rw [Function.update_self] at hgap
      exact Or.inr (hf.passed y hy hgap)
    · rw [Function.update_of_ne hxp] at hgap
      exact Or.inr (hinv.path x hx (((occ_update hv).mp hocc).resolve_left hxp) y hy hgap)

omit [DecidableEq κ] in
/-- The invariant speaks of the keys alone. -/
theorem Inv.of_keys {T T' : Nat → ε} (hinv : S.Inv T) (hkeys : ∀ x, S.key (T' x) = S.key (T x)) :
    S.Inv T' := by
  refine ⟨hinv.home_lt, fun x y hx hy hocc hkey => ?_, fun x hx hocc y hy hgap => ?_⟩
  · unfold Occ at hocc
    rw [hkeys] at hocc
    rw [hkeys, hkeys] at hkey
    exact hinv.inj x y hx hy hocc hkey
  · unfold Occ at hocc ⊢
    rw [hkeys] at hocc hgap ⊢
    exact hinv.path x hx hocc y hy hgap

/-- The keys in the table. -/
def keys (S : Shape ε κ) (T : Nat → ε) : Finset κ :=
  ((Finset.range S.cap).filter (fun i => S.Occ T i)).image (fun i => S.key (T i))

theorem mem_keys {T : Nat → ε} {k : κ} :
    k ∈ S.keys T ↔ ∃ x, x < S.cap ∧ S.Occ T x ∧ S.key (T x) = k := by
  simp [keys, and_assoc]

/-- With distinct keys, cells and keys are equally many. -/
theorem size_eq_card_keys {T : Nat → ε} (hinv : S.Inv T) : S.size T = (S.keys T).card := by
  unfold size keys
  rw [Finset.card_image_of_injOn]
  intro x hx y hy h
  simp only [Finset.coe_filter, Finset.mem_range, Set.mem_ofPred_eq] at hx hy
  exact hinv.inj x y hx.1 hy.1 hx.2 h

/-- Fewer entries than cells leave an empty cell. -/
theorem exists_empty {T : Nat → ε} (h : S.size T < S.cap) : ∃ e, e < S.cap ∧ ¬ S.Occ T e := by
  by_contra hall
  push Not at hall
  have hfull : (Finset.range S.cap).filter (fun i => S.Occ T i) = Finset.range S.cap :=
    Finset.filter_true_of_mem (fun i hi => hall i (Finset.mem_range.mp hi))
  rw [size, hfull, Finset.card_range] at h
  omega

/-! ## Deletion -/

/-- The state of a deletion under way: `i` is the hole, whose content no longer
counts, and the cells after it up to the scan `j` are occupied and reachable
without stepping over the hole. -/
structure Hole (S : Shape ε κ) (T : Nat → ε) (i j : Nat) : Prop where
  hole_lt : i < S.cap
  scan_lt : j < S.cap
  between : ∀ y, y < S.cap → y ≠ i → gap S.cap i y ≤ gap S.cap i j → S.Occ T y
  inj : ∀ x y, x < S.cap → y < S.cap → x ≠ i → y ≠ i → S.Occ T x →
    S.key (T x) = S.key (T y) → x = y
  path : ∀ x, x < S.cap → x ≠ i → S.Occ T x → ∀ y, y < S.cap → y ≠ i →
    gap S.cap (S.home (S.key (T x))) y < gap S.cap (S.home (S.key (T x))) x → S.Occ T y
  clear : ∀ x, x < S.cap → x ≠ i → gap S.cap i x ≤ gap S.cap i j →
    ¬ gap S.cap (S.home (S.key (T x))) i < gap S.cap (S.home (S.key (T x))) x

omit [DecidableEq κ] in
theorem hole_init {T : Nat → ε} (hinv : S.Inv T) {i : Nat} (hi : i < S.cap) : Hole S T i i where
  hole_lt := hi
  scan_lt := hi
  between := by
    intro y hy hne h
    rw [gap_self, Nat.le_zero] at h
    exact absurd (gap_inj hi hy hi (by rw [h, gap_self])) hne
  inj := fun x y hx hy _ _ => hinv.inj x y hx hy
  path := fun x hx _ hocc y hy _ => hinv.path x hx hocc y hy
  clear := by
    intro x hx hne h
    rw [gap_self, Nat.le_zero] at h
    exact absurd (gap_inj hi hx hi (by rw [h, gap_self])) hne

omit [DecidableEq κ] in
/-- The cell after the scan, while the scan has not come round to the hole. -/
theorem Hole.next {T : Nat → ε} {i j e : Nat} (h : Hole S T i j) (he : e < S.cap) (hei : e ≠ i)
    (hempty : ¬ S.Occ T e) :
    gap S.cap i ((j + 1) % S.cap) = gap S.cap i j + 1 ∧ (j + 1) % S.cap ≠ i
      ∧ gap S.cap ((j + 1) % S.cap) e + 1 = gap S.cap j e := by
  have hlt : gap S.cap i j < gap S.cap i e := by
    by_contra hle
    exact hempty (h.between e he hei (by omega))
  have hstep := gap_succ h.hole_lt h.scan_lt (by have := gap_lt h.hole_lt he; omega)
  refine ⟨hstep, fun heq => ?_, gap_succ_left h.scan_lt he fun heq => ?_⟩
  · rw [heq, gap_self] at hstep; omega
  · subst heq; omega

omit [DecidableEq κ] in
/-- The scan passes an entry whose home lies between the hole and it. -/
theorem Hole.pass {T : Nat → ε} (hhome : ∀ k, S.home k < S.cap) {i j j' : Nat} (h : Hole S T i j)
    (hj' : j' < S.cap) (hgap : gap S.cap i j' = gap S.cap i j + 1) (hocc : S.Occ T j')
    (hin : S.home (S.key (T j')) ≠ i ∧ gap S.cap i (S.home (S.key (T j'))) ≤ gap S.cap i j') :
    Hole S T i j' where
  hole_lt := h.hole_lt
  scan_lt := hj'
  inj := h.inj
  path := h.path
  between := by
    intro y hy hne hle
    rcases Nat.lt_or_ge (gap S.cap i j) (gap S.cap i y) with hlt | hge
    · exact gap_inj h.hole_lt hj' hy (by omega) ▸ hocc
    · exact h.between y hy hne hge
  clear := by
    intro x hx hne hle
    rcases Nat.lt_or_ge (gap S.cap i j) (gap S.cap i x) with hlt | hge
    · have hxj : j' = x := gap_inj h.hole_lt hj' hx (by omega)
      subst hxj
      exact clear_of_in_gap hj' (hhome _) hin.1 hin.2
    · exact h.clear x hx hne hge

omit [DecidableEq κ] in
/-- The scan moves an entry whose home does not: the entry's cell is the new hole. -/
theorem Hole.move {T : Nat → ε} (hhome : ∀ k, S.home k < S.cap) {i j j' : Nat} (h : Hole S T i j)
    (hj' : j' < S.cap) (hne : j' ≠ i) (hocc : S.Occ T j')
    (hout : ¬ (S.home (S.key (T j')) ≠ i ∧
      gap S.cap i (S.home (S.key (T j'))) ≤ gap S.cap i j')) :
    Hole S (Function.update T i (T j')) j' j' where
  hole_lt := hj'
  scan_lt := hj'
  between := by
    intro y hy hyj hle
    rw [gap_self, Nat.le_zero] at hle
    exact absurd (gap_inj hj' hy hj' (by rw [hle, gap_self])) hyj
  clear := by
    intro x hx hxj hle
    rw [gap_self, Nat.le_zero] at hle
    exact absurd (gap_inj hj' hx hj' (by rw [hle, gap_self])) hxj
  inj := by
    intro x y hx hy hxj hyj hox hkey
    by_cases hxi : x = i <;> by_cases hyi : y = i
    · rw [hxi, hyi]
    · subst hxi
      simp only [Function.update_self, Function.update_of_ne hyi] at hkey
      exact absurd (h.inj j' y hj' hy hne hyi hocc hkey).symm hyj
    · subst hyi
      simp only [Function.update_self, Function.update_of_ne hxi] at hkey
      have hx' : S.Occ T x := ((occ_update hocc).mp hox).resolve_left hxi
      exact absurd (h.inj x j' hx hj' hxi hne hx' hkey) hxj
    · simp only [Function.update_of_ne hxi, Function.update_of_ne hyi] at hkey
      exact h.inj x y hx hy hxi hyi (((occ_update hocc).mp hox).resolve_left hxi) hkey
  path := by
    intro x hx hxj hox y hy hyj hgap
    refine (occ_update hocc).mpr (or_iff_not_imp_left.mpr fun hyi => ?_)
    by_cases hxi : x = i
    · -- the moved entry: its shorter way is the first part of its old one
      subst hxi
      rw [Function.update_self] at hgap
      have hover := over_of_not_in_gap hx (hhome (S.key (T j'))) hne hout
      exact h.path j' hj' hne hocc y hy hyi (by omega)
    · rw [Function.update_of_ne hxi] at hgap
      exact h.path x hx hxi (((occ_update hocc).mp hox).resolve_left hxi) y hy hyi hgap

omit [DecidableEq κ] in
/-- With an empty cell after the scan, clearing the hole restores the invariant. -/
theorem Hole.finish {T : Nat → ε} (hhome : ∀ k, S.home k < S.cap) {i j : Nat} (h : Hole S T i j)
    {j' : Nat} (hj' : j' < S.cap) (hgap : gap S.cap i j' = gap S.cap i j + 1) (hne : j' ≠ i)
    (hempty : ¬ S.Occ T j') {v : ε} (hv : S.key v = S.nil) : S.Inv (Function.update T i v) := by
  have hocc : ∀ {x}, S.Occ (Function.update T i v) x → x ≠ i ∧ S.Occ T x := by
    intro x hx
    have hxi : x ≠ i := fun heq => by subst heq; exact hx (by simpa using hv)
    exact ⟨hxi, by simpa [Occ, Function.update_of_ne hxi] using hx⟩
  refine ⟨hhome, ?_, ?_⟩
  · intro x y hx hy hox hkey
    obtain ⟨hxi, hox'⟩ := hocc hox
    have hyi : y ≠ i := fun heq => by
      subst heq
      rw [Function.update_self, Function.update_of_ne hxi, hv] at hkey
      exact hox' hkey
    rw [Function.update_of_ne hxi, Function.update_of_ne hyi] at hkey
    exact h.inj x y hx hy hxi hyi hox' hkey
  · intro x hx hox y hy hlt
    obtain ⟨hxi, hox'⟩ := hocc hox
    rw [Function.update_of_ne hxi] at hlt
    -- no way in the table leads over the hole any more
    have hclear : ¬ gap S.cap (S.home (S.key (T x))) i < gap S.cap (S.home (S.key (T x))) x := by
      rcases Nat.lt_or_ge (gap S.cap i j) (gap S.cap i x) with hpast | hle
      · intro hover
        by_cases hxj : x = j'
        · exact hempty (hxj ▸ hox')
        · have hlt' : gap S.cap i j' < gap S.cap i x := by
            rcases Nat.lt_or_ge (gap S.cap i j') (gap S.cap i x) with h1 | h1
            · exact h1
            · exact absurd (gap_inj h.hole_lt hx hj' (by omega)) hxj
          exact hempty (h.path x hx hxi hox' j' hj' hne
            (over_next h.hole_lt hj' hx (hhome _) hover hlt'))
      · exact h.clear x hx hxi hle
    have hyi : y ≠ i := fun heq => hclear (heq ▸ hlt)
    simpa [Occ, Function.update_of_ne hyi] using h.path x hx hxi hox' y hy hyi hlt

/--
**Backward-shift deletion is exact.**

Started at the entry in cell `i`, with an empty cell somewhere, the scan stops
within `cap` steps; clearing the last hole then leaves a table that satisfies the
invariant and holds exactly the other entries.
-/
theorem shift_spec {T : Nat → ε} (hinv : S.Inv T) {i e : Nat} (hi : i < S.cap) (hocc : S.Occ T i)
    (he : e < S.cap) (hempty : ¬ S.Occ T e) {v : ε} (hv : S.key v = S.nil) :
    (S.shift T S.cap i i).2 < S.cap
      ∧ S.Inv (Function.update (S.shift T S.cap i i).1 (S.shift T S.cap i i).2 v)
      ∧ ∀ w, S.key w ≠ S.nil →
        ((∃ x, x < S.cap ∧
            Function.update (S.shift T S.cap i i).1 (S.shift T S.cap i i).2 v x = w)
          ↔ ∃ x, x < S.cap ∧ x ≠ i ∧ T x = w) := by
  -- The scan, from any hole on, with the empty cell ahead: the fuel is the distance to that cell.
  have scan : ∀ (fuel : Nat) (T' : Nat → ε) (a b : Nat), Hole S T' a b → e ≠ a → b ≠ e →
      ¬ S.Occ T' e → gap S.cap b e ≤ fuel →
      (S.shift T' fuel a b).2 < S.cap
        ∧ S.Inv (Function.update (S.shift T' fuel a b).1 (S.shift T' fuel a b).2 v)
        ∧ ∀ w, S.key w ≠ S.nil →
          ((∃ x, x < S.cap ∧
              Function.update (S.shift T' fuel a b).1 (S.shift T' fuel a b).2 v x = w)
            ↔ ∃ x, x < S.cap ∧ x ≠ a ∧ T' x = w) := by
    intro fuel
    induction fuel with
    | zero =>
        intro T' a b hh _ hbe _ hfuel
        exact absurd (gap_inj hh.scan_lt hh.scan_lt he (by rw [gap_self]; omega)) hbe
    | succ fuel ih =>
        intro T' a b hh hea hbe hemp hfuel
        obtain ⟨hgap, hja, hge⟩ := hh.next he hea hemp
        have hj' : (b + 1) % S.cap < S.cap := mod_succ_lt hh.scan_lt
        rw [shift]
        dsimp only
        -- An empty cell ends the run of entries, and the hole stays where it is.
        by_cases hnil : S.key (T' ((b + 1) % S.cap)) = S.nil
        · rw [if_pos hnil]
          refine ⟨hh.hole_lt,
            hh.finish hinv.home_lt hj' hgap hja (fun h => h hnil) hv, fun w hw => ⟨?_, ?_⟩⟩
          · rintro ⟨x, hx, hxw⟩
            have hxa : x ≠ a := fun heq => by
              subst heq
              rw [Function.update_self] at hxw
              exact hw (hxw ▸ hv)
            exact ⟨x, hx, hxa, by rwa [Function.update_of_ne hxa] at hxw⟩
          · rintro ⟨x, hx, hxa, hxw⟩
            exact ⟨x, hx, by rwa [Function.update_of_ne hxa]⟩
        · rw [if_neg hnil]
          have hje : (b + 1) % S.cap ≠ e := fun heq => hemp (heq ▸ hnil)
          have htest := in_gap_iff hh.hole_lt hj' (hinv.home_lt (S.key (T' ((b + 1) % S.cap))))
            hja.symm
          -- An entry that probing still finds is passed; one that it would miss moves into the
          -- hole, and its cell is the next hole.
          by_cases hin : S.home (S.key (T' ((b + 1) % S.cap))) ≠ a
              ∧ gap S.cap a (S.home (S.key (T' ((b + 1) % S.cap)))) ≤ gap S.cap a ((b + 1) % S.cap)
          · rw [if_pos (htest.mpr hin)]
            exact ih T' a _ (hh.pass hinv.home_lt hj' hgap hnil hin) hea hje hemp (by omega)
          · rw [if_neg (fun h => hin (htest.mp h))]
            have hemp' : ¬ S.Occ (Function.update T' a (T' ((b + 1) % S.cap))) e := by
              simpa [Occ, Function.update_of_ne hea] using hemp
            obtain ⟨h1, h2, h3⟩ := ih _ _ _ (hh.move hinv.home_lt hj' hja hnil hin)
              (Ne.symm hje) hje hemp' (by omega)
            refine ⟨h1, h2, fun w hw => (h3 w hw).trans ⟨?_, ?_⟩⟩
            · rintro ⟨x, hx, hxj, hxw⟩
              by_cases hxa : x = a
              · subst hxa
                rw [Function.update_self] at hxw
                exact ⟨_, hj', hja, hxw⟩
              · rw [Function.update_of_ne hxa] at hxw
                exact ⟨x, hx, hxa, hxw⟩
            · rintro ⟨x, hx, hxa, hxw⟩
              by_cases hxj : x = (b + 1) % S.cap
              · subst hxj
                exact ⟨a, hh.hole_lt, hja.symm, by rw [Function.update_self]; exact hxw⟩
              · exact ⟨x, hx, hxj, by rwa [Function.update_of_ne hxa]⟩
  have hie : i ≠ e := fun heq => hempty (heq ▸ hocc)
  exact scan S.cap T i i (hole_init hinv hi) hie.symm hie hempty
    (Nat.le_of_lt (gap_lt hi he))

end Shape

end LinearProbe
