import Mathlib.Data.List.Basic

/-!
# The lower bound of a partitioned list

The bisection that a standard library runs for the first element that does not come before
a value. Where no element before the value follows one that is not, it finds what a scan from
the left finds.

The loop is the standard library's, with a first position and a length that halves. It never
compares more than once at a position and ends because the length falls. Where the list is not
partitioned nothing is said.
-/

namespace Mog

namespace LowerBound

variable {α : Type}

/-- The bisection of the `count` positions from `first` on. -/
def bisect (before : α → Bool) (l : List α) (first count : Nat) : Nat :=
  if count = 0 then first
  else
    match l[first + count / 2]? with
    | none => first
    | some x =>
        if before x then bisect before l (first + count / 2 + 1) (count - (count / 2 + 1))
        else bisect before l first (count / 2)
termination_by count
decreasing_by all_goals omega

/-- The first element that is not before. -/
def lowerBound? (before : α → Bool) (l : List α) : Option α := l[bisect before l 0 l.length]?

/-- What is before comes first. -/
def Partitioned (before : α → Bool) (l : List α) : Prop :=
  l.Pairwise fun x y => before y = true → before x = true

/-- `r` is where the elements that are before end. -/
structure Cuts (before : α → Bool) (l : List α) (r : Nat) : Prop where
  below : ∀ i x, i < r → l[i]? = some x → before x = true
  above : ∀ i x, r ≤ i → l[i]? = some x → before x = false

theorem bisect_cuts {before : α → Bool} {l : List α} (hl : Partitioned before l)
    (first count : Nat) (hcount : first + count ≤ l.length)
    (hbelow : ∀ i x, i < first → l[i]? = some x → before x = true)
    (habove : ∀ i x, first + count ≤ i → l[i]? = some x → before x = false) :
    Cuts before l (bisect before l first count) := by
  induction count using Nat.strongRecOn generalizing first with
  | _ count ih =>
    rw [bisect]
    split
    · rename_i hzero
      exact ⟨hbelow, fun i x hi => habove i x (by omega)⟩
    · rename_i hpos
      have hmid : first + count / 2 < l.length := by omega
      have hget : l[first + count / 2]? = some l[first + count / 2] := List.getElem?_eq_getElem hmid
      rw [hget]
      dsimp only
      -- the element in the middle decides for its whole side
      have hpair := List.pairwise_iff_getElem.mp hl
      split
      · rename_i hbefore
        refine ih _ (by omega) _ (by omega) ?_ fun i x hi => habove i x (by omega)
        intro i x hi hx
        obtain ⟨hlt, rfl⟩ := List.getElem?_eq_some_iff.mp hx
        rcases Nat.lt_or_ge i (first + count / 2) with hless | hge
        · exact hpair i _ hlt hmid hless hbefore
        · have heq : i = first + count / 2 := by omega
          subst heq
          exact hbefore
      · rename_i hafter
        refine ih _ (by omega) _ (by omega) hbelow ?_
        intro i x hi hx
        obtain ⟨hlt, rfl⟩ := List.getElem?_eq_some_iff.mp hx
        rcases Nat.lt_or_ge (first + count / 2) i with hmore | hle
        · exact Bool.eq_false_iff.mpr fun hb => hafter (hpair _ i hmid hlt hmore hb)
        · have heq : i = first + count / 2 := by omega
          subst heq
          exact Bool.eq_false_iff.mpr hafter

/-- **Bisection is a scan.** In a partitioned list the lower bound is the first element that is not
before. -/
theorem lowerBound?_eq_find? {before : α → Bool} {l : List α} (hl : Partitioned before l) :
    lowerBound? before l = l.find? fun x => !before x := by
  have hcuts := bisect_cuts hl 0 l.length (by omega) (fun i _ hi => absurd hi (by omega))
    fun i x hi hx => absurd (List.getElem?_eq_some_iff.mp hx).1 (by omega)
  unfold lowerBound?
  generalize bisect before l 0 l.length = r at hcuts ⊢
  cases hget : l[r]? with
  | none =>
      symm
      rw [List.find?_eq_none]
      intro x hx
      obtain ⟨i, hi, rfl⟩ := List.getElem_of_mem hx
      have hlen : l.length ≤ r := List.getElem?_eq_none_iff.mp hget
      have hbefore := hcuts.below i l[i] (by omega) (List.getElem?_eq_getElem hi)
      rw [hbefore]
      exact Bool.false_ne_true
  | some x =>
      symm
      rw [List.find?_eq_some_iff_getElem]
      obtain ⟨hr, rfl⟩ := List.getElem?_eq_some_iff.mp hget
      have hafter := hcuts.above r l[r] (Nat.le_refl r) hget
      refine ⟨by rw [hafter]; rfl, r, hr, rfl, ?_⟩
      intro j hj
      have hbefore := hcuts.below j l[j] hj (List.getElem?_eq_getElem (by omega))
      rw [hbefore]
      rfl

end LowerBound

end Mog
