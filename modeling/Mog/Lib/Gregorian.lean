import Mathlib.Data.Int.Basic
import Mathlib.Order.Basic
import Mathlib.Tactic.Ext

/-!
# The proleptic Gregorian calendar

Civil dates of any year, the one that follows and the one that precedes each, and their
order. A count of days is determined by where it starts: if it grows by one with every date,
then it is a strictly increasing bijection onto the integers.

Nothing here computes a count of days by a formula. A formula is shown to be the calendar's by
two facts about it: it starts where it should, and it grows by one from each date to the next.
Order and bijection are then those of the dates themselves, for years without bounds.
-/

namespace Mog

namespace Gregorian

def IsLeap (y : Int) : Prop := y % 4 = 0 ∧ (y % 100 ≠ 0 ∨ y % 400 = 0)

instance (y : Int) : Decidable (IsLeap y) := inferInstanceAs (Decidable (_ ∧ _))

/-- The length of month `m` of year `y`. -/
def daysIn (y m : Int) : Int :=
  if m = 2 then if IsLeap y then 29 else 28
  else if m = 4 ∨ m = 6 ∨ m = 9 ∨ m = 11 then 30
  else 31

theorem daysIn_pos (y m : Int) : 28 ≤ daysIn y m ∧ daysIn y m ≤ 31 := by
  unfold daysIn
  split
  · split <;> omega
  · split <;> omega

theorem december (y : Int) : daysIn y 12 = 31 := rfl

/-- A valid civil date. -/
@[ext] structure CivilDate where
  year : Int
  month : Int
  day : Int
  month_range : 1 ≤ month ∧ month ≤ 12
  day_range : 1 ≤ day ∧ day ≤ daysIn year month

namespace CivilDate

variable {a b c : CivilDate}

/-- The date that follows. -/
def next (a : CivilDate) : CivilDate :=
  if hd : a.day < daysIn a.year a.month then
    ⟨a.year, a.month, a.day + 1, a.month_range, by have := a.day_range; omega⟩
  else if hm : a.month < 12 then
    ⟨a.year, a.month + 1, 1, by have := a.month_range; omega,
      by have := daysIn_pos a.year (a.month + 1); omega⟩
  else
    ⟨a.year + 1, 1, 1, by decide, by have := daysIn_pos (a.year + 1) 1; omega⟩

/-- The date that precedes. -/
def prev (a : CivilDate) : CivilDate :=
  if hd : 1 < a.day then
    ⟨a.year, a.month, a.day - 1, a.month_range, by have := a.day_range; omega⟩
  else if hm : 1 < a.month then
    ⟨a.year, a.month - 1, daysIn a.year (a.month - 1), by have := a.month_range; omega,
      by have := daysIn_pos a.year (a.month - 1); omega⟩
  else
    ⟨a.year - 1, 12, 31, by decide, by rw [december]; decide⟩

/-- **What the next date is**: a day later in the month, else the first of the next month or of
the next year. -/
theorem next_cases (a : CivilDate) :
    (a.next.year = a.year ∧ a.next.month = a.month ∧ a.next.day = a.day + 1
        ∧ a.day < daysIn a.year a.month)
      ∨ (a.next.year = a.year ∧ a.next.month = a.month + 1 ∧ a.next.day = 1
        ∧ a.day = daysIn a.year a.month ∧ a.month < 12)
      ∨ (a.next.year = a.year + 1 ∧ a.next.month = 1 ∧ a.next.day = 1 ∧ a.day = 31
        ∧ a.month = 12) := by
  obtain ⟨hm1, hm2⟩ := a.month_range
  obtain ⟨hd1, hd2⟩ := a.day_range
  unfold next
  by_cases hd : a.day < daysIn a.year a.month
  · rw [dif_pos hd]
    exact Or.inl ⟨rfl, rfl, rfl, hd⟩
  rw [dif_neg hd]
  by_cases hm : a.month < 12
  · rw [dif_pos hm]
    exact Or.inr (Or.inl ⟨rfl, rfl, rfl, by omega, hm⟩)
  rw [dif_neg hm]
  have h12 : a.month = 12 := by omega
  have hlen : daysIn a.year a.month = 31 := h12 ▸ december a.year
  exact Or.inr (Or.inr ⟨rfl, rfl, rfl, by omega, h12⟩)

theorem next_prev (a : CivilDate) : a.prev.next = a := by
  obtain ⟨hm1, hm2⟩ := a.month_range
  obtain ⟨hd1, hd2⟩ := a.day_range
  unfold prev
  by_cases hd : 1 < a.day
  · rw [dif_pos hd, next, dif_pos (show a.day - 1 < daysIn a.year a.month by omega)]
    exact CivilDate.ext rfl rfl (Int.sub_add_cancel _ _)
  rw [dif_neg hd]
  by_cases hm : 1 < a.month
  · rw [dif_pos hm, next, dif_neg (Int.lt_irrefl _), dif_pos (show a.month - 1 < 12 by omega)]
    exact CivilDate.ext rfl (Int.sub_add_cancel _ _) (show (1 : Int) = a.day by omega)
  · have hlast : ¬ (31 : Int) < daysIn (a.year - 1) 12 := by rw [december]; decide
    rw [dif_neg hm, next, dif_neg hlast, dif_neg (Int.lt_irrefl 12)]
    exact CivilDate.ext (Int.sub_add_cancel _ _) (show (1 : Int) = a.month by omega)
      (show (1 : Int) = a.day by omega)

/-! ## The order of dates -/

def Before (a b : CivilDate) : Prop :=
  a.year < b.year ∨ (a.year = b.year ∧ (a.month < b.month ∨ (a.month = b.month ∧ a.day < b.day)))

instance (a b : CivilDate) : Decidable (a.Before b) := inferInstanceAs (Decidable (_ ∨ _))

/-- A number that orders dates, with gaps. -/
def rank (a : CivilDate) : Int := a.year * 372 + (a.month - 1) * 31 + (a.day - 1)

theorem before_iff_rank : a.Before b ↔ a.rank < b.rank := by
  have ha := a.month_range
  have hb := b.month_range
  have ha' := a.day_range
  have hb' := b.day_range
  have ha'' := daysIn_pos a.year a.month
  have hb'' := daysIn_pos b.year b.month
  unfold Before rank
  omega

theorem eq_of_rank (h : a.rank = b.rank) : a = b := by
  have ha := a.month_range
  have hb := b.month_range
  have ha' := a.day_range
  have hb' := b.day_range
  have ha'' := daysIn_pos a.year a.month
  have hb'' := daysIn_pos b.year b.month
  unfold rank at h
  have hy : a.year = b.year := by omega
  have hm : a.month = b.month := by omega
  exact CivilDate.ext hy hm (by omega)

theorem rank_next (a : CivilDate) : a.rank < a.next.rank := by
  have := a.month_range
  have := a.day_range
  have := daysIn_pos a.year a.month
  unfold rank
  rcases a.next_cases with ⟨hy, hm, hd, _⟩ | ⟨hy, hm, hd, _, _⟩ | ⟨hy, hm, hd, _, _⟩
  · rw [hy, hm, hd]
    omega
  · rw [hy, hm, hd]
    omega
  · rw [hy, hm, hd]
    omega

/-- No date lies between a date and the one that follows. -/
theorem next_le (h : a.Before b) : a.next.rank ≤ b.rank := by
  have ha := a.month_range
  have hb := b.month_range
  have ha' := a.day_range
  have hb' := b.day_range
  have hb'' := daysIn_pos b.year b.month
  unfold Before at h
  rcases a.next_cases with ⟨hy, hm, hd, _⟩ | ⟨hy, hm, hd, hlast, _⟩ | ⟨hy, hm, hd, hlast, h12⟩
  · unfold rank
    rw [hy, hm, hd]
    have := daysIn_pos a.year a.month
    omega
  · -- no later day in the same month
    have hno : ¬ (a.year = b.year ∧ a.month = b.month ∧ a.day < b.day) := by
      rintro ⟨h1, h2, h3⟩
      rw [hlast, h1, h2] at h3
      omega
    unfold rank
    rw [hy, hm, hd]
    omega
  · unfold rank
    rw [hy, hm, hd]
    omega

/-! ## Counts of days -/

variable {f : CivilDate → Int}

theorem count_lt (hf : ∀ d, f d.next = f d + 1) (h : a.Before b) : f a < f b := by
  -- by induction on the distance in rank
  obtain ⟨n, hn⟩ := Int.eq_ofNat_of_zero_le (Int.sub_nonneg_of_le (next_le h))
  induction n using Nat.strongRecOn generalizing a with
  | _ n ih =>
    have hstep := hf a
    rcases Int.lt_or_le a.next.rank b.rank with hlt | hge
    · have hbefore := before_iff_rank.mpr hlt
      have hle := next_le hbefore
      have hrank := rank_next a.next
      have := ih (b.rank - a.next.next.rank).toNat (by omega) hbefore (by omega)
      omega
    · have heq : a.next = b := eq_of_rank (Int.le_antisymm (next_le h) hge)
      rw [← heq]
      omega

/-- **A count of days is strictly increasing.** -/
theorem count_lt_iff (hf : ∀ d, f d.next = f d + 1) : f a < f b ↔ a.Before b := by
  refine ⟨fun hlt => ?_, count_lt hf⟩
  rw [before_iff_rank]
  rcases Int.lt_trichotomy a.rank b.rank with h | h | h
  · exact h
  · rw [eq_of_rank h] at hlt
    exact absurd hlt (Int.lt_irrefl _)
  · exact absurd (count_lt hf (before_iff_rank.mpr h)) (Int.lt_asymm hlt)

theorem count_injective (hf : ∀ d, f d.next = f d + 1) (h : f a = f b) : a = b := by
  have h1 := mt (count_lt hf (a := a) (b := b)) (by omega)
  have h2 := mt (count_lt hf (a := b) (b := a)) (by omega)
  rw [before_iff_rank] at h1 h2
  exact eq_of_rank (by omega)

/-- **A count of days takes every integer.** -/
theorem count_surjective (hf : ∀ d, f d.next = f d + 1) (n : Int) : ∃ d, f d = n := by
  have hprev : ∀ d : CivilDate, f d.prev = f d - 1 := fun d => by
    have := hf d.prev
    rw [next_prev] at this
    omega
  let start : CivilDate := ⟨0, 1, 1, by decide, by decide⟩
  obtain ⟨m, hm⟩ : ∃ m, n = f start + m := ⟨n - f start, by omega⟩
  subst hm
  induction m using Int.induction_on with
  | zero => exact ⟨start, by omega⟩
  | succ i ih =>
      obtain ⟨d, hd⟩ := ih
      exact ⟨d.next, by rw [hf, hd]; omega⟩
  | pred i ih =>
      obtain ⟨d, hd⟩ := ih
      exact ⟨d.prev, by rw [hprev, hd]; omega⟩

end CivilDate

end Gregorian

end Mog
