import Mathlib.Data.Int.ConditionallyCompleteOrder
import Mathlib.Data.Set.Function
import Mathlib.Tactic.IntervalCases
import Mog.Book.Types
import Mog.Lib.Gregorian

/-!
# The trading calendar's day count

`epoch_day` counts civil dates from 1970-01-01 by a closed formula over eras of 400 years
that begin in March. Signed arithmetic is exact, unsigned arithmetic wraps in 64 bits;
`epochDay?` is the count with every signed result checked against the range of its type.

The formula is checked against the calendar without enumerating dates: it is zero on the first
of January 1970 and grows by one from each date to the next, over the ends of months and years
as well. The weekday laws follow from the count, and the range of years from bounding each
intermediate result.
-/

namespace Mog

open Gregorian CivilDate

namespace Calendar

/-- The year that begins in March, and `m`'s place in it. -/
def marchYear (y m : Int) : Int := if m ≤ 2 then y - 1 else y

def era (yy : Int) : Int := (if 0 ≤ yy then yy else yy - 399).tdiv 400

/-- The day of the era, in unsigned 64-bit arithmetic: `mp` counts months from March. -/
def dayOfEra (yoe mp d : Nat) : Nat :=
  let doy := ((153 * mp + 2) % 2 ^ 64 / 5 + d + (2 ^ 64 - 1)) % 2 ^ 64
  (yoe * 365 + yoe / 4 + (2 ^ 64 - yoe / 100) + doy) % 2 ^ 64

/-- Civil-date days since 1970-01-01. -/
def epochDay (y m d : Int) : Int :=
  let yy := marchYear y m
  let era := era yy
  let doe := dayOfEra (toU64 (yy - era * 400)) (toU64 (m + if 2 < m then -3 else 9)) (toU64 d)
  era * 146097 + toI64 doe - 719468

/-- Weekday of an epoch day: 0 is Sunday, 6 Saturday. -/
def weekday (day : Int) : Int := ((day.tmod 7) + 7 + 4).tmod 7

/-- A signed 64-bit result; `none` where the source's arithmetic would overflow. -/
def i64? (x : Int) : Option Int := if -2 ^ 63 ≤ x ∧ x < 2 ^ 63 then some x else none

def marchYear? (y m : Int) : Option Int := if m ≤ 2 then i64? (y - 1) else some y

def era? (yy : Int) : Option Int :=
  (if 0 ≤ yy then some yy else i64? (yy - 399)).map (fun n => n.tdiv 400)

/-- `epochDay` with its signed arithmetic checked. -/
def epochDay? (y m d : Int) : Option Int := do
  let yy ← marchYear? y m
  let era ← era? yy
  let back ← i64? (era * 400)
  let yoe ← i64? (yy - back)
  let mp ← i64? (m + if 2 < m then -3 else 9)
  let days ← i64? (era * 146097)
  let sum ← i64? (days + toI64 (dayOfEra (toU64 yoe) (toU64 mp) (toU64 d)))
  i64? (sum - 719468)

/-! ## The closed formula -/

theorem era_eq (yy : Int) : era yy = yy / 400 := by
  unfold era
  split
  · rename_i h
    exact Int.tdiv_eq_ediv_of_nonneg h
  · rename_i h
    have hneg : (yy - 399).tdiv 400 = -((399 - yy) / 400) := by
      rw [← Int.tdiv_eq_ediv_of_nonneg (by omega), ← Int.neg_tdiv]
      congr 1
      omega
    omega

/-- The days before the `mp`-th month of a year that begins in March. -/
def daysBefore (mp : Int) : Int := (153 * mp + 2) / 5

/-- A month's place in the year that begins in March. -/
def marchMonth (m : Int) : Int := if 2 < m then m - 3 else m + 9

theorem toU64_of_range {x : Int} (h0 : 0 ≤ x) (h : x < 2 ^ 64) : (toU64 x : Int) = x := by
  unfold toU64
  omega

/-- **The count in exact arithmetic**: nothing unsigned wraps. -/
theorem epochDay_eq {y m d : Int} (hm : 1 ≤ m ∧ m ≤ 12) (hd : 1 ≤ d ∧ d ≤ 31) :
    epochDay y m d = marchYear y m / 400 * 146097
      + (marchYear y m % 400 * 365 + marchYear y m % 400 / 4 - marchYear y m % 400 / 100
        + (daysBefore (marchMonth m) + d - 1)) - 719468 := by
  unfold epochDay
  dsimp only
  rw [era_eq]
  generalize marchYear y m = yy
  have hyoe : (toU64 (yy - yy / 400 * 400) : Int) = yy % 400 := by
    rw [toU64_of_range] <;> omega
  have hmp : (toU64 (m + if 2 < m then -3 else 9) : Int) = marchMonth m := by
    unfold marchMonth
    split
    · rw [toU64_of_range] <;> omega
    · rw [toU64_of_range] <;> omega
  have hmr : 0 ≤ marchMonth m ∧ marchMonth m ≤ 11 := by
    unfold marchMonth
    split <;> omega
  have hdd : (toU64 d : Int) = d := toU64_of_range (by omega) (by omega)
  generalize toU64 (yy - yy / 400 * 400) = yoe at *
  generalize toU64 (m + if 2 < m then -3 else 9) = mp at *
  generalize toU64 d = dn at *
  have hdoy : ((153 * mp + 2) % 2 ^ 64 / 5 + dn + (2 ^ 64 - 1)) % 2 ^ 64
      = (153 * mp + 2) / 5 + dn - 1 := by
    rw [Nat.mod_eq_of_lt (show 153 * mp + 2 < 2 ^ 64 by omega)]
    omega
  have hdoe : (yoe * 365 + yoe / 4 + (2 ^ 64 - yoe / 100) + ((153 * mp + 2) / 5 + dn - 1)) % 2 ^ 64
      = yoe * 365 + yoe / 4 - yoe / 100 + ((153 * mp + 2) / 5 + dn - 1) := by omega
  rw [dayOfEra, hdoy, hdoe, ← hmp, ← hdd, ← hyoe, daysBefore, toI64]
  omega

/-! ## From one date to the next -/

/-- The days before the year `yy` that begins in March. -/
def daysBeforeYear (yy : Int) : Int :=
  yy / 400 * 146097 + yy % 400 * 365 + yy % 400 / 4 - yy % 400 / 100

/-- A year that begins in March ends with the February of the next. -/
theorem daysBeforeYear_succ (y : Int) :
    daysBeforeYear y = daysBeforeYear (y - 1) + 337 + daysIn y 2 := by
  have hlen : daysIn y 2 = if IsLeap y then 29 else 28 := rfl
  rw [hlen]
  by_cases hleap : IsLeap y
  · rw [if_pos hleap]
    unfold daysBeforeYear
    unfold IsLeap at hleap
    omega
  · rw [if_neg hleap]
    unfold daysBeforeYear
    unfold IsLeap at hleap
    omega

/-- The first of a month follows the last of the month before, inside a year that begins in March. -/
theorem daysBefore_succ {y m : Int} (hm : 1 ≤ m ∧ m ≤ 12) (h2 : m ≠ 2) (h12 : m ≠ 12) :
    daysBefore (marchMonth (m + 1)) = daysBefore (marchMonth m) + daysIn y m := by
  obtain ⟨h1, hle⟩ := hm
  interval_cases m
  case «2» => exact absurd rfl h2
  case «12» => exact absurd rfl h12
  all_goals rfl

def dayOf (a : CivilDate) : Int := epochDay a.year a.month a.day

theorem dayOf_eq (a : CivilDate) :
    dayOf a = daysBeforeYear (marchYear a.year a.month)
      + (daysBefore (marchMonth a.month) + a.day - 1) - 719468 := by
  have hlen := daysIn_pos a.year a.month
  have hd := a.day_range
  rw [dayOf, epochDay_eq a.month_range (by omega), daysBeforeYear]
  omega

/-- **The next date has the next number.** -/
theorem dayOf_next (a : CivilDate) : dayOf a.next = dayOf a + 1 := by
  rw [dayOf_eq, dayOf_eq]
  rcases a.next_cases with ⟨hy, hm, hd, _⟩ | ⟨hy, hm, hd, hlast, hlt⟩ | ⟨hy, hm, hd, hlast, h12⟩
  · rw [hy, hm, hd]
    omega
  · rw [hy, hm, hd, hlast]
    by_cases h2 : a.month = 2
    · -- from the end of February into March: the year that begins in March changes
      rw [h2]
      have hyear := daysBeforeYear_succ a.year
      have hfeb : marchYear a.year 2 = a.year - 1 := rfl
      have hmar : marchYear a.year (2 + 1) = a.year := rfl
      have hbefore : daysBefore (marchMonth 2) = 337 := rfl
      have hzero : daysBefore (marchMonth (2 + 1)) = 0 := rfl
      rw [hfeb, hmar, hbefore, hzero]
      omega
    · have hmonth := daysBefore_succ a.month_range h2 (by omega) (y := a.year)
      have hsame : marchYear a.year (a.month + 1) = marchYear a.year a.month := by
        unfold marchYear
        split <;> split <;> omega
      rw [hsame, hmonth]
      omega
  · -- December and January lie in one year that begins in March
    rw [hy, hm, hd, hlast, h12]
    have hdec : marchYear a.year 12 = a.year := rfl
    have hjan : marchYear (a.year + 1) 1 = a.year := Int.add_sub_cancel _ _
    have hbefore : daysBefore (marchMonth 12) = 275 := rfl
    have hafter : daysBefore (marchMonth 1) = 306 := rfl
    rw [hdec, hjan, hbefore, hafter]
    omega

/-! ## No signed overflow -/

theorem i64?_eq {x : Int} (h : -2 ^ 63 ≤ x ∧ x < 2 ^ 63) : i64? x = some x := if_pos h

/-- **No signed result overflows** for years of magnitude up to `2 ^ 40`. -/
theorem epochDay?_eq {y m d : Int} (hy : -2 ^ 40 ≤ y ∧ y ≤ 2 ^ 40) (hm : 1 ≤ m ∧ m ≤ 12)
    (hd : 1 ≤ d ∧ d ≤ 31) : epochDay? y m d = some (epochDay y m d) := by
  have hyy : -2 ^ 40 - 1 ≤ marchYear y m ∧ marchYear y m ≤ 2 ^ 40 := by
    unfold marchYear
    split <;> omega
  have hmarch : marchYear? y m = some (marchYear y m) := by
    unfold marchYear? marchYear
    split
    · exact i64?_eq (by omega)
    · rfl
  have hera : era? (marchYear y m) = some (era (marchYear y m)) := by
    unfold era? era
    split
    · rfl
    · rw [i64?_eq (by omega)]
      rfl
  have hvalue := epochDay_eq hm hd (y := y)
  have hbefore : 0 ≤ daysBefore (marchMonth m) ∧ daysBefore (marchMonth m) ≤ 337 := by
    unfold daysBefore marchMonth
    split <;> omega
  have hmp : -2 ^ 63 ≤ (m + if 2 < m then -3 else 9) ∧ (m + if 2 < m then -3 else 9) < 2 ^ 63 := by
    split <;> omega
  have hdiv := era_eq (marchYear y m)
  unfold epochDay? epochDay at *
  dsimp only at hvalue ⊢
  rw [hmarch]
  simp only [Option.bind_eq_bind, Option.bind_some]
  rw [hera]
  simp only [Option.bind_some]
  generalize marchYear y m = yy at *
  generalize era yy = e at *
  rw [i64?_eq (by omega), i64?_eq hmp, i64?_eq (x := e * 146097) (by omega)]
  simp only [Option.bind_some]
  rw [i64?_eq (x := yy - e * 400) (by omega)]
  simp only [Option.bind_some]
  generalize toI64 _ = doe at *
  rw [i64?_eq (by omega)]
  exact i64?_eq (by omega)

/-! ## Weekdays -/

/-- `weekday` counts the days from a Sunday. -/
theorem weekday_eq (day : Int) : weekday day = (day + 4) % 7 := by
  have hlo := Int.lt_tmod_of_pos day (show (0 : Int) < 7 by decide)
  have hhi := Int.tmod_lt_of_pos day (show (0 : Int) < 7 by decide)
  have hdiv := Int.tmod_add_mul_tdiv day 7
  unfold weekday
  rw [Int.tmod_eq_emod_of_nonneg (by omega)]
  omega

/-! ## The count in range -/

/-- A year of magnitude below `2 ^ 40`. -/
def InRange (a : CivilDate) : Prop := -2 ^ 40 < a.year ∧ a.year < 2 ^ 40

theorem january : (1 : Int) ≤ 1 ∧ (1 : Int) ≤ 12 := by decide

theorem december : (1 : Int) ≤ 12 ∧ (12 : Int) ≤ 12 := by decide

def firstDate : CivilDate := ⟨-2 ^ 40 + 1, 1, 1, january, by decide⟩

def lastDate : CivilDate := ⟨2 ^ 40 - 1, 12, 31, december, by decide⟩

theorem inRange_iff (a : CivilDate) :
    InRange a ↔ dayOf firstDate ≤ dayOf a ∧ dayOf a ≤ dayOf lastDate := by
  have hm := a.month_range
  have hd := a.day_range
  have hlen := daysIn_pos a.year a.month
  have hfirst : dayOf firstDate ≤ dayOf a ↔ ¬ a.Before firstDate := by
    rw [← count_lt_iff dayOf_next, not_lt]
  have hlast : dayOf a ≤ dayOf lastDate ↔ ¬ lastDate.Before a := by
    rw [← count_lt_iff dayOf_next, not_lt]
  rw [hfirst, hlast]
  unfold InRange Before firstDate lastDate
  dsimp only
  omega

/-- What makes `epoch_day` and `weekday` the proleptic Gregorian calendar. -/
structure Proleptic : Prop where
  epoch : epochDay 1970 1 1 = 0
  /-- The formula overflows on no date in range, and the next date has the next number. -/
  exact : ∀ a, InRange a → epochDay? a.year a.month a.day = some (dayOf a)
  next : ∀ a, InRange a → epochDay? a.next.year a.next.month a.next.day = some (dayOf a + 1)
  increasing : ∀ a b, InRange a → InRange b → (dayOf a < dayOf b ↔ a.Before b)
  bijective : Set.BijOn dayOf {a | InRange a} (Set.Icc (dayOf firstDate) (dayOf lastDate))
  week : ∀ day, 0 ≤ weekday day ∧ weekday day ≤ 6 ∧ weekday (day + 1) = (weekday day + 1) % 7
  thursday : weekday (epochDay 1970 1 1) = 4

/-- **The day count is the proleptic Gregorian calendar.** -/
theorem epochDay_proleptic : Proleptic where
  epoch := by decide
  exact a ha := by
    have hlen := daysIn_pos a.year a.month
    have hd := a.day_range
    exact epochDay?_eq ⟨by have := ha.1; omega, by have := ha.2; omega⟩ a.month_range (by omega)
  next a ha := by
    have hlen := daysIn_pos a.next.year a.next.month
    have hd := a.next.day_range
    have hyear : a.next.year = a.year ∨ a.next.year = a.year + 1 := by
      rcases a.next_cases with ⟨hy, _⟩ | ⟨hy, _⟩ | ⟨hy, _⟩
      · exact Or.inl hy
      · exact Or.inl hy
      · exact Or.inr hy
    rw [← dayOf_next]
    exact epochDay?_eq ⟨by have := ha.1; omega, by have := ha.2; omega⟩ a.next.month_range (by omega)
  increasing a b _ _ := count_lt_iff dayOf_next
  bijective := by
    refine ⟨fun a ha => (inRange_iff a).mp ha, fun a _ b _ hab => count_injective dayOf_next hab,
      fun n hn => ?_⟩
    obtain ⟨a, ha⟩ := count_surjective dayOf_next n
    have hin : InRange a := by
      rw [inRange_iff, ha]
      exact hn
    exact ⟨a, hin, ha⟩
  week day := by
    rw [weekday_eq, weekday_eq]
    omega
  thursday := by
    have hepoch : epochDay 1970 1 1 = 0 := by decide
    rw [hepoch, weekday_eq]
    rfl

end Calendar

end Mog
