import Mog.SimRun.Csv
import Mathlib.Data.List.Forall2
import Mathlib.Data.List.TakeWhile

/-!
# Script numbers

The reader of a script adds its digits up in 64 signed bits and does not look for an
overflow; the quantity is then cut to 32. This file reads a script as the source does, with
the outcome left undefined where a sum leaves its type, and says for which texts each row
carries the numbers that its line writes.
-/

namespace Mog

namespace SimRun

/-! ## Outcomes -/

/-- What a reader does with a text: nothing is promised past an overflow. -/
inductive Outcome (α : Type) where
  | undefined
  | rejected
  | ok (a : α)
deriving DecidableEq, Repr

namespace Outcome

variable {α β : Type}

def bind (x : Outcome α) (f : α → Outcome β) : Outcome β :=
  match x with
  | undefined => undefined
  | rejected => rejected
  | ok a => f a

def ofOption : Option α → Outcome α
  | none => rejected
  | some a => ok a

/-- The text is rejected, or its result is as described. -/
def Holds (P : α → Prop) : Outcome α → Prop
  | undefined => False
  | rejected => True
  | ok a => P a

@[simp] theorem undefined_bind (f : α → Outcome β) : (undefined : Outcome α).bind f = undefined := rfl

@[simp] theorem rejected_bind (f : α → Outcome β) : (rejected : Outcome α).bind f = rejected := rfl

@[simp] theorem ok_bind (a : α) (f : α → Outcome β) : (ok a).bind f = f a := rfl

theorem ofOption_bind (x : Option α) (f : α → Option β) :
    ofOption (x.bind f) = (ofOption x).bind fun a => ofOption (f a) := by
  cases x <;> rfl

theorem holds_ofOption {P : α → Prop} {x : Option α} :
    (ofOption x).Holds P ↔ ∀ a, x = some a → P a := by
  cases x with
  | none => exact ⟨fun _ a h => absurd h.symm (Option.some_ne_none a), fun _ => trivial⟩
  | some a => exact ⟨fun h b hb => Option.some.inj hb ▸ h, fun h => h a rfl⟩

end Outcome

open Outcome

/-! ## The reader, in the widths of the source -/

/-- The loop over the digits of a number, in 64 signed bits. -/
def digitsLoop64 : Int → List Char → Outcome Int
  | val, [] => ok val
  | val, ch :: l =>
      if ch < '0' ∨ '9' < ch then rejected
      else if 2 ^ 63 ≤ val * 10 + ((ch.toNat : Int) - 48) then undefined
      else digitsLoop64 (val * 10 + ((ch.toNat : Int) - 48)) l

/-- A field of digits, or -1. -/
def num64 (field : List Char) : Outcome Int :=
  if field = [] then ok (-1)
  else
    match digitsLoop64 0 field with
    | undefined => undefined
    | rejected => ok (-1)
    | ok val => ok val

/-- The digits of an offset, without its sign. -/
def offsetDigits (field : List Char) : List Char :=
  if field.head? = some '-' ∨ field.head? = some '+' then field.tail else field

def flagOffset64 (field : List Char) : Outcome Int :=
  let neg := field.head? = some '-'
  let digits := offsetDigits field
  if digits = [] then rejected
  else (digitsLoop64 0 digits).bind fun off => ok (if neg then -off else off)

/-- The text after the colon of a flag. -/
def offsetField (flags : List Char) : List Char := (flags.dropWhile (· ≠ ':')).tail

def applyFlagColumn64 (flags : List Char) (order : SimInbound) : Outcome SimInbound :=
  if flags = [] ∨ flags = "nd".toList then
    ok { order with nonDisplayed := flags = "nd".toList }
  else
    let kind := flags.takeWhile (· ≠ ':')
    let off := if ':' ∈ flags then flagOffset64 (offsetField flags) else ok 0
    off.bind fun off =>
      let pegged (peg : Peg) : SimInbound :=
        { order with peg, pegOffsetTicks := off, nonDisplayed := true, type := .dayLimit }
      if kind = "mid".toList then ok (pegged .mid)
      else if kind = "bid".toList then ok (pegged .bid)
      else if kind = "ask".toList then ok (pegged .ask)
      else if kind = "nd".toList then
        ok { order with nonDisplayed := true, pegOffsetTicks := off }
      else rejected

/-- A field of a line; a missing one is empty. -/
def field (line : List Char) (i : Nat) : List Char := (line.splitOn ',').getD i []

/-- The checks of a row and the row, once its numbers are read. -/
def finishRow64 (line : List Char) (kind : RowKind) (ts px qty ref : Int) : Outcome Row :=
  if ¬ kind.control ∧ (px < 0 ∨ qty ≤ 0 ∨ ref < 0 ∨ (field line 2).length ≠ 1) then rejected
  else if ¬ kind.control ∧ field line 2 ≠ ['B'] ∧ field line 2 ≠ ['S'] then rejected
  else
    let row : Row :=
      { kind, ts := toU64 ts, side := parseSide (field line 2), price := px, qty := toU32 qty
        ref := toU64 ref, flags := field line 6 }
    if 7 ≤ (line.splitOn ',').length then (applyFlagColumn64 (field line 6) {}).bind fun _ => ok row
    else ok row

/-- One row, its fields read in the order of the source. -/
def parseRow64 (line : List Char) : Outcome Row :=
  (num64 (field line 1)).bind fun ts =>
    match RowKind.ofName (field line 0) with
    | none => rejected
    | some kind =>
        if ts < 0 then rejected
        else
          (if kind.control then ok 0 else num64 (field line 3)).bind fun px =>
            (if kind.control then ok 0 else num64 (field line 4)).bind fun qty =>
              (if kind.control then ok 0 else num64 (field line 5)).bind fun ref =>
                finishRow64 line kind ts px qty ref

/-- The rows, up to the first that is not accepted. -/
def parseRows64 : List (List Char) → Outcome (List Row)
  | [] => ok []
  | line :: rest => (parseRow64 line).bind fun row => (parseRows64 rest).bind fun rows => ok (row :: rows)

/-- `parse_script` in the widths of the source. -/
def parseScript64 (text : List Char) : Outcome (List Row) :=
  if (lines text).head?.any scriptHeaders.contains then parseRows64 (lines text).tail
  else rejected

/-! ## Numbers -/

/-- The field is a number. -/
def IsNumber (field : List Char) : Prop := field ≠ [] ∧ ∀ c ∈ field, c.isDigit

instance (field : List Char) : Decidable (IsNumber field) :=
  decidable_of_iff (field ≠ [] ∧ field.all Char.isDigit) (and_congr_right fun _ => List.all_eq_true)

/-- The decimal value of some digits. -/
def value (digits : List Char) : Nat := Nat.ofDigitChars 10 digits 0

/-- The field writes the number. -/
def Writes (field : List Char) (n : Nat) : Prop := IsNumber field ∧ value field = n

/-- The value of the digits in front of a field: what the loop has added up when it stops. -/
def runValue (field : List Char) : Nat := value (field.takeWhile Char.isDigit)

theorem isDigit_iff_range {c : Char} : c.isDigit ↔ ¬ (c < '0' ∨ '9' < c) := by
  refine ⟨fun h => (isDigit_range h).1, fun h => ?_⟩
  rw [not_or] at h
  exact Char.isDigit_iff_toNat.mpr ⟨Nat.le_of_not_lt h.1, Nat.le_of_not_lt h.2⟩

theorem le_ofDigitChars (l : List Char) (v : Nat) : v ≤ Nat.ofDigitChars 10 l v := by
  induction l generalizing v with
  | nil => exact Nat.le_refl v
  | cons c l ih =>
      rw [Nat.ofDigitChars_cons]
      exact Nat.le_trans (by omega) (ih _)

theorem digitsLoop_eq_none {l : List Char} (h : ¬ ∀ c ∈ l, c.isDigit) (v : Nat) :
    digitsLoop v l = none := by
  induction l generalizing v with
  | nil => exact absurd (fun c hc => absurd hc List.not_mem_nil) h
  | cons c l ih =>
      by_cases hc : c.isDigit
      · obtain ⟨hrange, hlow⟩ := isDigit_range hc
        have hnext : (v : Int) * 10 + ((c.toNat : Int) - 48) = ((10 * v + (c.toNat - 48) : Nat) : Int) := by
          omega
        rw [digitsLoop, if_neg hrange, hnext]
        exact ih (fun hl => h (List.forall_mem_cons.mpr ⟨hc, hl⟩)) _
      · rw [digitsLoop, if_pos (not_not.mp fun hr => hc (isDigit_iff_range.mpr hr))]

/-- **The 64-bit loop** reads as the unbounded one does while the digits in front fit. -/
theorem digitsLoop64_eq (l : List Char) {v : Nat} (hv : v < 2 ^ 63) :
    digitsLoop64 v l =
      if Nat.ofDigitChars 10 (l.takeWhile Char.isDigit) v < 2 ^ 63 then ofOption (digitsLoop v l)
      else undefined := by
  induction l generalizing v with
  | nil => rw [List.takeWhile_nil, Nat.ofDigitChars_nil, if_pos hv]; rfl
  | cons c l ih =>
      by_cases hc : c.isDigit
      · obtain ⟨hrange, hlow⟩ := isDigit_range hc
        have hnext : (v : Int) * 10 + ((c.toNat : Int) - 48) = ((10 * v + (c.toNat - 48) : Nat) : Int) := by
          omega
        rw [digitsLoop64, digitsLoop, if_neg hrange, if_neg hrange, hnext,
          List.takeWhile_cons_of_pos hc, Nat.ofDigitChars_cons]
        have hcode : '0'.toNat = 48 := rfl
        rw [hcode]
        by_cases hfit : 10 * v + (c.toNat - 48) < 2 ^ 63
        · rw [if_neg (by omega)]
          exact ih hfit
        · have hbig := le_ofDigitChars (l.takeWhile Char.isDigit) (10 * v + (c.toNat - 48))
          rw [if_pos (by omega), if_neg (by omega)]
      · have hrange := not_not.mp fun hr => hc (isDigit_iff_range.mpr hr)
        rw [digitsLoop64, digitsLoop, if_pos hrange, if_pos hrange, List.takeWhile_cons_of_neg hc,
          Nat.ofDigitChars_nil, if_pos hv]
        rfl

theorem num_eq (field : List Char) : num field = if IsNumber field then (value field : Int) else -1 := by
  unfold num
  by_cases hnil : field = []
  · rw [if_pos hnil, if_neg fun h => h.1 hnil]
  · rw [if_neg hnil]
    by_cases hdigits : ∀ c ∈ field, c.isDigit
    · have hloop := digitsLoop_digits hdigits 0
      rw [if_pos ⟨hnil, hdigits⟩]
      exact congrArg (fun x => Option.getD x (-1)) hloop
    · have hloop := digitsLoop_eq_none hdigits 0
      rw [if_neg fun h => hdigits h.2]
      exact congrArg (fun x => Option.getD x (-1)) hloop

theorem num_nonneg_iff {field : List Char} : ¬ num field < 0 ↔ IsNumber field := by
  rw [num_eq]
  by_cases h : IsNumber field
  · rw [if_pos h]
    exact ⟨fun _ => h, fun _ => by omega⟩
  · rw [if_neg h]
    exact ⟨fun hn => absurd (by decide) hn, fun hn => absurd hn h⟩

theorem num64_eq (field : List Char) :
    num64 field = if runValue field < 2 ^ 63 then ok (num field) else undefined := by
  unfold num64 num runValue value
  by_cases hnil : field = []
  · subst hnil
    rfl
  · rw [if_neg hnil, if_neg hnil]
    have hloop := digitsLoop64_eq field (v := 0) (by decide)
    rw [Nat.cast_zero] at hloop
    rw [hloop]
    by_cases hfit : Nat.ofDigitChars 10 (field.takeWhile Char.isDigit) 0 < 2 ^ 63
    · rw [if_pos hfit, if_pos hfit]
      cases digitsLoop 0 field <;> rfl
    · rw [if_neg hfit, if_neg hfit]

/-! ## Flags -/

/-- What a flags column says about the offset: nothing, or a sign and a number. -/
inductive FlagWrites : List Char → Int → Prop where
  | none {flags : List Char} : ':' ∉ flags → FlagWrites flags 0
  | plain {kind digits : List Char} {n : Nat} :
      ':' ∉ kind → Writes digits n → FlagWrites (kind ++ ':' :: digits) n
  | plus {kind digits : List Char} {n : Nat} :
      ':' ∉ kind → Writes digits n → FlagWrites (kind ++ ':' :: '+' :: digits) n
  | minus {kind digits : List Char} {n : Nat} :
      ':' ∉ kind → Writes digits n → FlagWrites (kind ++ ':' :: '-' :: digits) (-n)

/-- The offset of a flags column, if it has one, adds up within 63 bits. -/
def OffsetFits (flags : List Char) : Prop :=
  ':' ∈ flags → runValue (offsetDigits (offsetField flags)) < 2 ^ 63

instance (flags : List Char) : Decidable (OffsetFits flags) :=
  inferInstanceAs (Decidable (':' ∈ flags → _))

theorem flagOffset64_eq (field : List Char) :
    flagOffset64 field =
      if runValue (offsetDigits field) < 2 ^ 63 then ofOption (flagOffset field) else undefined := by
  unfold flagOffset64 flagOffset
  dsimp only
  change (if offsetDigits field = [] then _ else _) =
    if _ then ofOption (if offsetDigits field = [] then none
      else (digitsLoop 0 (offsetDigits field)).map _) else _
  generalize offsetDigits field = digits
  by_cases hnil : digits = []
  · subst hnil
    rfl
  · rw [if_neg hnil, if_neg hnil]
    have hloop := digitsLoop64_eq digits (v := 0) (by decide)
    rw [Nat.cast_zero] at hloop
    rw [hloop]
    unfold runValue value
    by_cases hfit : Nat.ofDigitChars 10 (digits.takeWhile Char.isDigit) 0 < 2 ^ 63
    · rw [if_pos hfit, if_pos hfit]
      cases digitsLoop 0 digits <;> rfl
    · rw [if_neg hfit, if_neg hfit]
      rfl

/-- **A flags column** is read exactly while its offset fits. -/
theorem applyFlagColumn64_eq (flags : List Char) (order : SimInbound) :
    applyFlagColumn64 flags order =
      if OffsetFits flags then ofOption (applyFlagColumn flags order) else undefined := by
  unfold applyFlagColumn64 applyFlagColumn
  by_cases hshort : flags = [] ∨ flags = "nd".toList
  · rw [if_pos hshort, if_pos hshort, if_pos]
    · rfl
    · intro hcolon
      rcases hshort with rfl | rfl <;> exact absurd hcolon (by decide)
  · rw [if_neg hshort, if_neg hshort]
    dsimp only
    by_cases hcolon : ':' ∈ flags
    · rw [if_pos hcolon, if_pos hcolon, flagOffset64_eq]
      change _ = if _ then ofOption (Option.bind (flagOffset (offsetField flags)) _) else _
      by_cases hfit : OffsetFits flags
      · rw [if_pos hfit, if_pos (hfit hcolon), ofOption_bind]
        congr 1
        funext off
        split <;> [rfl; split <;> [rfl; split <;> [rfl; split <;> rfl]]]
      · rw [if_neg hfit, if_neg fun hf => hfit fun _ => hf]
        rfl
    · have hfit : OffsetFits flags := fun h => absurd h hcolon
      rw [if_neg hcolon, if_neg hcolon, if_pos hfit, Option.bind_some, ok_bind]
      split <;> [rfl; split <;> [rfl; split <;> [rfl; split <;> rfl]]]

theorem flags_split {flags : List Char} (hcolon : ':' ∈ flags) :
    flags = flags.takeWhile (· ≠ ':') ++ ':' :: offsetField flags ∧
      ':' ∉ flags.takeWhile (· ≠ ':') := by
  constructor
  · have hdrop : flags.dropWhile (· ≠ ':') = ':' :: offsetField flags := by
      unfold offsetField
      induction flags with
      | nil => exact absurd hcolon List.not_mem_nil
      | cons c flags ih =>
          by_cases hc : c = ':'
          · subst hc
            rw [List.dropWhile_cons_of_neg (by simp)]
            rfl
          · rw [List.dropWhile_cons_of_pos (by simpa using hc)]
            exact ih ((List.mem_cons.mp hcolon).resolve_left (Ne.symm hc))
    rw [← hdrop]
    exact List.takeWhile_append_dropWhile.symm
  · intro hmem
    have hne : decide (':' ≠ ':') = true := by simpa using List.mem_takeWhile_imp hmem
    exact absurd rfl (of_decide_eq_true hne)

theorem digitsLoop_writes {digits : List Char} {v : Int} (hne : digits ≠ [])
    (h : digitsLoop 0 digits = some v) : Writes digits (value digits) ∧ v = value digits := by
  by_cases hdigits : ∀ c ∈ digits, c.isDigit
  · have hloop := digitsLoop_digits hdigits 0
    rw [Nat.cast_zero, h] at hloop
    exact ⟨⟨⟨hne, hdigits⟩, rfl⟩, Option.some.inj hloop⟩
  · have hloop := digitsLoop_eq_none hdigits 0
    rw [Nat.cast_zero, h] at hloop
    exact absurd hloop (Option.some_ne_none v)

theorem flagOffset_writes {flags : List Char} {off : Int} (hcolon : ':' ∈ flags)
    (h : flagOffset (offsetField flags) = some off) : FlagWrites flags off := by
  obtain ⟨hflags, hkind⟩ := flags_split hcolon
  rw [hflags]
  generalize flags.takeWhile (· ≠ ':') = kind at hkind
  generalize offsetField flags = field at h
  unfold flagOffset at h
  dsimp only at h
  by_cases hminus : field.head? = some '-'
  · obtain ⟨rest, rfl⟩ : ∃ rest, field = '-' :: rest := List.head?_eq_some_iff.mp hminus
    rw [if_pos (Or.inl hminus)] at h
    split at h
    · exact absurd h.symm (Option.some_ne_none off)
    · next hne =>
        obtain ⟨v, hv, rfl⟩ := Option.map_eq_some_iff.mp h
        obtain ⟨hwrites, rfl⟩ := digitsLoop_writes hne hv
        exact FlagWrites.minus hkind hwrites
  · by_cases hplus : field.head? = some '+'
    · obtain ⟨rest, rfl⟩ : ∃ rest, field = '+' :: rest := List.head?_eq_some_iff.mp hplus
      rw [if_pos (Or.inr hplus)] at h
      split at h
      · exact absurd h.symm (Option.some_ne_none off)
      · next hne =>
          obtain ⟨v, hv, rfl⟩ := Option.map_eq_some_iff.mp h
          obtain ⟨hwrites, rfl⟩ := digitsLoop_writes hne hv
          exact FlagWrites.plus hkind hwrites
    · rw [if_neg (not_or.mpr ⟨hminus, hplus⟩)] at h
      split at h
      · exact absurd h.symm (Option.some_ne_none off)
      · next hne =>
          obtain ⟨v, hv, rfl⟩ := Option.map_eq_some_iff.mp h
          obtain ⟨hwrites, rfl⟩ := digitsLoop_writes hne hv
          exact FlagWrites.plain hkind hwrites

/-- **A flags column that is accepted** sets the offset that it writes. -/
theorem applyFlagColumn_writes {flags : List Char} {order order' : SimInbound}
    (hzero : order.pegOffsetTicks = 0) (h : applyFlagColumn flags order = some order') :
    FlagWrites flags order'.pegOffsetTicks := by
  unfold applyFlagColumn at h
  by_cases hshort : flags = [] ∨ flags = "nd".toList
  · rw [if_pos hshort] at h
    rw [← Option.some.inj h]
    dsimp only
    rw [hzero]
    refine FlagWrites.none ?_
    rcases hshort with rfl | rfl <;> decide
  · rw [if_neg hshort] at h
    dsimp only at h
    obtain ⟨off, hoff, h⟩ := Option.bind_eq_some_iff.mp h
    have hset : order'.pegOffsetTicks = off := by
      split at h
      · exact (Option.some.inj h) ▸ rfl
      · split at h
        · exact (Option.some.inj h) ▸ rfl
        · split at h
          · exact (Option.some.inj h) ▸ rfl
          · split at h
            · exact (Option.some.inj h) ▸ rfl
            · exact absurd h.symm (Option.some_ne_none order')
    rw [hset]
    by_cases hcolon : ':' ∈ flags
    · rw [if_pos hcolon] at hoff
      exact flagOffset_writes hcolon hoff
    · rw [if_neg hcolon] at hoff
      rw [← Option.some.inj hoff]
      exact FlagWrites.none hcolon

/-- Whether a flags column is accepted does not depend on the order. -/
theorem applyFlagColumn_isSome (flags : List Char) (order order' : SimInbound) :
    (applyFlagColumn flags order).isSome = (applyFlagColumn flags order').isSome := by
  unfold applyFlagColumn
  by_cases hshort : flags = [] ∨ flags = "nd".toList
  · rw [if_pos hshort, if_pos hshort]
    rfl
  · rw [if_neg hshort, if_neg hshort]
    dsimp only
    cases (if ':' ∈ flags then flagOffset ((flags.dropWhile (· ≠ ':')).tail) else some 0) with
    | none => rfl
    | some off =>
        rw [Option.bind_some, Option.bind_some]
        split <;> [rfl; split <;> [rfl; split <;> [rfl; split <;> rfl]]]

/-! ## Rows -/

/-- The row passes every check up to its flags. -/
def Checked (line : List Char) (kind : RowKind) : Prop :=
  IsNumber (field line 1) ∧
    (¬ kind.control → IsNumber (field line 3) ∧ IsNumber (field line 4) ∧ 0 < value (field line 4) ∧
      IsNumber (field line 5) ∧ (field line 2 = ['B'] ∨ field line 2 = ['S']))

/-- The row is accepted when its numbers have no bound. -/
def WellFormed (line : List Char) : Prop :=
  ∃ kind, RowKind.ofName (field line 0) = some kind ∧ Checked line kind ∧
    (7 ≤ (line.splitOn ',').length → applyFlagColumn (field line 6) {} ≠ none)

/-- Every number that the reader comes to in a row adds up within 63 bits. -/
structure Fits (line : List Char) : Prop where
  ts : runValue (field line 1) < 2 ^ 63
  numbers : ∀ kind, RowKind.ofName (field line 0) = some kind → IsNumber (field line 1) →
    ¬ kind.control → ∀ i ∈ [3, 4, 5], runValue (field line i) < 2 ^ 63
  offset : ∀ kind, RowKind.ofName (field line 0) = some kind → Checked line kind →
    7 ≤ (line.splitOn ',').length → OffsetFits (field line 6)

/-- A number of a row, which a control row does not read. -/
def given (line : List Char) (kind : RowKind) (i : Nat) : Int :=
  if kind.control then 0 else num (field line i)

/-- The row of a line, from its exact numbers. -/
def rowOf (line : List Char) (kind : RowKind) : Row :=
  { kind, ts := toU64 (num (field line 1)), side := parseSide (field line 2)
    price := given line kind 3, qty := toU32 (given line kind 4), ref := toU64 (given line kind 5)
    flags := field line 6 }

/-- The two checks on the fields of a row with liquidity. -/
def Refused (line : List Char) (kind : RowKind) : Prop :=
  (¬ kind.control ∧ (given line kind 3 < 0 ∨ given line kind 4 ≤ 0 ∨ given line kind 5 < 0 ∨
      (field line 2).length ≠ 1)) ∨
    (¬ kind.control ∧ field line 2 ≠ ['B'] ∧ field line 2 ≠ ['S'])

instance (line : List Char) (kind : RowKind) : Decidable (Refused line kind) :=
  inferInstanceAs (Decidable (_ ∨ _))

theorem checked_iff {line : List Char} {kind : RowKind} :
    Checked line kind ↔ ¬ num (field line 1) < 0 ∧ ¬ Refused line kind := by
  unfold Checked Refused given
  rw [num_nonneg_iff]
  refine and_congr_right fun _ => ?_
  by_cases hc : kind.control
  · exact ⟨fun _ hr => hr.elim (fun h => h.1 hc) (fun h => h.1 hc), fun _ h => absurd hc h⟩
  · rw [if_neg hc, if_neg hc, if_neg hc, ← num_nonneg_iff, ← @num_nonneg_iff (field line 5)]
    have hqty : IsNumber (field line 4) ∧ 0 < value (field line 4) ↔ ¬ num (field line 4) ≤ 0 := by
      rw [num_eq]
      by_cases h : IsNumber (field line 4)
      · rw [if_pos h]
        exact ⟨fun hp => by omega, fun hp => ⟨h, by omega⟩⟩
      · rw [if_neg h]
        exact ⟨fun hp => absurd hp.1 h, fun hp => absurd (by decide) hp⟩
    constructor
    · intro h
      obtain ⟨hpx, hq, hpos, href, hside⟩ := h hc
      have hq := hqty.mp ⟨hq, hpos⟩
      rintro (⟨-, hpx' | hq' | href' | hlen⟩ | ⟨-, hB, hS⟩)
      · exact hpx hpx'
      · exact hq hq'
      · exact href href'
      · rcases hside with hB | hS
        · rw [hB] at hlen
          exact hlen rfl
        · rw [hS] at hlen
          exact hlen rfl
      · exact hside.elim hB hS
    · intro h _
      rw [not_or, not_and, not_and, not_or, not_or, not_or] at h
      obtain ⟨hpx, hq, href, -⟩ := h.1 hc
      obtain ⟨hq, hpos⟩ := hqty.mpr hq
      refine ⟨hpx, hq, hpos, href, ?_⟩
      by_cases hB : field line 2 = ['B']
      · exact Or.inl hB
      · exact Or.inr (not_not.mp fun hS => h.2 hc ⟨hB, hS⟩)

/-- **What an unbounded reader accepts.** -/
theorem parseRow_eq_some {line : List Char} {row : Row} :
    parseRow line = some row ↔
      ∃ kind, RowKind.ofName (field line 0) = some kind ∧ Checked line kind ∧
        (7 ≤ (line.splitOn ',').length → applyFlagColumn (field line 6) {} ≠ none) ∧
        row = rowOf line kind := by
  unfold parseRow
  change (match RowKind.ofName (field line 0) with
    | none => none
    | some kind => _) = _ ↔ _
  cases hkind : RowKind.ofName (field line 0) with
  | none =>
      exact ⟨fun h => absurd h.symm (Option.some_ne_none row),
        fun ⟨_, h, _⟩ => absurd h.symm (Option.some_ne_none _)⟩
  | some kind =>
      change (if num (field line 1) < 0 then none
        else if ¬ kind.control ∧ (given line kind 3 < 0 ∨ given line kind 4 ≤ 0 ∨
          given line kind 5 < 0 ∨ (field line 2).length ≠ 1) then none
        else if ¬ kind.control ∧ field line 2 ≠ ['B'] ∧ field line 2 ≠ ['S'] then none
        else if 7 ≤ (line.splitOn ',').length ∧ applyFlagColumn (field line 6) {} = none then none
        else some (rowOf line kind)) = some row ↔ _
      constructor
      · intro h
        split at h
        · exact absurd h.symm (Option.some_ne_none row)
        · next hts =>
          split at h
          · exact absurd h.symm (Option.some_ne_none row)
          · next hnums =>
            split at h
            · exact absurd h.symm (Option.some_ne_none row)
            · next hside =>
              split at h
              · exact absurd h.symm (Option.some_ne_none row)
              · next hflags =>
                have hchecked := checked_iff.mpr ⟨hts, fun hr => hr.elim hnums hside⟩
                exact ⟨kind, rfl, hchecked, fun h7 hnone => hflags ⟨h7, hnone⟩,
                  (Option.some.inj h).symm⟩
      · rintro ⟨kind', hk, hchecked, hflags, rfl⟩
        obtain rfl := Option.some.inj hk
        obtain ⟨hts, hok⟩ := checked_iff.mp hchecked
        rw [if_neg hts, if_neg fun h => hok (Or.inl h), if_neg fun h => hok (Or.inr h),
          if_neg fun h => hflags h.1 h.2]

theorem wellFormed_iff {line : List Char} : WellFormed line ↔ parseRow line ≠ none := by
  rw [Option.ne_none_iff_exists']
  constructor
  · exact fun ⟨kind, hkind, hchecked, hflags⟩ =>
      ⟨_, parseRow_eq_some.mpr ⟨kind, hkind, hchecked, hflags, rfl⟩⟩
  · intro ⟨_, h⟩
    obtain ⟨kind, hkind, hchecked, hflags, _⟩ := parseRow_eq_some.mp h
    exact ⟨kind, hkind, hchecked, hflags⟩

theorem given64_eq (line : List Char) (kind : RowKind) (i : Nat) :
    (if kind.control then ok 0 else num64 (field line i)) =
      if kind.control ∨ runValue (field line i) < 2 ^ 63 then ok (given line kind i) else undefined := by
  unfold given
  by_cases hc : kind.control
  · rw [if_pos hc, if_pos hc, if_pos (Or.inl hc)]
  · rw [if_neg hc, if_neg hc, num64_eq]
    by_cases hfit : runValue (field line i) < 2 ^ 63
    · rw [if_pos hfit, if_pos (Or.inr hfit)]
    · rw [if_neg hfit, if_neg fun h => h.elim hc hfit]

theorem parseRow_eq_none {line : List Char} (h : ¬ WellFormed line) : parseRow line = none :=
  not_not.mp fun hne => h (wellFormed_iff.mpr hne)

section
variable {line : List Char} {kind : RowKind}

/-- The checks of a row whose numbers have been read. -/
theorem finishRow64_eq :
    finishRow64 line kind (num (field line 1)) (given line kind 3) (given line kind 4)
        (given line kind 5) =
      if Refused line kind then rejected
      else if 7 ≤ (line.splitOn ',').length then
        (applyFlagColumn64 (field line 6) {}).bind fun _ => ok (rowOf line kind)
      else ok (rowOf line kind) := by
  unfold finishRow64
  by_cases hnums : ¬ kind.control ∧ (given line kind 3 < 0 ∨ given line kind 4 ≤ 0 ∨
      given line kind 5 < 0 ∨ (field line 2).length ≠ 1)
  · have hrefused : Refused line kind := Or.inl hnums
    rw [if_pos hnums, if_pos hrefused]
  · rw [if_neg hnums]
    by_cases hside : ¬ kind.control ∧ field line 2 ≠ ['B'] ∧ field line 2 ≠ ['S']
    · have hrefused : Refused line kind := Or.inr hside
      rw [if_pos hside, if_pos hrefused]
    · have hrefused : ¬ Refused line kind := fun h => h.elim hnums hside
      rw [if_neg hside, if_neg hrefused]
      rfl

/-- A row past its checks, by its flags. -/
theorem finishRow64_checked (hkind : RowKind.ofName (field line 0) = some kind)
    (hchecked : Checked line kind) :
    finishRow64 line kind (num (field line 1)) (given line kind 3) (given line kind 4)
        (given line kind 5) =
      if 7 ≤ (line.splitOn ',').length → OffsetFits (field line 6) then ofOption (parseRow line)
      else undefined := by
  rw [finishRow64_eq, if_neg (checked_iff.mp hchecked).2]
  have hrow : (7 ≤ (line.splitOn ',').length → applyFlagColumn (field line 6) {} ≠ none) →
      parseRow line = some (rowOf line kind) :=
    fun hflags => parseRow_eq_some.mpr ⟨kind, hkind, hchecked, hflags, rfl⟩
  by_cases h7 : 7 ≤ (line.splitOn ',').length
  · rw [if_pos h7, applyFlagColumn64_eq]
    by_cases hfit : OffsetFits (field line 6)
    · rw [if_pos hfit, if_pos fun _ => hfit]
      cases hflags : applyFlagColumn (field line 6) {} with
      | none =>
          rw [parseRow_eq_none fun ⟨_, _, _, hok⟩ => hok h7 hflags]
          rfl
      | some order =>
          rw [hrow fun _ hnone => Option.some_ne_none order (hflags.symm.trans hnone)]
          rfl
    · rw [if_neg hfit, if_neg fun h => hfit (h h7)]
      rfl
  · rw [if_neg h7, if_pos fun h => absurd h h7, hrow fun h => absurd h h7]
    rfl

/-- A row whose numbers fit is read as the unbounded reader does. -/
theorem parseRow64_of_fits (h : Fits line) : parseRow64 line = ofOption (parseRow line) := by
  unfold parseRow64
  rw [num64_eq, if_pos h.ts, ok_bind]
  cases hkind : RowKind.ofName (field line 0) with
  | none =>
      rw [parseRow_eq_none fun ⟨_, hk, _⟩ => Option.some_ne_none _ (hk.symm.trans hkind)]
      rfl
  | some kind =>
      dsimp only
      by_cases hts : num (field line 1) < 0
      · rw [if_pos hts, parseRow_eq_none]
        · rfl
        · exact fun ⟨_, _, hchecked, _⟩ => (checked_iff.mp hchecked).1 hts
      · have hread : ∀ i ∈ [3, 4, 5], kind.control ∨ runValue (field line i) < 2 ^ 63 := by
          intro i hi
          by_cases hc : kind.control
          · exact Or.inl hc
          · exact Or.inr (h.numbers kind hkind (num_nonneg_iff.mp hts) hc i hi)
        rw [if_neg hts, given64_eq, if_pos (hread 3 (by decide)), ok_bind, given64_eq,
          if_pos (hread 4 (by decide)), ok_bind, given64_eq, if_pos (hread 5 (by decide)), ok_bind]
        by_cases hchecked : Checked line kind
        · rw [finishRow64_checked hkind hchecked, if_pos (h.offset kind hkind hchecked)]
        · have hrefused : Refused line kind :=
            not_not.mp fun hr => hchecked (checked_iff.mpr ⟨hts, hr⟩)
          rw [finishRow64_eq, if_pos hrefused, parseRow_eq_none]
          · rfl
          · rintro ⟨kind', hk, hc, -⟩
            obtain rfl := Option.some.inj (hkind.symm.trans hk)
            exact hchecked hc

/-- A row with a number that does not fit overflows. -/
theorem parseRow64_of_not_fits (h : ¬ Fits line) : parseRow64 line = undefined := by
  unfold parseRow64
  rw [num64_eq]
  by_cases hts63 : runValue (field line 1) < 2 ^ 63
  · rw [if_pos hts63, ok_bind]
    cases hkind : RowKind.ofName (field line 0) with
    | none =>
        have hno : ∀ kind, RowKind.ofName (field line 0) ≠ some kind :=
          fun kind hk => Option.some_ne_none kind (hk.symm.trans hkind)
        exact absurd ⟨hts63, fun k hk => absurd hk (hno k), fun k hk => absurd hk (hno k)⟩ h
    | some kind =>
        dsimp only
        by_cases hts : num (field line 1) < 0
        · have hno : ¬ IsNumber (field line 1) := fun hn => num_nonneg_iff.mpr hn hts
          exact absurd ⟨hts63, fun _ _ hn => absurd hn hno, fun _ _ hc => absurd hc.1 hno⟩ h
        · rw [if_neg hts, given64_eq, given64_eq, given64_eq]
          by_cases h3 : kind.control ∨ runValue (field line 3) < 2 ^ 63
          · by_cases h4 : kind.control ∨ runValue (field line 4) < 2 ^ 63
            · by_cases h5 : kind.control ∨ runValue (field line 5) < 2 ^ 63
              · rw [if_pos h3, if_pos h4, if_pos h5, ok_bind, ok_bind, ok_bind]
                by_cases hoff : Checked line kind ∧
                    ¬ (7 ≤ (line.splitOn ',').length → OffsetFits (field line 6))
                · rw [finishRow64_checked hkind hoff.1, if_neg hoff.2]
                · refine absurd ⟨hts63, ?_, ?_⟩ h
                  · intro k hk _ hc i hi
                    obtain rfl := Option.some.inj (hkind.symm.trans hk)
                    simp only [List.mem_cons, List.not_mem_nil, or_false] at hi
                    rcases hi with rfl | rfl | rfl
                    · exact h3.resolve_left hc
                    · exact h4.resolve_left hc
                    · exact h5.resolve_left hc
                  · intro k hk hchecked
                    obtain rfl := Option.some.inj (hkind.symm.trans hk)
                    exact not_not.mp fun hn => hoff ⟨hchecked, hn⟩
              · rw [if_pos h3, if_pos h4, if_neg h5]
                rfl
            · rw [if_pos h3, if_neg h4]
              rfl
          · rw [if_neg h3]
            rfl
  · rw [if_neg hts63]
    rfl

end

/-! ## Scripts -/

/-- Up to and with the first malformed row, every number that is read fits. -/
def Readable : List (List Char) → Prop
  | [] => True
  | line :: rest => Fits line ∧ (WellFormed line → Readable rest)

theorem parseRows64_of_readable {ls : List (List Char)} (h : Readable ls) :
    parseRows64 ls = ofOption (ls.mapM parseRow) := by
  induction ls with
  | nil => rfl
  | cons line rest ih =>
      obtain ⟨hfits, hrest⟩ := h
      rw [parseRows64, parseRow64_of_fits hfits, List.mapM_cons]
      cases hrow : parseRow line with
      | none => rfl
      | some row =>
          have hwell : WellFormed line :=
            wellFormed_iff.mpr fun hnone => Option.some_ne_none row (hrow.symm.trans hnone)
          change (parseRows64 rest).bind _ = _
          rw [ih (hrest hwell)]
          cases rest.mapM parseRow <;> rfl

theorem parseRows64_of_not_readable {ls : List (List Char)} (h : ¬ Readable ls) :
    parseRows64 ls = undefined := by
  induction ls with
  | nil => exact absurd trivial h
  | cons line rest ih =>
      rw [parseRows64]
      by_cases hfits : Fits line
      · have hwell : WellFormed line := not_not.mp fun hn => h ⟨hfits, fun hw => absurd hw hn⟩
        obtain ⟨row, hrow⟩ := Option.ne_none_iff_exists'.mp (wellFormed_iff.mp hwell)
        rw [parseRow64_of_fits hfits, hrow]
        change (parseRows64 rest).bind _ = _
        rw [ih fun hrest => h ⟨hfits, fun _ => hrest⟩]
        rfl
      · rw [parseRow64_of_not_fits hfits]
        rfl

/-- The row carries the numbers that its line writes. -/
structure Exact (line : List Char) (row : Row) : Prop where
  kind : RowKind.ofName (field line 0) = some row.kind
  ts : Writes (field line 1) row.ts
  price : ¬ row.kind.control → ∃ n : Nat, Writes (field line 3) n ∧ row.price = n
  qty : ¬ row.kind.control → Writes (field line 4) row.qty ∧ 0 < row.qty
  ref : ¬ row.kind.control → Writes (field line 5) row.ref
  /-- A control row has no number but its time. -/
  control : row.kind.control → row.price = 0 ∧ row.qty = 0 ∧ row.ref = 0
  flags : row.flags = field line 6
  offset : ∀ order : SimInbound, order.pegOffsetTicks = 0 →
    ∃ order', applyFlagColumn64 row.flags order = ok order' ∧
      FlagWrites row.flags order'.pegOffsetTicks

/-- The quantity of a row with liquidity has 32 bits. -/
def Narrow (line : List Char) : Prop :=
  ∀ kind, RowKind.ofName (field line 0) = some kind → ¬ kind.control → value (field line 4) < 2 ^ 32

theorem value_lt_of_fits {f : List Char} (hn : IsNumber f) (h : runValue f < 2 ^ 63) :
    value f < 2 ^ 63 := by
  unfold runValue at h
  rw [List.takeWhile_eq_self_iff.mpr hn.2] at h
  exact h

theorem toU64_value {f : List Char} (hn : IsNumber f) (h : runValue f < 2 ^ 63) :
    Writes f (toU64 (num f)) := by
  have hlt := value_lt_of_fits hn h
  refine ⟨hn, ?_⟩
  rw [num_eq, if_pos hn]
  unfold toU64
  omega

/-- The flags of a row that is accepted, short rows with none included. -/
theorem field_six {line : List Char}
    (hflags : 7 ≤ (line.splitOn ',').length → applyFlagColumn (field line 6) {} ≠ none)
    (hfits : 7 ≤ (line.splitOn ',').length → OffsetFits (field line 6)) :
    applyFlagColumn (field line 6) {} ≠ none ∧ OffsetFits (field line 6) := by
  by_cases h7 : 7 ≤ (line.splitOn ',').length
  · exact ⟨hflags h7, hfits h7⟩
  · have hempty : field line 6 = [] := by
      unfold field
      rw [List.getD_eq_getElem?_getD, List.getElem?_eq_none (by omega)]
      rfl
    rw [hempty]
    exact ⟨by decide, fun hcolon => absurd hcolon List.not_mem_nil⟩

/-- **An accepted row** whose numbers fit is exact, unless its quantity is cut. -/
theorem exact_iff_narrow {line : List Char} {row : Row} (hfits : Fits line)
    (h : parseRow line = some row) : Exact line row ↔ Narrow line := by
  obtain ⟨kind, hkind, hchecked, hflags, rfl⟩ := parseRow_eq_some.mp h
  obtain ⟨hts, hliquid⟩ := hchecked
  constructor
  -- A quantity that is read as written is what its 32 bits hold.
  · intro hexact k hk hc
    obtain rfl := Option.some.inj (hkind.symm.trans hk)
    obtain ⟨⟨-, hvalue⟩, -⟩ := hexact.qty hc
    change value (field line 4) = toU32 (given line kind 4) at hvalue
    unfold toU32 at hvalue
    omega
  -- Every other number is read in 64 bits, where a text that fits is read as written.
  · intro hnarrow
    have hread : ¬ kind.control → ∀ i ∈ [3, 4, 5], runValue (field line i) < 2 ^ 63 :=
      hfits.numbers kind hkind hts
    have hgiven : ∀ i, ¬ kind.control → given line kind i = num (field line i) :=
      fun i hc => if_neg hc
    refine ⟨hkind, toU64_value hts hfits.ts, ?_, ?_, ?_, ?_, rfl, ?_⟩
    · intro hc
      obtain ⟨hpx, -⟩ := hliquid hc
      refine ⟨value (field line 3), ⟨hpx, rfl⟩, ?_⟩
      change given line kind 3 = _
      rw [hgiven 3 hc, num_eq, if_pos hpx]
    · intro hc
      obtain ⟨-, hqty, hpos, -⟩ := hliquid hc
      have hlt := hnarrow kind hkind hc
      have hq : toU32 (given line kind 4) = value (field line 4) := by
        rw [hgiven 4 hc, num_eq, if_pos hqty]
        unfold toU32
        omega
      change Writes _ (toU32 (given line kind 4)) ∧ 0 < toU32 (given line kind 4)
      rw [hq]
      exact ⟨⟨hqty, rfl⟩, hpos⟩
    · intro hc
      obtain ⟨-, -, -, href, -⟩ := hliquid hc
      change Writes _ (toU64 (given line kind 5))
      rw [hgiven 5 hc]
      exact toU64_value href (hread hc 5 (by decide))
    · intro hc
      have hzero : ∀ i, given line kind i = 0 := fun i => if_pos hc
      refine ⟨hzero 3, ?_, ?_⟩
      · change toU32 (given line kind 4) = 0
        rw [hzero 4]
        rfl
      · change toU64 (given line kind 5) = 0
        rw [hzero 5]
        rfl
    · intro order hzero
      obtain ⟨hsome, hoffset⟩ :=
        field_six hflags (hfits.offset kind hkind ⟨hts, hliquid⟩)
      have hany := applyFlagColumn_isSome (field line 6) {} order
      rw [Option.isSome_iff_ne_none.mpr hsome] at hany
      obtain ⟨order', horder'⟩ := Option.isSome_iff_exists.mp hany.symm
      refine ⟨order', ?_, applyFlagColumn_writes hzero horder'⟩
      change applyFlagColumn64 (field line 6) order = _
      rw [applyFlagColumn64_eq, if_pos hoffset, horder']
      rfl

/-- All numbers that are read fit, and an accepted script has no quantity past 32 bits. -/
structure Sized (ls : List (List Char)) : Prop where
  readable : Readable ls
  narrow : (∀ line ∈ ls, WellFormed line) → ∀ line ∈ ls, Narrow line

theorem mapM_parseRow_some {ls : List (List Char)} {rows : List Row} :
    ls.mapM parseRow = some rows ↔ List.Forall₂ (fun line row => parseRow line = some row) ls rows := by
  induction ls generalizing rows with
  | nil =>
      rw [List.mapM_nil, List.forall₂_nil_left_iff]
      exact ⟨fun h => (Option.some.inj h).symm, fun h => congrArg some h.symm⟩
  | cons line rest ih =>
      rw [List.mapM_cons, List.forall₂_cons_left_iff]
      constructor
      · intro h
        obtain ⟨row, hrow, h⟩ := Option.bind_eq_some_iff.mp h
        obtain ⟨rows', hrows, h⟩ := Option.bind_eq_some_iff.mp h
        exact ⟨row, rows', hrow, ih.mp hrows, (Option.some.inj h).symm⟩
      · rintro ⟨row, rows', hrow, hrows, rfl⟩
        exact Option.bind_eq_some_iff.mpr
          ⟨row, hrow, Option.bind_eq_some_iff.mpr ⟨rows', ih.mpr hrows, rfl⟩⟩

/-- The rows of an accepted script are exact when no quantity is cut. -/
theorem exact_rows_iff {ls : List (List Char)} {rows : List Row} (hread : Readable ls)
    (h : List.Forall₂ (fun line row => parseRow line = some row) ls rows) :
    List.Forall₂ Exact ls rows ↔ ∀ line ∈ ls, Narrow line := by
  induction h with
  | nil => exact ⟨fun _ _ hmem => absurd hmem List.not_mem_nil, fun _ => List.Forall₂.nil⟩
  | @cons line row ls rows hrow hrows ih =>
      obtain ⟨hfits, hrest⟩ := hread
      have hwell : WellFormed line :=
        wellFormed_iff.mpr fun hnone => Option.some_ne_none row (hrow.symm.trans hnone)
      rw [List.forall₂_cons, exact_iff_narrow hfits hrow, ih (hrest hwell), List.forall_mem_cons]

theorem forall_wellFormed_iff {ls : List (List Char)} :
    (∀ line ∈ ls, WellFormed line) ↔
      ∃ rows, List.Forall₂ (fun line row => parseRow line = some row) ls rows := by
  induction ls with
  | nil => exact ⟨fun _ => ⟨[], List.Forall₂.nil⟩, fun _ _ hmem => absurd hmem List.not_mem_nil⟩
  | cons line rest ih =>
      rw [List.forall_mem_cons, ih, wellFormed_iff, Option.ne_none_iff_exists']
      constructor
      · exact fun ⟨⟨row, hrow⟩, rows, hrows⟩ => ⟨row :: rows, List.Forall₂.cons hrow hrows⟩
      · intro ⟨_, h⟩
        obtain ⟨row, rows, hrow, hrows, -⟩ := List.forall₂_cons_left_iff.mp h
        exact ⟨⟨row, hrow⟩, rows, hrows⟩

theorem parseScript64_nil {text : List Char} (h : lines text = []) : parseScript64 text = rejected := by
  unfold parseScript64
  rw [h]
  rfl

theorem parseScript64_cons {text header : List Char} {ls : List (List Char)}
    (h : lines text = header :: ls) :
    parseScript64 text = if header ∈ scriptHeaders then parseRows64 ls else rejected := by
  unfold parseScript64
  rw [h, List.head?_cons, Option.any_some, List.tail_cons]
  by_cases hheader : header ∈ scriptHeaders
  · rw [if_pos hheader, if_pos (List.contains_iff_mem.mpr hheader)]
  · rw [if_neg hheader, if_neg fun hd => hheader (List.contains_iff_mem.mp hd)]

/-- **When script numbers mean what they say**: a script is rejected, or its rows are the
nonblank lines after the header with the numbers that these write, exactly when the numbers
of its rows fit. -/
theorem script_numbers_exact_iff (text : List Char) :
    (parseScript64 text).Holds (fun rows => List.Forall₂ Exact (lines text).tail rows) ↔
      ∀ header rows, lines text = header :: rows → header ∈ scriptHeaders → Sized rows := by
  cases hlines : lines text with
  | nil =>
      rw [parseScript64_nil hlines]
      exact ⟨fun _ _ _ h => absurd h.symm (List.cons_ne_nil _ _), fun _ => trivial⟩
  | cons header ls =>
      rw [parseScript64_cons hlines]
      have hhead : ∀ {P : List (List Char) → Prop},
          (∀ header' rows, header :: ls = header' :: rows → header' ∈ scriptHeaders → P rows) ↔
            (header ∈ scriptHeaders → P ls) := by
        intro P
        constructor
        · exact fun h => h header ls rfl
        · intro h header' rows heq
          obtain ⟨rfl, rfl⟩ := List.cons.inj heq
          exact h
      rw [hhead, List.tail_cons]
      by_cases hheader : header ∈ scriptHeaders
      · rw [if_pos hheader]
        by_cases hread : Readable ls
        · rw [parseRows64_of_readable hread, holds_ofOption]
          simp only [mapM_parseRow_some]
          constructor
          · intro h _
            refine ⟨hread, fun hwell => ?_⟩
            obtain ⟨rows, hrows⟩ := forall_wellFormed_iff.mp hwell
            exact (exact_rows_iff hread hrows).mp (h rows hrows)
          · intro h rows hrows
            exact (exact_rows_iff hread hrows).mpr
              ((h hheader).narrow (forall_wellFormed_iff.mpr ⟨rows, hrows⟩))
        · rw [parseRows64_of_not_readable hread]
          exact ⟨False.elim, fun h => absurd (h hheader).readable hread⟩
      · rw [if_neg hheader]
        exact ⟨fun _ h => absurd h hheader, fun _ => trivial⟩

/-- While its numbers fit, a script is read as by the unbounded reader. -/
theorem parseScript64_of_readable {text : List Char}
    (h : ∀ header rows, lines text = header :: rows → header ∈ scriptHeaders → Readable rows) :
    parseScript64 text = ofOption (parseScript text) := by
  unfold parseScript
  cases hlines : lines text with
  | nil => exact parseScript64_nil hlines
  | cons header ls =>
      rw [parseScript64_cons hlines]
      dsimp only
      by_cases hheader : header ∈ scriptHeaders
      · rw [if_pos hheader, if_pos hheader]
        exact parseRows64_of_readable (h header ls hlines hheader)
      · rw [if_neg hheader, if_neg hheader]
        rfl

/-- A script that is accepted is accepted by the unbounded reader, with the same rows. -/
theorem parseScript64_ok {text : List Char} {rows : List Row} (h : parseScript64 text = ok rows) :
    parseScript text = some rows := by
  cases hlines : lines text with
  | nil =>
      rw [parseScript64_nil hlines] at h
      cases h
  | cons header ls =>
      by_cases hread : header ∈ scriptHeaders → Readable ls
      · have hsame := @parseScript64_of_readable text fun header' rows' heq hheader => by
          obtain ⟨rfl, rfl⟩ := List.cons.inj (hlines.symm.trans heq)
          exact hread hheader
        rw [hsame] at h
        cases hscript : parseScript text with
        | none =>
            rw [hscript] at h
            cases h
        | some rows' =>
            rw [hscript] at h
            cases h
            rfl
      · obtain ⟨hheader, hnot⟩ := Classical.not_imp.mp hread
        rw [parseScript64_cons hlines, if_pos hheader, parseRows64_of_not_readable hnot] at h
        cases h

/-- A script whose quantity is 2 ^ 32. -/
def wideScript : List Char :=
  "kind,ts_ns,side,price_ticks,qty,ref\next_add,0,B,100,4294967296,1\n".toList

/-- It is accepted with a row of quantity 0. -/
theorem wide_script_quantity_zero :
    ¬ ∀ text, (parseScript64 text).Holds fun rows => List.Forall₂ Exact (lines text).tail rows := by
  intro h
  have hexact := h wideScript
  rw [show parseScript64 wideScript = ok [{ kind := .extAdd, ts := 0, price := 100, ref := 1 }]
    by decide +kernel] at hexact
  obtain ⟨row, rows, hrow, -, hrows⟩ := List.forall₂_cons_right_iff.mp hexact
  exact absurd (hrow.qty (by decide)).2 (by decide)

end SimRun

end Mog
