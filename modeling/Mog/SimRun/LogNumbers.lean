import Mog.SimRun.Numbers

/-!
# Log numbers

The reader of an events log has a loop over digits of its own, like that of a script: 64
signed bits, and no look for an overflow. It reads every number of a row before it checks
one of them, so that a row which would be turned down may overflow first. This file reads
a log as the source does, with the outcome left undefined past an overflow, and shows that
a log it takes is one that the unbounded reader takes, with the same rows.
-/

namespace Mog

namespace SimRun

namespace Outcome

/-- The results of a reader on a list, up to the first that fails. -/
def mapM {α β : Type} (f : α → Outcome β) : List α → Outcome (List β)
  | [] => ok []
  | a :: l => (f a).bind fun b => (mapM f l).bind fun bs => ok (b :: bs)

theorem bind_eq_ok {α β : Type} {x : Outcome α} {f : α → Outcome β} {b : β} :
    x.bind f = ok b ↔ ∃ a, x = ok a ∧ f a = ok b := by
  constructor
  · intro h
    cases x with
    | undefined => cases h
    | rejected => cases h
    | ok a => exact ⟨a, rfl, h⟩
  · rintro ⟨a, rfl, h⟩
    exact h

/-- A list that is read in full is read so by every reader that reads the same of each element. -/
theorem mapM_ok {α β : Type} {f : α → Outcome β} {g : α → Option β}
    (hfg : ∀ a b, f a = ok b → g a = some b) {l : List α} {bs : List β} (h : mapM f l = ok bs) :
    l.mapM g = some bs := by
  induction l generalizing bs with
  | nil =>
      cases h
      rfl
  | cons a l ih =>
      obtain ⟨b, hb, hrest⟩ := bind_eq_ok.mp h
      obtain ⟨bs', hbs, hall⟩ := bind_eq_ok.mp hrest
      cases hall
      rw [List.mapM_cons, hfg a b hb, ih hbs]
      rfl

end Outcome

end SimRun

namespace Tearsheet

open SimRun Outcome

/-- A number without its sign. -/
def unsigned (field : List Char) : List Char :=
  if field.head? = some '-' then field.tail else field

/-- `num`: digits behind a minus sign or none, or -1. -/
def num64 (field : List Char) : Outcome Int :=
  if field = [] then ok (-1)
  else
    match digitsLoop64 0 (unsigned field) with
    | undefined => undefined
    | rejected => ok (-1)
    | ok val => ok (if field.head? = some '-' then -val else val)

/-- The number in a field of a line. Reading a field that is missing throws. -/
def numAt64 (line : List Char) (i : Nat) : Outcome Int :=
  if i < (line.splitOn ',').length then num64 (field line i) else rejected

/-- The checks of a row and the row, once its numbers are read. -/
def finishRow64 (line : List Char) (ts price qty fee mid : Int) : Outcome Row :=
  match field line 0, field line 3, field line 8 with
  | [type], [side], [ledger] =>
      if ts < 0 ∨ price < 0 ∨ qty ≤ 0 ∨ mid < 0 then rejected
      else
        ok { type, tsNs := toU64 ts, side, priceTicks := price, qty := toU32 qty, feeCash := fee
             midTicks := mid, ledger }
  | _, _, _ => rejected

/-- One row, its fields read in the order of the source. -/
def parseRow64 (line : List Char) : Outcome Row :=
  if (field line 0).length ≠ 1 then rejected
  else
    (numAt64 line 1).bind fun ts =>
      (numAt64 line 4).bind fun price =>
        (numAt64 line 5).bind fun qty =>
          (numAt64 line 6).bind fun fee =>
            (numAt64 line 7).bind fun mid => finishRow64 line ts price qty fee mid

/-- `parse_log` in the widths of the source. -/
def parseLog64 (text : List Char) : Outcome (List Row) :=
  match lines text with
  | [] => rejected
  | header :: rows => if kPrefix.isPrefixOf header then mapM parseRow64 rows else rejected

/-! ## What fits is read as by the unbounded reader -/

/-- **A number** of digits that fit is the one that the unbounded reader reads. -/
theorem num64_eq (field : List Char) : num64 field
    = if runValue (unsigned field) < 2 ^ 63 then ok (num field) else undefined := by
  unfold num64
  by_cases hnil : field = []
  · subst hnil
    rfl
  rw [if_neg hnil]
  have hloop := digitsLoop64_eq (unsigned field) (v := 0) (by decide)
  rw [Nat.cast_zero] at hloop
  have hvalue : runValue (unsigned field)
      = Nat.ofDigitChars 10 ((unsigned field).takeWhile Char.isDigit) 0 := rfl
  rw [hloop, hvalue]
  have hnum : num field = ((digitsLoop 0 (unsigned field)).map fun val =>
      if field.head? = some '-' then -val else val).getD (-1) := by
    unfold num unsigned
    rw [if_neg hnil]
    dsimp only
    cases digitsLoop 0 (if field.head? = some '-' then field.tail else field) <;> rfl
  rw [hnum]
  by_cases hfit : Nat.ofDigitChars 10 ((unsigned field).takeWhile Char.isDigit) 0 < 2 ^ 63
  · rw [if_pos hfit, if_pos hfit]
    cases digitsLoop 0 (unsigned field) <;> rfl
  · rw [if_neg hfit, if_neg hfit]

theorem num64_ok {field : List Char} {n : Int} (h : num64 field = ok n) : num field = n := by
  rw [num64_eq] at h
  split at h
  · cases h
    rfl
  · cases h

theorem numAt64_ok {line : List Char} {i : Nat} {n : Int} (h : numAt64 line i = ok n) :
    i < (line.splitOn ',').length ∧ num (field line i) = n := by
  unfold numAt64 at h
  split at h
  · rename_i hlt
    exact ⟨hlt, num64_ok h⟩
  · cases h

/-- The fields up to the mid, where there are so many. -/
theorem eight_of_length {α : Type} {l : List α} (h : 7 < l.length) :
    ∃ t ts ref side price qty fee mid rest,
      l = t :: ts :: ref :: side :: price :: qty :: fee :: mid :: rest := by
  have hsplit : l = l.take 8 ++ l.drop 8 := (List.take_append_drop 8 l).symm
  have hlen : (l.take 8).length = 8 := by
    rw [List.length_take]
    omega
  generalize l.take 8 = front at hsplit hlen
  rcases front with _ | ⟨t, _ | ⟨ts, _ | ⟨ref, _ | ⟨side, _ | ⟨price, _ | ⟨qty, _ | ⟨fee, _ | ⟨mid, more⟩⟩⟩⟩⟩⟩⟩⟩
    <;> simp only [List.length_cons, List.length_nil] at hlen <;> try omega
  have hnil : more = [] := List.length_eq_zero_iff.mp (by omega)
  subst hnil
  exact ⟨t, ts, ref, side, price, qty, fee, mid, _, hsplit⟩

/-- **A row** that is taken is taken by the unbounded reader. -/
theorem parseRow64_ok {line : List Char} {r : Row} (h : parseRow64 line = ok r) :
    parseRow line = some r := by
  unfold parseRow64 at h
  split at h
  · cases h
  obtain ⟨ts, hts, h⟩ := bind_eq_ok.mp h
  obtain ⟨price, hprice, h⟩ := bind_eq_ok.mp h
  obtain ⟨qty, hqty, h⟩ := bind_eq_ok.mp h
  obtain ⟨fee, hfee, h⟩ := bind_eq_ok.mp h
  obtain ⟨mid, hmid, h⟩ := bind_eq_ok.mp h
  obtain ⟨-, rfl⟩ := numAt64_ok hts
  obtain ⟨-, rfl⟩ := numAt64_ok hprice
  obtain ⟨-, rfl⟩ := numAt64_ok hqty
  obtain ⟨-, rfl⟩ := numAt64_ok hfee
  obtain ⟨hlong, rfl⟩ := numAt64_ok hmid
  unfold finishRow64 field at h
  unfold parseRow
  generalize line.splitOn ',' = fields at h hlong ⊢
  obtain ⟨t, ts, ref, side, price, qty, fee, mid, rest, rfl⟩ := eight_of_length hlong
  cases rest with
  | nil =>
      exfalso
      revert h
      split
      · rename_i hled
        cases hled
      · intro h
        cases h
  | cons led rest =>
      simp only [List.getD_cons_zero, List.getD_cons_succ] at h
      split at h
      · split at h
        · cases h
        · rename_i hok
          cases h
          exact if_neg hok
      · cases h

/-- **A log** that is taken is taken by the unbounded reader, with the same rows. -/
theorem parseLog64_ok {text : List Char} {rows : List Row} (h : parseLog64 text = ok rows) :
    parseLog text = some rows := by
  unfold parseLog64 at h
  unfold parseLog
  generalize lines text = ls at h ⊢
  cases ls with
  | nil => cases h
  | cons header rest =>
      dsimp only at h ⊢
      by_cases hprefix : kPrefix.isPrefixOf header = true
      · rw [if_pos hprefix] at h ⊢
        exact mapM_ok (fun _ _ => parseRow64_ok) h
      · rw [if_neg hprefix] at h
        cases h

end Tearsheet

end Mog
