import Mog.Ouch.Gateway

/-!
# Tokens and numbers

A token of fourteen digits is its number printed with leading zeros, and those are the only
tokens that come back: other characters are skipped on the way to the number.

A token is fourteen characters of which the digits are read as one number, whatever stands
between them. Printing writes fourteen digits, so reading back a printed number is exact for
every number of fourteen digits, and printing what was read is exact for tokens of digits alone.
-/

namespace Mog

namespace Ouch

/-! ## Digits -/

def IsDigit (c : UInt8) : Prop := 48 ≤ c ∧ c ≤ 57

instance (c : UInt8) : Decidable (IsDigit c) := inferInstanceAs (Decidable (_ ∧ _))

/-- A token of fourteen digits. -/
def Digits (tok : Token) : Prop := ∀ c ∈ tok.toList, IsDigit c

instance (tok : Token) : Decidable (Digits tok) := inferInstanceAs (Decidable (∀ c ∈ _, _))

/-- The value of a run of digits, the first the most significant. -/
def digitsValue (l : List UInt8) : Nat := l.foldl (fun id c => id * 10 + (c.toNat - 48)) 0

theorem IsDigit.range {c : UInt8} (h : IsDigit c) : 48 ≤ c.toNat ∧ c.toNat ≤ 57 :=
  ⟨UInt8.le_iff_toNat_le.mp h.1, UInt8.le_iff_toNat_le.mp h.2⟩

theorem digitsValue_concat (l : List UInt8) (c : UInt8) :
    digitsValue (l ++ [c]) = digitsValue l * 10 + (c.toNat - 48) := by
  unfold digitsValue
  rw [List.foldl_append]
  rfl

theorem digitsValue_append (l l' : List UInt8) :
    digitsValue (l ++ l') = digitsValue l * 10 ^ l'.length + digitsValue l' := by
  induction l' using List.reverseRecOn with
  | nil => simp [digitsValue]
  | append_singleton l' c ih =>
      rw [← List.append_assoc, digitsValue_concat, ih, digitsValue_concat, List.length_append,
        List.length_singleton, Nat.pow_succ, Nat.add_mul, Nat.mul_assoc, Nat.add_assoc]

theorem digitsValue_lt {l : List UInt8} (h : ∀ c ∈ l, IsDigit c) :
    digitsValue l < 10 ^ l.length := by
  induction l using List.reverseRecOn with
  | nil => exact Nat.one_pos
  | append_singleton l c ih =>
      have hrest := ih fun x hx => h x (List.mem_append_left _ hx)
      have hc := (h c (List.mem_append_right _ (List.mem_singleton_self c))).range
      rw [digitsValue_concat, List.length_append, List.length_singleton, Nat.pow_succ]
      omega

/-- A digit is read off the value of its run. -/
theorem digitsValue_digit {l : List UInt8} (h : ∀ c ∈ l, IsDigit c) {i : Nat} (hi : i < l.length) :
    digitsValue l / 10 ^ (l.length - 1 - i) % 10 = (l[i]).toNat - 48 := by
  have hsplit : l = (l.take i ++ [l[i]]) ++ l.drop (i + 1) := by
    rw [List.take_concat_get' l i hi, List.take_append_drop]
  have hlen : (l.drop (i + 1)).length = l.length - 1 - i := by
    rw [List.length_drop]
    omega
  have hlow := digitsValue_lt (l := l.drop (i + 1)) fun c hc => h c (List.mem_of_mem_drop hc)
  have hdigit := (h l[i] (List.getElem_mem hi)).range
  have hvalue := digitsValue_append (l.take i ++ [l[i]]) (l.drop (i + 1))
  rw [← hsplit, digitsValue_concat] at hvalue
  rw [hlen] at hlow hvalue
  rw [hvalue, Nat.mul_comm, Nat.mul_add_div (Nat.pow_pos (by decide)), Nat.div_eq_of_lt hlow]
  omega

/-! ## The round trip -/

/-- Digits are read without a wrap. -/
theorem foldl_digits {l : List UInt8} (h : ∀ c ∈ l, IsDigit c) (hlen : l.length ≤ 14) :
    l.foldl (fun id c => if 48 ≤ c ∧ c ≤ 57 then (id * 10 + (c.toNat - 48)) % 2 ^ 64 else id) 0
      = digitsValue l := by
  induction l using List.reverseRecOn with
  | nil => rfl
  | append_singleton l c ih =>
      rw [List.length_append, List.length_singleton] at hlen
      have hrest := ih (fun x hx => h x (List.mem_append_left _ hx)) (by omega)
      have hc : 48 ≤ c ∧ c ≤ 57 := h c (List.mem_append_right _ (List.mem_singleton_self c))
      have hlt := digitsValue_lt h
      have hpow : 10 ^ (l ++ [c]).length ≤ 10 ^ 14 :=
        Nat.pow_le_pow_right (by decide) (by rw [List.length_append]; exact hlen)
      rw [digitsValue_concat] at hlt ⊢
      rw [List.foldl_append, hrest, List.foldl_cons, List.foldl_nil, if_pos hc]
      exact Nat.mod_eq_of_lt (by omega)

theorem idFromToken_digits {tok : Token} (h : Digits tok) :
    idFromToken tok = digitsValue tok.toList ∧ idFromToken tok < 10 ^ 14 := by
  have hlen : tok.toList.length = 14 := Vector.length_toList
  have hid : idFromToken tok = digitsValue tok.toList := foldl_digits h (by omega)
  refine ⟨hid, ?_⟩
  rw [hid]
  simpa only [Vector.length_toList] using digitsValue_lt h

theorem printedWidth_eq {id : Nat} (h : id < 10 ^ 14) : printedWidth id = 14 := by
  have hlen := (Nat.length_toDigits_le_iff (b := 10) (by decide) (by decide : 0 < 14)).mpr h
  unfold printedWidth
  omega

/-- **A token of digits comes back.** -/
theorem tokenFromId_idFromToken {tok : Token} (h : Digits tok) :
    tokenFromId (idFromToken tok) = tok := by
  obtain ⟨hid, hlt⟩ := idFromToken_digits h
  have hlen : tok.toList.length = 14 := Vector.length_toList
  refine Vector.ext fun i hi => ?_
  have hmem : tok[i] ∈ tok.toList := Vector.mem_toList_iff.mpr (Vector.getElem_mem hi)
  have hdigit : digitsValue tok.toList / 10 ^ (14 - 1 - i) % 10 = tok[i].toNat - 48 := by
    have hread := digitsValue_digit h (i := i) (by omega)
    simp only [Vector.length_toList] at hread
    rw [hread]
    exact congrArg (fun c : UInt8 => c.toNat - 48) (Vector.getElem_toList _)
  have hrange := (h _ hmem).range
  unfold tokenFromId
  rw [Vector.getElem_ofFn, printedWidth_eq hlt, hid, hdigit]
  refine UInt8.toNat_inj.mp ?_
  rw [UInt8.toNat_ofNat']
  omega

/-- What is printed are digits. -/
theorem digits_tokenFromId (id : Nat) : Digits (tokenFromId id) := by
  intro c hc
  obtain ⟨i, hi, rfl⟩ := Vector.mem_iff_getElem.mp (Vector.mem_toList_iff.mp hc)
  unfold tokenFromId
  rw [Vector.getElem_ofFn]
  have hlt : id / 10 ^ (printedWidth id - 1 - i) % 10 < 10 := Nat.mod_lt _ (by decide)
  constructor
  · refine UInt8.le_iff_toNat_le.mpr ?_
    rw [UInt8.toNat_ofNat']
    show 48 ≤ _
    omega
  · refine UInt8.le_iff_toNat_le.mpr ?_
    rw [UInt8.toNat_ofNat']
    show _ ≤ 57
    omega

/-- **The tokens that come back** are those of fourteen digits. -/
theorem comes_back_iff (tok : Token) : tokenFromId (idFromToken tok) = tok ↔ Digits tok := by
  constructor
  · intro h
    rw [← h]
    exact digits_tokenFromId _
  · exact tokenFromId_idFromToken

end Ouch

end Mog
