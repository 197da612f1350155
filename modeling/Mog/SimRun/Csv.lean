import Mog.SimRun.Tearsheet

/-!
# A log reads back

What the writer prints, the reader parses: a number is its digits read back, no field holds
a separator and no line a line break, and so the reader sees the rows of the records, or
refuses the log for a record that fails one of its checks.

A field is read by one of two loops, for numbers and for signed numbers, and both are shown to
undo the printing of every number that a record can hold. Lines and fields are cut at the first
separator, which no printed field contains. The reader's checks are those of the source, and a
record that fails one makes it refuse the whole log.
-/

namespace Mog

namespace SimRun

/-! ## Numbers -/

theorem isDigit_range {c : Char} (h : c.isDigit) : ¬ (c < '0' ∨ '9' < c) ∧ 48 ≤ c.toNat := by
  have hc := Char.isDigit_iff_toNat.mp h
  refine ⟨?_, hc.1⟩
  rintro (hlow | hhigh)
  · exact absurd (Nat.lt_of_lt_of_le hlow hc.1) (Nat.lt_irrefl _)
  · exact absurd (Nat.lt_of_lt_of_le hhigh hc.2) (Nat.lt_irrefl _)

/-- The reader's loop over digits. -/
theorem digitsLoop_digits {l : List Char} (hl : ∀ c ∈ l, c.isDigit) (v : Nat) :
    digitsLoop v l = some (Nat.ofDigitChars 10 l v : Nat) := by
  induction l generalizing v with
  | nil => rfl
  | cons c l ih =>
      obtain ⟨hrange, hlow⟩ := isDigit_range (hl c List.mem_cons_self)
      have hnext : (v : Int) * 10 + ((c.toNat : Int) - 48) = ((10 * v + (c.toNat - 48) : Nat) : Int) := by
        omega
      rw [digitsLoop, if_neg hrange, hnext, ih fun x hx => hl x (List.mem_cons_of_mem _ hx)]
      rw [Nat.ofDigitChars_cons]
      rfl

theorem isDigit_showNat {n : Nat} {c : Char} (h : c ∈ showNat n) : c.isDigit :=
  Nat.isDigit_of_mem_toDigits (by decide) (by decide) h

theorem digitsLoop_showNat (n : Nat) : digitsLoop 0 (showNat n) = some (n : Int) := by
  have hread := digitsLoop_digits (fun c hc => isDigit_showNat (n := n) hc) 0
  rw [show Nat.ofDigitChars 10 (showNat n) 0 = n from Nat.ofDigitChars_ten_toDigits] at hread
  exact hread

theorem showNat_head {n : Nat} : (showNat n).head? ≠ some '-' := by
  intro h
  exact absurd (isDigit_showNat (List.mem_of_head? h)) (by decide)

/-- **A number reads back.** -/
theorem num_showNat (n : Nat) : Tearsheet.num (showNat n) = n := by
  have hne : showNat n ≠ [] := Nat.toDigits_ne_nil
  unfold Tearsheet.num
  rw [if_neg hne]
  dsimp only
  rw [if_neg showNat_head, digitsLoop_showNat]
  exact if_neg showNat_head

/-- **A signed number reads back.** -/
theorem num_showInt (z : Int) : Tearsheet.num (showInt z) = z := by
  unfold showInt
  by_cases hneg : z < 0
  · rw [if_pos hneg]
    have hhead : ('-' :: showNat z.natAbs).head? = some '-' := rfl
    unfold Tearsheet.num
    rw [if_neg (List.cons_ne_nil _ _)]
    dsimp only
    rw [if_pos hhead, List.tail_cons, digitsLoop_showNat]
    refine (if_pos hhead).trans ?_
    omega
  · rw [if_neg hneg, num_showNat]
    omega

/-! ## Fields and lines -/

/-- A character of a field: neither a separator nor a line break. -/
def Plain (c : Char) : Prop := c.isDigit ∨ c ∈ "-FPBSMT".toList

theorem not_plain {c : Char} (h : c = ',' ∨ c = '\n' ∨ c = '\r') : ¬ Plain c := by
  rcases h with rfl | rfl | rfl <;> unfold Plain <;> decide

theorem plain_showInt {z : Int} {c : Char} (h : c ∈ showInt z) : Plain c := by
  unfold showInt at h
  split at h
  · rcases List.mem_cons.mp h with rfl | h
    · exact Or.inr (by decide)
    · exact Or.inl (isDigit_showNat h)
  · exact Or.inl (isDigit_showNat h)

theorem plain_fields (e : EventRecord) : ∀ f ∈ e.fields, ∀ c ∈ f, Plain c := by
  have hletter : ∀ {x : Char}, x ∈ "FPBSMT".toList → ∀ c ∈ [x], Plain c := by
    intro x hx c hc
    rw [List.mem_singleton.mp hc]
    exact Or.inr (List.mem_cons_of_mem _ hx)
  have hnat : ∀ n : Nat, ∀ c ∈ showNat n, Plain c := fun n c hc => Or.inl (isDigit_showNat hc)
  have hint : ∀ z : Int, ∀ c ∈ showInt z, Plain c := fun z c hc => plain_showInt hc
  have htype : e.type.char ∈ "FPBSMT".toList := by cases e.type <;> decide
  have hside : sideChar e.side ∈ "FPBSMT".toList := by cases e.side <;> decide
  have hledger : e.ledger.char ∈ "FPBSMT".toList := by cases e.ledger <;> decide
  intro f hf
  simp only [EventRecord.fields, List.mem_cons, List.not_mem_nil, or_false] at hf
  rcases hf with rfl | rfl | rfl | rfl | rfl | rfl | rfl | rfl | rfl | rfl
  · exact hletter htype
  · exact hnat _
  · exact hnat _
  · exact hletter hside
  · exact hint _
  · exact hnat _
  · exact hint _
  · exact hint _
  · exact hletter hledger
  · exact hnat _

theorem toCsv_splitOn (e : EventRecord) : (toCsv e).splitOn ',' = e.fields := by
  refine List.splitOn_intercalate ',' (fun f hf hmem => ?_) (List.cons_ne_nil _ _)
  exact not_plain (Or.inl rfl) (plain_fields e f hf _ hmem)

/-- The row that a reader sees of a record. -/
def EventRecord.row (e : EventRecord) : Tearsheet.Row :=
  { type := e.type.char, tsNs := toU64 e.tsNs, side := sideChar e.side, priceTicks := e.priceTicks
    qty := toU32 e.qty, feeCash := e.feeCash, midTicks := e.midTicks, ledger := e.ledger.char }

/-- A record that the reader does not refuse. -/
def EventRecord.Readable (e : EventRecord) : Prop :=
  0 ≤ e.priceTicks ∧ 0 < e.qty ∧ 0 ≤ e.midTicks

instance (e : EventRecord) : Decidable e.Readable := inferInstanceAs (Decidable (_ ∧ _))

/-- **A record reads back** as its row, or the reader refuses it. -/
theorem parseRow_toCsv (e : EventRecord) :
    Tearsheet.parseRow (toCsv e) = if e.Readable then some e.row else none := by
  unfold Tearsheet.parseRow
  rw [toCsv_splitOn]
  unfold EventRecord.fields
  dsimp only
  simp only [num_showNat, num_showInt]
  by_cases h : e.Readable
  · rw [if_pos h, if_neg]
    · rfl
    · obtain ⟨hprice, hqty, hmid⟩ := h
      omega
  · rw [if_neg h, if_pos]
    unfold EventRecord.Readable at h
    omega

theorem splitOn_lines {ls : List (List Char)} (h : ∀ l ∈ ls, '\n' ∉ l) :
    (ls.flatMap fun line => line ++ ['\n']).splitOn '\n' = ls ++ [[]] := by
  induction ls with
  | nil => rfl
  | cons l ls ih =>
      rw [List.flatMap_cons, List.append_assoc]
      rw [List.singleton_append, List.splitOn_append_cons_self_of_not_mem (h l List.mem_cons_self)]
      rw [ih fun x hx => h x (List.mem_cons_of_mem _ hx)]
      rfl

/-- Lines that are not empty and hold no line break are the lines of their text. -/
theorem lines_flatMap {ls : List (List Char)} (hne : ∀ l ∈ ls, l ≠ [])
    (hn : ∀ l ∈ ls, '\n' ∉ l) (hr : ∀ l ∈ ls, '\r' ∉ l) :
    lines (ls.flatMap fun line => line ++ ['\n']) = ls := by
  have hstrip : ls.map (fun line => if line.getLast? = some '\r' then line.dropLast else line) = ls := by
    refine (List.map_congr_left fun l hl => ?_).trans (List.map_id ls)
    exact if_neg fun hlast => hr l hl (List.mem_of_getLast? hlast)
  unfold lines
  rw [splitOn_lines hn, List.map_append, hstrip, List.filter_append]
  have hkeep : ls.filter (fun line => decide (line ≠ [])) = ls :=
    List.filter_eq_self.mpr fun l hl => decide_eq_true (hne l hl)
  rw [hkeep]
  exact List.append_nil ls

theorem toCsv_ne_nil (e : EventRecord) : toCsv e ≠ [] := by
  intro h
  have hfields := toCsv_splitOn e
  rw [h] at hfields
  have hlen : 1 = 10 := congrArg List.length hfields
  exact absurd hlen (by decide)

theorem mem_intercalate {c : Char} : ∀ fs : List (List Char), c ∈ [','].intercalate fs →
    c = ',' ∨ ∃ f ∈ fs, c ∈ f
  | [], h => absurd h List.not_mem_nil
  | [f], h => Or.inr ⟨f, List.mem_singleton_self f, by simpa using h⟩
  | f :: g :: fs, h => by
      rw [List.intercalate_cons_cons, List.append_assoc] at h
      rcases List.mem_append.mp h with h | h
      · exact Or.inr ⟨f, List.mem_cons_self, h⟩
      rcases List.mem_append.mp h with h | h
      · exact Or.inl (List.mem_singleton.mp h)
      · rcases mem_intercalate (g :: fs) h with h | ⟨x, hx, h⟩
        · exact Or.inl h
        · exact Or.inr ⟨x, List.mem_cons_of_mem _ hx, h⟩

theorem toCsv_not_mem {c : Char} (h : c = '\n' ∨ c = '\r') (e : EventRecord) : c ∉ toCsv e := by
  intro hmem
  rcases mem_intercalate _ hmem with rfl | ⟨f, hf, hc⟩
  · rcases h with h | h <;> exact absurd h (by decide)
  · exact not_plain (Or.inr h) (plain_fields e f hf c hc)

/-- Rows that are read one by one, until one is refused. -/
theorem mapM_parseRow (es : List EventRecord) : (es.map toCsv).mapM Tearsheet.parseRow
    = if ∀ e ∈ es, e.Readable then some (es.map EventRecord.row) else none := by
  induction es with
  | nil => rfl
  | cons e es ih =>
      rw [List.map_cons, List.mapM_cons, ih, parseRow_toCsv]
      simp only [List.forall_mem_cons]
      by_cases he : e.Readable
      · by_cases hes : ∀ x ∈ es, x.Readable
        · rw [if_pos he, if_pos hes, if_pos ⟨he, hes⟩]
          rfl
        · have hall : ¬ (e.Readable ∧ ∀ x ∈ es, x.Readable) := fun h => hes h.2
          rw [if_pos he, if_neg hes, if_neg hall]
          rfl
      · have hall : ¬ (e.Readable ∧ ∀ x ∈ es, x.Readable) := fun h => he h.1
        rw [if_neg he, if_neg hall]
        rfl

/-- **The log reads back**: the rows of its records, unless one of them is refused. -/
theorem parseLog_logText (es : List EventRecord) : Tearsheet.parseLog (logText es)
    = if ∀ e ∈ es, e.Readable then some (es.map EventRecord.row) else none := by
  have hlines : lines (logText es) = eventsHeader :: es.map toCsv := by
    refine lines_flatMap ?_ ?_ ?_
    · refine List.forall_mem_cons.mpr ⟨by decide, List.forall_mem_map.mpr fun e _ => ?_⟩
      exact toCsv_ne_nil e
    · refine List.forall_mem_cons.mpr ⟨by decide, List.forall_mem_map.mpr fun e _ => ?_⟩
      exact toCsv_not_mem (Or.inl rfl) e
    · refine List.forall_mem_cons.mpr ⟨by decide, List.forall_mem_map.mpr fun e _ => ?_⟩
      exact toCsv_not_mem (Or.inr rfl) e
  unfold Tearsheet.parseLog
  rw [hlines]
  dsimp only
  rw [if_pos (by decide)]
  exact mapM_parseRow es

end SimRun

end Mog
