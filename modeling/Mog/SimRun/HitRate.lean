import Mathlib.Algebra.Order.Field.Rat
import Mathlib.Tactic.Positivity
import Mog.SimRun.LogNumbers
import Mog.SimRun.Recompute

/-!
# Is the hit rate a rate?

The reader counts as hits the fills with an edge against the mark, and as measurable those
with a mark that differs from the price. A mark of zero says that the mark is unknown, and
it is below every price at which something is sold.

Each row adds to the two counters by itself, so that they are counts of rows: of those
with an edge and those that are sold unmarked on the one hand, of the measurable ones on
the other. The logs are those that the reader takes with its numbers in 64 bits. The other
columns that it adds up do not matter here.
-/

namespace Mog

namespace Tearsheet

open SimRun Outcome

/-- The reported rate, as an exact quotient. -/
def Report.hitRate (rep : Report) : ℚ :=
  if 0 < rep.edgeMeasurable then (rep.hits : ℚ) / rep.edgeMeasurable else 0

/-- The test for a hit: a mark above the price of a purchase, or below that of a sale. -/
def Row.Hit (r : Row) : Prop :=
  (r.side = 'B' ∧ r.priceTicks < r.midTicks) ∨ (r.side ≠ 'B' ∧ r.midTicks < r.priceTicks)

instance (r : Row) : Decidable r.Hit := inferInstanceAs (Decidable (_ ∨ _))

/-- A fill whose mark is known and differs from its price. -/
def Row.Measurable (r : Row) : Prop := r.type = 'F' ∧ 0 < r.midTicks ∧ r.midTicks ≠ r.priceTicks

instance (r : Row) : Decidable r.Measurable := inferInstanceAs (Decidable (_ ∧ _))

/-- A fill with an edge against a mark that is known. -/
def Row.Edge (r : Row) : Prop := r.Measurable ∧ r.Hit

instance (r : Row) : Decidable r.Edge := inferInstanceAs (Decidable (_ ∧ _))

/-- A sale without a known mark that counts as a hit. -/
def Row.Phantom (r : Row) : Prop :=
  r.type = 'F' ∧ r.midTicks = 0 ∧ r.side ≠ 'B' ∧ 0 < r.priceTicks

instance (r : Row) : Decidable r.Phantom := inferInstanceAs (Decidable (_ ∧ _))

/-- **The hit rate is a rate**: no more hits than measurable fills, and their quotient is the
fraction of the measurable fills that have an edge. -/
structure RateOf (rows : List Row) (rep : Report) : Prop where
  bounded : rep.hits ≤ rep.edgeMeasurable
  fraction : rep.hitRate
    = ((rows.countP fun r => r.Edge : ℕ) : ℚ) / (rows.countP fun r => r.Measurable : ℕ)
  range : 0 ≤ rep.hitRate ∧ rep.hitRate ≤ 1

/-! ## The counters -/

/-- The reader takes neither negative prices nor negative marks. -/
theorem parseRow_nonneg {line : List Char} {r : Row} (h : parseRow line = some r) :
    0 ≤ r.priceTicks ∧ 0 ≤ r.midTicks := by
  unfold parseRow at h
  split at h
  · split at h
    · split at h
      · cases h
      · rename_i hok
        cases h
        dsimp only
        omega
    · cases h
  · cases h

theorem parseLog_nonneg {text : List Char} {rows : List Row} (h : parseLog text = some rows) :
    ∀ r ∈ rows, 0 ≤ r.priceTicks ∧ 0 ≤ r.midTicks := by
  unfold parseLog at h
  split at h
  · cases h
  · split at h
    · exact forall_mapM (fun _ _ => parseRow_nonneg) h
    · cases h

/-- What one row adds to the two counters. -/
theorem addRow_counts (rep : Report) {r : Row} (hprice : 0 ≤ r.priceTicks) (hmid : 0 ≤ r.midTicks) :
    (rep.addRow r).hits
        = rep.hits + ((if r.Edge then 1 else 0) + if r.Phantom then 1 else 0)
      ∧ (rep.addRow r).edgeMeasurable = rep.edgeMeasurable + if r.Measurable then 1 else 0 := by
  by_cases hprint : r.type = 'P'
  · have hfill : r.type ≠ 'F' := by
      rw [hprint]
      decide
    rw [Report.addRow, if_pos hprint, if_neg fun h : r.Edge => hfill h.1.1,
      if_neg fun h : r.Phantom => hfill h.1, if_neg fun h : r.Measurable => hfill h.1]
    exact ⟨rfl, rfl⟩
  by_cases hfill : r.type = 'F'
  · have hhits : (rep.addRow r).hits = if r.Hit then rep.hits + 1 else rep.hits := by
      rw [Report.addRow, if_neg hprint, if_neg (not_not.mpr hfill)]
      refine if_congr ?_ rfl rfl
      unfold Row.Hit
      by_cases hside : r.side = 'B'
      · rw [if_pos hside]
        exact ⟨fun h => Or.inl ⟨hside, h⟩, fun h => h.elim And.right fun h => absurd hside h.1⟩
      · rw [if_neg hside]
        exact ⟨fun h => Or.inr ⟨hside, h⟩, fun h => h.elim (fun h => absurd h.1 hside) And.right⟩
    have hedges : (rep.addRow r).edgeMeasurable
        = if r.Measurable then rep.edgeMeasurable + 1 else rep.edgeMeasurable := by
      rw [Report.addRow, if_neg hprint, if_neg (not_not.mpr hfill)]
      exact if_congr (and_iff_right hfill).symm rfl rfl
    rw [hhits, hedges]
    refine ⟨?_, by split <;> rfl⟩
    -- A hit is an edge against a known mark, or a sale marked at zero.
    by_cases hhit : r.Hit
    · rw [if_pos hhit]
      by_cases hzero : r.midTicks = 0
      · have hphantom : r.Phantom := by
          rcases hhit with ⟨-, h⟩ | ⟨hside, h⟩
          · omega
          · exact ⟨hfill, hzero, hside, hzero ▸ h⟩
        have hedge : ¬ r.Edge := fun h => by
          have hpos := h.1.2.1
          omega
        rw [if_neg hedge, if_pos hphantom]
      · have hphantom : ¬ r.Phantom := fun h => hzero h.2.1
        have hne : r.midTicks ≠ r.priceTicks := by
          rcases hhit with ⟨-, h⟩ | ⟨-, h⟩
          · omega
          · omega
        have hedge : r.Edge := ⟨⟨hfill, by omega, hne⟩, hhit⟩
        rw [if_pos hedge, if_neg hphantom]
    · have hedge : ¬ r.Edge := fun h => hhit h.2
      have hphantom : ¬ r.Phantom := fun h => hhit (Or.inr ⟨h.2.2.1, by
        rw [h.2.1]
        exact h.2.2.2⟩)
      rw [if_neg hhit, if_neg hedge, if_neg hphantom]
      rfl
  · rw [Report.addRow, if_neg hprint, if_pos hfill, if_neg fun h : r.Edge => hfill h.1.1,
      if_neg fun h : r.Phantom => hfill h.1, if_neg fun h : r.Measurable => hfill h.1]
    exact ⟨rfl, rfl⟩

theorem foldl_counts {rows : List Row} (h : ∀ r ∈ rows, 0 ≤ r.priceTicks ∧ 0 ≤ r.midTicks)
    (rep : Report) : (rows.foldl Report.addRow rep).hits
        = rep.hits + (rows.countP (fun r => r.Edge) + rows.countP fun r => r.Phantom)
      ∧ (rows.foldl Report.addRow rep).edgeMeasurable
        = rep.edgeMeasurable + rows.countP fun r => r.Measurable := by
  induction rows generalizing rep with
  | nil => exact ⟨rfl, rfl⟩
  | cons r rows ih =>
      obtain ⟨hprice, hmid⟩ := h r List.mem_cons_self
      obtain ⟨hhits, hedges⟩ := addRow_counts rep hprice hmid
      obtain ⟨hrest, hrest'⟩ := ih (fun x hx => h x (List.mem_cons_of_mem _ hx)) (rep.addRow r)
      rw [List.foldl_cons, hrest, hrest', hhits, hedges]
      simp only [List.countP_cons, decide_eq_true_eq]
      omega

/-- What is an edge is measurable. -/
theorem countP_edge_le (rows : List Row) :
    rows.countP (fun r => r.Edge) ≤ rows.countP fun r => r.Measurable :=
  List.countP_mono_left fun _ _ h => decide_eq_true (of_decide_eq_true h).1

/-- **When the hit rate is a rate.** For every log that the reader takes, no more fills are hits
than are measurable and the reported rate is the fraction of the measurable fills that have an
edge, exactly if nothing is sold at a positive price while the mark is unknown. -/
theorem hit_rate_iff (text : List Char) (rows : List Row) (h : parseLog64 text = ok rows) :
    RateOf rows (compute rows) ↔ ∀ r ∈ rows, ¬ r.Phantom := by
  obtain ⟨hhits, hedges⟩ := foldl_counts (parseLog_nonneg (parseLog64_ok h)) {}
  have hhits : (compute rows).hits
      = 0 + (rows.countP (fun r => r.Edge) + rows.countP fun r => r.Phantom) := hhits
  have hedges : (compute rows).edgeMeasurable = 0 + rows.countP fun r => r.Measurable := hedges
  have hle := countP_edge_le rows
  have hnone : (∀ r ∈ rows, ¬ r.Phantom) ↔ rows.countP (fun r => decide r.Phantom) = 0 := by
    rw [List.countP_eq_zero]
    exact forall₂_congr fun r _ => (decide_eq_true_iff).not.symm
  rw [hnone]
  generalize rows.countP (fun r => decide r.Phantom) = phantoms at hhits ⊢
  constructor
  · intro hrate
    have hbounded := hrate.bounded
    have hfraction := hrate.fraction
    generalize rows.countP (fun r => decide r.Edge) = edges at *
    generalize rows.countP (fun r => decide r.Measurable) = measurable at *
    unfold Report.hitRate at hfraction
    rw [hhits, hedges, Nat.zero_add, Nat.zero_add] at hfraction
    by_cases hpos : 0 < measurable
    · rw [if_pos hpos, div_left_inj' (by exact_mod_cast hpos.ne')] at hfraction
      have hsame : edges + phantoms = edges := by exact_mod_cast hfraction
      omega
    · omega
  · intro hzero
    have hrate : (compute rows).hitRate = ((rows.countP fun r => r.Edge : ℕ) : ℚ)
        / (rows.countP fun r => r.Measurable : ℕ) := by
      unfold Report.hitRate
      rw [hhits, hedges, hzero, Nat.add_zero, Nat.zero_add, Nat.zero_add]
      split
      · rfl
      · rename_i hnone
        rw [Nat.eq_zero_of_not_pos hnone, Nat.cast_zero, div_zero]
    refine ⟨by omega, hrate, ?_, ?_⟩
    · rw [hrate]
      positivity
    · rw [hrate]
      exact div_le_one_of_le₀ (by exact_mod_cast hle) (by positivity)

/-- A log of five rows: two sales and a purchase that are marked, a purchase that is not, a print. -/
def markedLog : List Char :=
  ("type,ts_ns,ref,side,price_ticks,qty,fee_cash,mid_ticks,ledger\nF,1,7,S,5,1,0,4,M\n" ++
    "F,2,8,B,5,2,-1,0,T\nP,3,0,B,5,1,0,5,M\nF,4,9,B,5,1,0,4,M\nF,5,9,S,5,1,0,6,M\n").toList

def markedRows : List Row :=
  [{ type := 'F', tsNs := 1, side := 'S', priceTicks := 5, qty := 1, feeCash := 0, midTicks := 4
     ledger := 'M' },
    { type := 'F', tsNs := 2, side := 'B', priceTicks := 5, qty := 2, feeCash := -1, midTicks := 0
      ledger := 'T' },
    { type := 'P', tsNs := 3, side := 'B', priceTicks := 5, qty := 1, feeCash := 0, midTicks := 5
      ledger := 'M' },
    { type := 'F', tsNs := 4, side := 'B', priceTicks := 5, qty := 1, feeCash := 0, midTicks := 4
      ledger := 'M' },
    { type := 'F', tsNs := 5, side := 'S', priceTicks := 5, qty := 1, feeCash := 0, midTicks := 6
      ledger := 'M' }]

/-- One of its three measurable fills has an edge. -/
theorem hit_rate_iff_marked : RateOf markedRows (compute markedRows)
    ∧ (compute markedRows).hits = 1 ∧ (compute markedRows).edgeMeasurable = 3 :=
  ⟨(hit_rate_iff markedLog markedRows (by decide +kernel)).mpr (by decide), rfl, rfl⟩

/-- A log of one sale at 5, whose mark is unknown. -/
def oneSale : List Char :=
  "type,ts_ns,ref,side,price_ticks,qty,fee_cash,mid_ticks,ledger\nF,1,7,S,5,1,0,0,M\n".toList

def oneSaleRows : List Row :=
  [{ type := 'F', tsNs := 1, side := 'S', priceTicks := 5, qty := 1, feeCash := 0, midTicks := 0
     ledger := 'M' }]

/-- **A sale without a mark is a hit** that is not measurable. -/
theorem unmarked_sale_hits : parseLog64 oneSale = ok oneSaleRows
    ∧ ¬ RateOf oneSaleRows (compute oneSaleRows) := by
  refine ⟨by decide +kernel, fun h => ?_⟩
  exact absurd h.bounded (by decide)

end Tearsheet

end Mog
