import Mog.Book.OrderBook
import Mog.Lib.LinearProbe

/-!
# The id table is a linear-probing table

The book's table is an instance of the generic one: its cells are the first
`tableCap` entries, its keys the order references, 0 marks an empty cell and the
home of a reference is the top bits of its Fibonacci hash. Since the capacity is a
power of two, masking with `tableCap - 1` is the step around the ring.

`holds r h` says that some cell maps the reference `r` to the handle `h`; the find,
insert and erase of the book are specified by what they do to `holds`.

The generic library finds, inserts and shifts by the distance around the ring; what this file
adds is that the book's loops, with their masks and their bounds, are those of the library.
Erasing writes the empty entry into the last hole, so that no tombstones are left and the size
is the number of references held.
-/

namespace Mog

open LinearProbe

/-! ## The capacity -/

theorem roundPow2From_spec (n : Nat) : ∀ fuel m, n ≤ 2 ^ (m + fuel) → (m = 0 ∨ 2 ^ (m - 1) < n) →
    ∃ e, roundPow2From n fuel (2 ^ m) = 2 ^ e ∧ n ≤ 2 ^ e ∧ (e = 0 ∨ 2 ^ (e - 1) < n) := by
  intro fuel
  induction fuel with
  | zero => intro m hn hlow; exact ⟨m, rfl, by simpa using hn, hlow⟩
  | succ fuel ih =>
      intro m hn hlow
      rw [roundPow2From]
      by_cases h : 2 ^ m < n
      · rw [if_pos h, ← Nat.pow_succ]
        exact ih (m + 1) (by rwa [show m + 1 + fuel = m + (fuel + 1) by omega]) (Or.inr (by simpa using h))
      · rw [if_neg h]
        exact ⟨m, rfl, by omega, hlow⟩

/-- `round_pow2` returns the least power of two that is at least its argument. -/
theorem roundPow2_spec (n : Nat) :
    ∃ e, roundPow2 n = 2 ^ e ∧ n ≤ 2 ^ e ∧ (e = 0 ∨ 2 ^ (e - 1) < n) := by
  have hn : n ≤ 2 ^ (0 + n) := by rw [Nat.zero_add]; exact Nat.le_of_lt Nat.lt_two_pow_self
  simpa [roundPow2] using roundPow2From_spec n n 0 hn (Or.inl rfl)

namespace OrderBook

variable {k : Nat} {b : OrderBook k}

/-- The id table as an instance of the generic table. -/
def shape (b : OrderBook k) : Shape Entry Nat where
  cap := b.tableCap
  key := Entry.ref
  nil := 0
  home := b.probeStart

/-- Some cell maps `r` to `h`. -/
def holds (b : OrderBook k) (r : Nat) (h : GenHandle) : Prop :=
  ∃ x, x < b.tableCap ∧ b.entries x = { ref := r, handle := h }

/-- The table invariant: a power of two of cells, the probing invariant, and an empty cell left. -/
structure TableInv (b : OrderBook k) : Prop where
  pow : ∃ e, b.tableCap = 2 ^ e ∧ e ≤ 64 ∧ b.tableShift = 64 - e
  probing : b.shape.Inv b.entries
  room : ∃ e, e < b.tableCap ∧ ¬ b.shape.Occ b.entries e

theorem mask_eq_mod {e : Nat} (he : b.tableCap = 2 ^ e) (i : Nat) :
    i &&& (b.tableCap - 1) = i % b.tableCap := by
  rw [he, Nat.and_two_pow_sub_one_eq_mod]

/-- Every home cell is a cell of the table. -/
theorem probeStart_lt {e : Nat} (hcap : b.tableCap = 2 ^ e) (he : e ≤ 64)
    (hshift : b.tableShift = 64 - e) (ref : Nat) : b.probeStart ref < b.tableCap := by
  rw [probeStart, hcap, hshift, Nat.shiftRight_eq_div_pow, Nat.div_lt_iff_lt_mul (Nat.two_pow_pos _),
    ← Nat.pow_add, show e + (64 - e) = 64 by omega]
  exact Nat.mod_lt _ (by decide)

theorem shape_find_succ (b : OrderBook k) (t : Nat → Entry) (ref fuel i : Nat) :
    b.shape.find t ref (fuel + 1) i
      = if (t i).ref = 0 then i
        else if (t i).ref = ref then i
        else b.shape.find t ref fuel ((i + 1) % b.tableCap) := rfl

/-- The probe loop is the generic search; it meets an empty cell before its bound. -/
theorem probe_eq (hpow : ∃ e, b.tableCap = 2 ^ e) {e : Nat} (he : e < b.tableCap)
    (hempty : (b.entries e).ref = 0) (ref : Nat) :
    ∀ fuel i, i < b.tableCap → gap b.tableCap i e < fuel →
      (b.probe ref fuel i).slot = b.shape.find b.entries ref fuel i
        ∧ (b.probe ref fuel i).handle
          = if (b.entries (b.shape.find b.entries ref fuel i)).ref = 0 then {}
            else (b.entries (b.shape.find b.entries ref fuel i)).handle := by
  obtain ⟨n, hn⟩ := hpow
  intro fuel
  induction fuel with
  | zero => intro i _ h; omega
  | succ fuel ih =>
      intro i hi hgap
      rw [probe, shape_find_succ]
      by_cases hz : (b.entries i).ref = 0
      · rw [if_pos hz, if_pos hz, if_pos hz]
        exact ⟨rfl, rfl⟩
      · rw [if_neg hz, if_neg hz]
        by_cases hr : (b.entries i).ref = ref
        · rw [if_pos hr, if_pos hr]
          simp [hz]
        · rw [if_neg hr, if_neg hr, mask_eq_mod hn]
          have hie : i ≠ e := fun he' => hz (he' ▸ hempty)
          have := gap_succ_left hi he hie
          exact ih _ (mod_succ_lt hi) (by omega)

/-- What a finished lookup of `ref` has established. -/
inductive Lookup (b : OrderBook k) (ref : Nat) (r : FindResult) : Prop
  | hit (lt : r.slot < b.tableCap) (cell : b.entries r.slot = { ref, handle := r.handle })
  | miss (lt : r.slot < b.tableCap) (null : r.handle = {}) (free : (b.entries r.slot).ref = 0)
      (found : Shape.Found b.shape b.entries ref r.slot) (absent : ∀ h, ¬ b.holds ref h)

/-- **A lookup** ends at the cell of its reference or, when there is none, at an empty cell. -/
theorem idFindSlot_spec (h : TableInv b) {ref : Nat} (href : ref ≠ 0) :
    Lookup b ref (b.idFindSlot ref) := by
  obtain ⟨n, hn, hn64, hshift⟩ := h.pow
  obtain ⟨e, he, hempty⟩ := h.room
  have hzero : (b.entries e).ref = 0 := not_not.mp hempty
  have hhome := probeStart_lt hn hn64 hshift ref
  obtain ⟨hslot, hhandle⟩ := probe_eq ⟨n, hn⟩ he hzero ref b.tableCap (b.probeStart ref) hhome
    (gap_lt hhome he)
  have hfound := Shape.find_spec h.probing he hempty (k := ref)
  have hfind : (b.idFindSlot ref).slot = b.shape.find b.entries ref b.shape.cap (b.shape.home ref) :=
    hslot
  rw [← hfind] at hfound
  have hhand : (b.idFindSlot ref).handle = if (b.entries (b.idFindSlot ref).slot).ref = 0 then {}
      else (b.entries (b.idFindSlot ref).slot).handle := by
    rw [hfind]; exact hhandle
  by_cases hz : (b.entries (b.idFindSlot ref).slot).ref = 0
  · rw [if_pos hz] at hhand
    refine .miss hfound.lt hhand hz hfound (fun hd hh => ?_)
    obtain ⟨x, hx, hcell⟩ := hh
    have hkey : (b.entries x).ref = ref := by rw [hcell]
    refine hfound.absent ?_ x hx ?_ hkey
    · intro hk
      exact href (hk.symm.trans hz)
    · show (b.entries x).ref ≠ 0
      rw [hkey]
      exact href
  · rw [if_neg hz] at hhand
    have hk : (b.entries (b.idFindSlot ref).slot).ref = ref := by
      rcases hfound.stop with hk | hk
      · exact hk
      · exact absurd (not_not.mp hk) hz
    exact .hit hfound.lt (by rw [Entry.mk.injEq]; exact ⟨hk, hhand.symm⟩)

/-- **Insertion** at the empty cell the lookup stopped at adds one mapping. -/
theorem idInsertAt_holds {slot ref : Nat} {hd : GenHandle} (hlt : slot < b.tableCap)
    (hfree : (b.entries slot).ref = 0) {r : Nat} (hr : r ≠ 0) (h' : GenHandle) :
    (b.idInsertAt slot ref hd).holds r h' ↔ (r = ref ∧ h' = hd) ∨ b.holds r h' := by
  constructor
  · rintro ⟨x, hx, hcell⟩
    simp only [idInsertAt, Function.update_apply] at hcell
    by_cases hxs : x = slot
    · rw [if_pos hxs] at hcell
      simp only [Entry.mk.injEq] at hcell
      exact Or.inl ⟨hcell.1.symm, hcell.2.symm⟩
    · rw [if_neg hxs] at hcell
      exact Or.inr ⟨x, hx, hcell⟩
  · rintro (⟨h1, h2⟩ | ⟨x, hx, hcell⟩)
    · refine ⟨slot, hlt, ?_⟩
      simp [idInsertAt, h1, h2]
    · have hxs : x ≠ slot := by
        intro he
        rw [← he, hcell] at hfree
        exact hr hfree
      exact ⟨x, hx, by simp only [idInsertAt, Function.update_of_ne hxs]; exact hcell⟩

theorem idInsertAt_probing (h : TableInv b) {slot ref : Nat} {hd : GenHandle} (href : ref ≠ 0)
    (hfound : Shape.Found b.shape b.entries ref slot) (hfree : (b.entries slot).ref = 0) :
    (b.idInsertAt slot ref hd).shape.Inv (b.idInsertAt slot ref hd).entries :=
  Shape.insert_inv (v := ({ ref, handle := hd } : Entry)) h.probing href hfound (not_not.mpr hfree)

/-- The scan loop of the erase is the generic one. -/
theorem shiftBack_eq (hpow : ∃ e, b.tableCap = 2 ^ e) :
    ∀ fuel t i j, b.shiftBack t fuel i j = b.shape.shift t fuel i j := by
  obtain ⟨n, hn⟩ := hpow
  intro fuel
  induction fuel with
  | zero => intro t i j; rfl
  | succ fuel ih =>
      intro t i j
      rw [shiftBack, Shape.shift]
      dsimp only
      rw [mask_eq_mod hn, ih, ih]
      rfl

/-- **Erasing** a cell removes its mapping, keeps every other and leaves an empty cell. -/
theorem idEraseAt_spec (h : TableInv b) (slot : Nat) (hd : GenHandle) {ref : Nat} (href : ref ≠ 0)
    (hlt : slot < b.tableCap) (hcell : b.entries slot = { ref, handle := hd }) :
    TableInv (b.idEraseAt slot)
      ∧ ∀ r h', r ≠ 0 → ((b.idEraseAt slot).holds r h' ↔ r ≠ ref ∧ b.holds r h') := by
  obtain ⟨e, he, hempty⟩ := h.room
  have hpow : ∃ e, b.tableCap = 2 ^ e := ⟨_, h.pow.choose_spec.1⟩
  have hocc : b.shape.Occ b.entries slot := by
    show (b.entries slot).ref ≠ 0
    rw [hcell]
    exact href
  obtain ⟨hr, hinv, hmem⟩ := Shape.shift_spec (S := b.shape) h.probing hlt hocc he hempty
    (v := { (b.shape.shift b.entries b.tableCap slot slot).1
      (b.shape.shift b.entries b.tableCap slot slot).2 with ref := 0 }) rfl
  have hent : (b.idEraseAt slot).entries
      = Function.update (b.shape.shift b.entries b.tableCap slot slot).1
          (b.shape.shift b.entries b.tableCap slot slot).2
          { (b.shape.shift b.entries b.tableCap slot slot).1
            (b.shape.shift b.entries b.tableCap slot slot).2 with ref := 0 } := by
    simp only [idEraseAt, shiftBack_eq hpow]
  refine ⟨⟨h.pow, ?_, ?_⟩, ?_⟩
  · rw [hent]
    exact hinv
  · refine ⟨_, hr, ?_⟩
    rw [hent]
    have hnil := congrArg Entry.ref (Function.update_self
      (b.shape.shift b.entries b.tableCap slot slot).2
      ({ (b.shape.shift b.entries b.tableCap slot slot).1
        (b.shape.shift b.entries b.tableCap slot slot).2 with ref := 0 } : Entry)
      (b.shape.shift b.entries b.tableCap slot slot).1)
    exact not_not.mpr hnil
  · intro r h' hrne
    have hiff := hmem { ref := r, handle := h' } hrne
    have hleft : (b.idEraseAt slot).holds r h'
        ↔ ∃ x, x < b.shape.cap ∧ x ≠ slot ∧ b.entries x = { ref := r, handle := h' } := by
      unfold holds
      rw [hent]
      exact hiff
    rw [hleft]
    constructor
    · rintro ⟨x, hx, hne, hxc⟩
      refine ⟨fun heq => hne ?_, x, hx, hxc⟩
      -- the same key in two cells
      refine h.probing.inj x slot hx hlt (by show (b.entries x).ref ≠ 0; rw [hxc]; exact hrne) ?_
      show (b.entries x).ref = (b.entries slot).ref
      rw [hxc, hcell, heq]
    · rintro ⟨hne, x, hx, hxc⟩
      refine ⟨x, hx, fun heq => hne ?_, hxc⟩
      rw [heq, hcell] at hxc
      simp only [Entry.mk.injEq] at hxc
      exact hxc.1.symm

end OrderBook

end Mog
