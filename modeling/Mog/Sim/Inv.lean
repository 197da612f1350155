import Mog.Sim.Effects

/-!
# The simulator's invariant

The book satisfies its own invariant, the trackers mirror it, every registered iceberg
can show its next slice, and the non-displayed ledger and the scheduler hold orders of
the strategy only. Each building block of the sweep and of the external flow keeps it.

It is the conjunction that all later properties start from, and no more than they need: each
part has its own invariant and its own file. The initial simulator has it, and the two rules,
for the sweep and for the consumption of a level, carry it through the loops.
-/

namespace Mog

open QueueSum TrackTable

/-- An inbound order as callers may submit it: `submit` asks for a strategy reference, and
no reference is zero. -/
def SimInbound.Named (limit : Nat) (order : SimInbound) : Prop := limit ≤ order.ref ∧ order.ref ≠ 0

/-- A ledger entry of the strategy. -/
def Hidden.Named (limit : Nat) (h : Hidden) : Prop := limit ≤ h.ref ∧ h.ref ≠ 0

structure SimInv {k : Nat} (cfg : SimConfig) (sim : ExecutionSimulator k) : Prop where
  book : sim.book.Valid
  mirror : Mirror cfg.externalRefLimit sim.book sim.track
  icebergs : ∀ ib ∈ sim.icebergs, ExecutionSimulator.IcebergOk cfg.externalRefLimit sim.book ib
  hidden : ∀ h ∈ sim.hidden, h.Named cfg.externalRefLimit
  wheel : sim.wheel.Holds (fun e => e.order.Named cfg.externalRefLimit)

namespace SimInv

open ExecutionSimulator

variable {k : Nat} {cfg : SimConfig} {sim sim' : ExecutionSimulator k}

/-- Trackers whose positions alone have changed. -/
theorem repositioned (h : SimInv cfg sim) {off : Nat → Int} {t : TrackTable}
    (hr : Repositioned cfg.externalRefLimit sim.book sim.track t off) :
    SimInv cfg { sim with track := t } :=
  { book := h.book, mirror := hr.mirror, icebergs := h.icebergs, hidden := h.hidden
    wheel := h.wheel }

theorem executed (h : SimInv cfg sim) {i : Nat} {take : Int} (he : Executed cfg sim sim' i take) :
    SimInv cfg sim' where
  book := he.book.valid
  mirror := he.mirror
  icebergs ib hib := by
    rw [he.icebergs] at hib
    exact (h.icebergs ib hib).mono he.book.config (fun s => by rw [he.book.touched])
  hidden := by rw [he.hidden]; exact h.hidden
  wheel := by rw [he.env.wheel]; exact h.wheel

theorem withdrawn (h : SimInv cfg sim) {i : Nat} (hw : Withdrawn cfg sim sim' i) :
    SimInv cfg sim' where
  book := hw.book.valid
  mirror := hw.mirror
  icebergs ib hib := by
    rw [hw.icebergs] at hib
    exact (h.icebergs ib hib).mono hw.book.config (fun s => by rw [hw.book.touched])
  hidden := by rw [hw.hidden]; exact h.hidden
  wheel := by rw [hw.env.wheel]; exact h.wheel

theorem mem_afterSlice {ib x : Iceberg} (h : x ∈ afterSlice ib) :
    x = { ib with hidden := ib.hidden - nextSlice ib } := by
  unfold afterSlice at h
  split at h
  · exact absurd h (by simp)
  · exact List.mem_singleton.mp h

/-- A registry entry after a replenishment is one from before, but for its reserve. -/
theorem mem_left {ib x : Iceberg} {rest : List Iceberg} {i : Nat}
    (hr : Replenished sim sim' ib rest i) (hx : x ∈ sim'.icebergs) :
    x ∈ sim.icebergs ∨ x = { ib with hidden := ib.hidden - nextSlice ib } := by
  rcases List.mem_append.mp (hr.left.mem_iff.mp hx) with hx | hx
  · exact Or.inr (mem_afterSlice hx)
  · exact Or.inl (hr.entry.mem_iff.mpr (List.mem_cons_of_mem _ hx))

/-- An order that rests claims no page back. -/
theorem touched_mono {b b' : OrderBook k} {i : Nat} {v : OrderView}
    (hr : OrderBook.Rested b b.levelSlots b' i v) (s : Side) :
    (b.ladderFor s).touched ⊆ (b'.ladderFor s).touched := by
  rw [hr.touched]
  split
  · exact Finset.subset_insert _ _
  · exact Finset.Subset.refl _

theorem replenished (h : SimInv cfg sim) {ib : Iceberg} {rest : List Iceberg} {i : Nat}
    (hr : Replenished sim sim' ib rest i) : SimInv cfg sim' := by
  have hib := h.icebergs ib (hr.entry.mem_iff.mpr (by simp))
  have hmono : ∀ x, IcebergOk cfg.externalRefLimit sim.book x →
      IcebergOk cfg.externalRefLimit sim'.book x :=
    fun x hx => hx.mono hr.book.config (touched_mono hr.book)
  refine
    { book := hr.book.valid, mirror := ?_, icebergs := fun x hx => ?_, hidden := ?_, wheel := ?_ }
  · rw [hr.track]
    exact h.mirror.rested_external hr.book hib.external
  · rcases mem_left hr hx with hx | rfl
    · exact hmono x (h.icebergs x hx)
    · have hok := hmono ib hib
      refine { named := hok.named, external := hok.external, display := hok.display,
               hidden := ?_, band := hok.band, page := hok.page }
      show 0 ≤ ib.hidden - nextSlice ib
      unfold nextSlice
      omega
  · rw [hr.hidden]; exact h.hidden
  · rw [hr.env.wheel]; exact h.wheel

/-- Changes of the log alone. -/
theorem logged (h : SimInv cfg sim) (log : FillLog) : SimInv cfg { sim with log } :=
  { book := h.book, mirror := h.mirror, icebergs := h.icebergs, hidden := h.hidden
    wheel := h.wheel }

/-- Changes of the ledger that keep it the strategy's. -/
theorem ledger (h : SimInv cfg sim) {l : List Hidden} (hl : ∀ e ∈ l, e.Named cfg.externalRefLimit) :
    SimInv cfg { sim with hidden := l } :=
  { book := h.book, mirror := h.mirror, icebergs := h.icebergs, hidden := hl
    wheel := h.wheel }

/-- The entries a tap leaves are the strategy's, as they were before. -/
theorem tapped (h : SimInv cfg sim) (s : Side) (price remaining : Int) (notional : Nat) :
    SimInv cfg (sim.tapHidden cfg s price remaining notional).1 := by
  have hkeep : ∀ h ∈ (tapLoop cfg s price sim.hidden { log := sim.log, remaining, notional }).1,
      h.Named cfg.externalRefLimit := by
    refine tapLoop_induction cfg s price
      (I := fun l _ => ∀ h ∈ l, Hidden.Named cfg.externalRefLimit h) ?_ sim.hidden [] _ h.hidden
    intro kept a l t hall _ _ _ x hx
    rcases List.mem_append.mp hx with hx | hx
    · exact hall x (by simp [hx])
    · rcases List.mem_append.mp hx with hx | hx
      · have ha := hall a (by simp)
        unfold Tap.stays at hx
        split at hx
        · exact absurd hx (by simp)
        · rw [List.mem_singleton.mp hx]
          exact ha
      · exact hall x (by simp [hx])
  exact
    { book := h.book, mirror := h.mirror, icebergs := h.icebergs, hidden := hkeep,
      wheel := h.wheel }

/-- A strategy order that comes to rest and is tracked. -/
theorem rested (h : SimInv cfg sim) {b : OrderBook k} {i ref : Nat} {s : Side} {qty price : Int}
    (hr : OrderBook.Rested sim.book sim.book.levelSlots b i ⟨ref, qty, price, s⟩)
    (hown : cfg.externalRefLimit ≤ ref) (hne : ref ≠ 0) {off : Nat → Int}
    (hoff : Off sim.book sim.track off) :
    SimInv cfg { sim with book := b, track := sim.track.trackResting b ref s qty price }
      ∧ Off b (sim.track.trackResting b ref s qty price) (fun j => if j = i then 0 else off j) := by
  obtain ⟨hmirror, hoff', _⟩ := trackResting_spec h.mirror h.book hoff hr hown hne
  exact
    ⟨{ book := hr.valid, mirror := hmirror, hidden := h.hidden, wheel := h.wheel,
       icebergs := fun ib hib => (h.icebergs ib hib).mono hr.config (touched_mono hr) }, hoff'⟩

/-- An external order that comes to rest. -/
theorem seeded (h : SimInv cfg sim) {b : OrderBook k} {i : Nat} {v : OrderView}
    (hr : OrderBook.Rested sim.book sim.book.levelSlots b i v)
    (hext : v.orderRef < cfg.externalRefLimit) : SimInv cfg { sim with book := b } :=
  { book := hr.valid, mirror := h.mirror.rested_external hr hext, hidden := h.hidden
    wheel := h.wheel
    icebergs := fun ib hib => (h.icebergs ib hib).mono hr.config (touched_mono hr) }

end SimInv

end Mog
