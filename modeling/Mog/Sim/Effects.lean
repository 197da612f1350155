import Mog.Sim.Mirror
import Mog.Sim.Simulate

/-!
# What the simulator's building blocks do

One specification for each way the sweep and the external flow change the simulator:
an execution against the head of a level, the next slice of an iceberg, a victim that
leaves, and quantity taken from the non-displayed ledger. Each says what becomes of
the book and the trackers, and that the rest is as it was.

Every specification has the same shape: a structure whose fields name what the change does to
the book, to the live trackers and their positions, to the registry, the ledger and the log.
Fields that say "as before" are what later proofs use most, so they are part of the structure
and not left to unfolding.
-/

namespace Mog

open QueueSum TrackTable

namespace FillLog

/-- The log after an execution against a displayed order; the strategy's orders get a report. -/
def displayedFill (l : FillLog) (cfg : SimConfig) (e : Execution) : FillLog :=
  if cfg.externalRefLimit ≤ e.ref then
    (l.execute e).emitFill cfg { ref := e.ref, side := e.side } e.price e.qty l.nowHint
  else l.execute e

theorem emitFill_congr (l : FillLog) (cfg : SimConfig) {t t' : Tracked} (href : t.ref = t'.ref)
    (hside : t.side = t'.side) (price qty : Int) (ts : Nat) :
    l.emitFill cfg t price qty ts = l.emitFill cfg t' price qty ts := by
  rw [emitFill, emitFill, href, hside]

end FillLog

namespace ExecutionSimulator

variable {k : Nat} {cfg : SimConfig} {sim sim' sim'' : ExecutionSimulator k}

/-- The scheduler, the clock and the modes are as they were. -/
structure SameEnv (sim sim' : ExecutionSimulator k) : Prop where
  wheel : sim'.wheel = sim.wheel
  halted : sim'.halted = sim.halted
  stp : sim'.stp = sim.stp
  extNow : sim'.extNow = sim.extNow

theorem SameEnv.refl (sim : ExecutionSimulator k) : SameEnv sim sim := ⟨rfl, rfl, rfl, rfl⟩

theorem SameEnv.trans (h : SameEnv sim sim') (h' : SameEnv sim' sim'') : SameEnv sim sim'' :=
  ⟨h'.wheel.trans h.wheel, h'.halted.trans h.halted, h'.stp.trans h.stp, h'.extNow.trans h.extNow⟩

/-- The execution of `take` units of the order in slot `i`. -/
def executionOf (sim : ExecutionSimulator k) (i : Nat) (take : Int) : Execution :=
  { ref := (sim.book.order i).orderRef, side := (sim.book.order i).side
    price := (sim.book.order i).priceTicks, qty := take, displayed := true }

/-! ## An execution against the head of a level -/

/-- `take` units of the order in slot `i` have been executed. -/
structure Executed (cfg : SimConfig) (sim sim' : ExecutionSimulator k) (i : Nat) (take : Int) :
    Prop where
  book : OrderBook.Reduced sim.book sim.book.levelSlots sim'.book i take
  mirror : Mirror cfg.externalRefLimit sim'.book sim'.track
  at_other : ∀ j, j ≠ i → sim'.track.at? j = sim.track.at? j
  at_self : ∀ v, sim'.track.at? i = some v → v.qtyAhead = 0
  sync : sim'.track.recentSync = sim.track.recentSync
    ++ if cfg.externalRefLimit ≤ (sim.book.order i).orderRef then [i] else []
  fallbackLevels : sim'.track.fallbackLevels = sim.track.fallbackLevels
  entry : ∀ s p, sim'.track.HasEntry s p ↔ sim.track.HasEntry s p
  log : sim'.log = sim.log.displayedFill cfg (sim.executionOf i take)
  icebergs : sim'.icebergs = sim.icebergs
  hidden : sim'.hidden = sim.hidden
  env : SameEnv sim sim'

/-- Rewriting remainder and position of a tracker keeps the lists. -/
theorem LinkInv_resize {t : TrackTable} {L : Side → Nat → List Nat} (h : t.LinkInv L) (i : Nat)
    (r a : Int) :
    (t.modify i (fun o => { o with qtyRemaining := r, qtyAhead := a })).LinkInv L := by
  refine h.congr rfl rfl rfl (fun j => ?_)
  rw [modify_tracked]
  split
  · rename_i hj; rw [hj]; exact ⟨rfl, rfl, rfl, rfl, rfl, rfl⟩
  · exact ⟨rfl, rfl, rfl, rfl, rfl, rfl⟩

/-- Only the reduced book's copy of the order matters to its tracker. -/
theorem remainingOf_reduced {b b' : OrderBook k} {i : Nat} {take : Int} (hb : b.Valid)
    (hi : b.live i) (hr : OrderBook.Reduced b b.levelSlots b' i take) :
    b'.remainingOf (b.order i).orderRef = b.rem i - take := by
  by_cases hz : b.rem i = take
  · rw [hr.valid.remainingOf_dead (hb.ref i hi), hz, Int.sub_self]
    intro j hj href
    rw [(hr.kept hj).1] at href
    obtain ⟨hjl, hno⟩ := (hr.live j).mp hj
    exact hno ⟨hb.ref_inj hjl hi href, hz⟩
  · have hlive : b'.live i := (hr.live i).mpr ⟨hi, fun hh => hz hh.2⟩
    rw [← (hr.kept hlive).1, hr.valid.remainingOf_live hlive, hr.rem_self hz]

/-- The tracker side of an execution against one of the strategy's orders. -/
theorem sync_spec {t : TrackTable} (ht : t.TrackInv) (i : Nat) (rem : Int) {t' : TrackTable}
    (heq : t' = if rem = 0 then t.retire i
      else t.modify i (fun o => { o with qtyRemaining := rem, qtyAhead := 0 })) :
    t'.TrackInv ∧ SameLevels t t' ∧ (∀ j, j ≠ i → t'.at? j = t.at? j)
      ∧ t'.at? i = (if rem = 0 then none else
        (t.at? i).map (fun v => { v with qtyRemaining := rem, qtyAhead := 0 }))
      ∧ (t'.tracked i).ref = (t.tracked i).ref ∧ (t'.tracked i).side = (t.tracked i).side := by
  obtain ⟨L, hL⟩ := ht
  by_cases hz : rem = 0
  · rw [if_pos hz] at heq
    subst heq
    have hret := retire_spec hL i
    refine ⟨hret.inv, hret.same, hret.at_other, by rw [if_pos hz]; exact hret.at_self, ?_, ?_⟩
    · exact congrArg TrackView.ref hret.view
    · exact congrArg TrackView.side hret.view
  · rw [if_neg hz] at heq
    subst heq
    have htr := modify_tracked t i (fun o => { o with qtyRemaining := rem, qtyAhead := 0 })
    refine ⟨⟨L, LinkInv_resize hL i rem 0⟩, ⟨rfl, rfl, rfl, fun _ _ => Iff.rfl⟩, fun j hj => ?_, ?_,
      ?_, ?_⟩
    · rw [at?, htr, if_neg hj, at?]
    · rw [at?, htr, if_pos rfl, if_neg hz, at?]
      dsimp only
      split <;> rfl
    · rw [htr, if_pos rfl]
    · rw [htr, if_pos rfl]

/-- **`reduce_and_sync`** executes the head of a level and keeps its tracker in step. -/
theorem reduceAndSync_spec (hb : sim.book.Valid)
    (hm : Mirror cfg.externalRefLimit sim.book sim.track) {s : Side} {p : Int} {i : Nat}
    {l : List Nat} (hf : sim.book.Front s p i l) {take : Int} (hpos : 0 < take)
    (hle : take ≤ sim.book.rem i) (via : Bool) :
    Executed cfg sim (sim.reduceAndSync cfg s (sim.book.order i).orderRef p take via
      (sim.book.findHandle (sim.book.order i).orderRef)) i take := by
  have hres : ∃ r : BookResult k, r = (if via then sim.book.executeFront s p take
      else sim.book.execute (sim.book.order i).orderRef take)
      ∧ OrderBook.Reduced sim.book sim.book.levelSlots r.book i take
      ∧ (if via then r.victim.getD (sim.book.order i).orderRef else (sim.book.order i).orderRef)
        = (sim.book.order i).orderRef := by
    refine ⟨_, rfl, ?_⟩
    cases via with
    | true =>
        obtain ⟨h1, _, _, h2⟩ := OrderBook.executeFront_spec hb hf.slots hpos hle
        refine ⟨h1, ?_⟩
        rw [if_pos rfl, if_pos rfl, h2]
        rfl
    | false => exact ⟨(OrderBook.execute_spec hb hf.live hpos hle).1, rfl⟩
  obtain ⟨r, hr, hred, hvic⟩ := hres
  have hexec : sim.executionOf i take
      = { ref := (sim.book.order i).orderRef, side := s, price := p, qty := take
          displayed := true } := by
    rw [executionOf, hf.side, hf.price]
  unfold reduceAndSync
  dsimp only
  rw [← hr, hvic, hf.handle]
  by_cases hown : cfg.externalRefLimit ≤ (sim.book.order i).orderRef
  · -- one of the strategy's own: its tracker follows
    have hlive : sim.track.at? i ≠ none := (hm.at?_iff i).mpr ⟨hf.live, hown⟩
    have hpre : sim.track.isLive i := (isLive_iff hm.inv i).mpr hlive
    rw [if_neg (fun hh => hh.elim (fun hn => hn hpre) (fun hn => hn rfl)),
      remainingOf_reduced hb hf.live hred]
    obtain ⟨L, hL⟩ := hm.inv
    have hsync : ({ sim.track with recentSync := sim.track.recentSync ++ [i] } : TrackTable).LinkInv L :=
      hL.congr rfl rfl rfl (fun _ => ⟨rfl, rfl, rfl, rfl, rfl, rfl⟩)
    obtain ⟨hinv, hsame, hother, hself, href, hside⟩ :=
      sync_spec ⟨L, hsync⟩ i (sim.book.rem i - take) rfl
    obtain ⟨v, hv⟩ := Option.ne_none_iff_exists'.mp hlive
    have hrec := (hm.record_of_some hv).2
    have hview := (at?_eq_some.mp hv).2.trans hrec
    refine
      { book := hred, mirror := hm.reduced hred hinv hsame.size hother hself, at_other := hother,
        at_self := fun u hu => ?_, sync := ?_, fallbackLevels := hsame.fallbackLevels,
        entry := hsame.entry, log := ?_, icebergs := rfl, hidden := rfl, env := ⟨rfl, rfl, rfl, rfl⟩ }
    · dsimp only at hu
      rw [hself] at hu
      split at hu
      · exact absurd hu (by simp)
      · obtain ⟨w, _, rfl⟩ := Option.map_eq_some_iff.mp hu
        rfl
    · rw [if_pos hown]
      exact hsame.recentSync
    · have hreport : cfg.externalRefLimit ≤ (sim.executionOf i take).ref := hown
      rw [FillLog.displayedFill, if_pos hreport, hexec]
      refine FillLog.emitFill_congr _ cfg ?_ ?_ p take _
      · rw [href]
        exact congrArg TrackView.ref hview
      · rw [hside]
        exact (congrArg TrackView.side hview).trans hf.side
  · have hnone : sim.track.at? i = none := hm.other i (fun ho => hown ho.2)
    have hpre : ¬ sim.track.isLive i := fun hh => (isLive_iff hm.inv i).mp hh hnone
    rw [if_pos (Or.inl hpre)]
    refine
      { book := hred, mirror := hm.reduced hred (a := 0) hm.inv rfl (fun _ _ => rfl) ?_,
        at_other := fun _ _ => rfl, at_self := fun u hu => ?_, sync := ?_, fallbackLevels := rfl,
        entry := fun _ _ => Iff.rfl, log := ?_, icebergs := rfl, hidden := rfl,
        env := ⟨rfl, rfl, rfl, rfl⟩ }
    · dsimp only
      rw [hnone]
      split <;> rfl
    · dsimp only at hu
      rw [hnone] at hu
      exact absurd hu (by simp)
    · rw [if_neg hown, List.append_nil]
    · have hreport : ¬ cfg.externalRefLimit ≤ (sim.executionOf i take).ref := hown
      rw [FillLog.displayedFill, if_neg hreport, hexec]

namespace Executed

variable {i : Nat} {take : Int} {s : Side} {p : Int} {l : List Nat} {off : Nat → Int}

/-- **An execution at the head** leaves those behind it too far back by what it took. -/
theorem off_eq (h : Executed cfg sim sim' i take) (hb : sim.book.Valid)
    (hf : sim.book.Front s p i l) (hoff : Off sim.book sim.track off) :
    Off sim'.book sim'.track
      (fun j => if j = i then 0 else off j + if sim.book.OnSide s p j then take else 0) := by
  have hself : ∀ v, sim'.track.at? i = some v → v.qtyAhead = sim'.book.ahead i + 0 := by
    intro v hv
    rw [h.at_self v hv, h.book.ahead_eq hb (h.mirror.record_of_some hv).1.1, hb.head_ahead hf.slots,
      if_neg (fun hm => ne_of_mem_before hm rfl)]
    rfl
  refine (Off.reduced hb h.mirror hoff h.book h.at_other hself).congr (fun j hj => ?_)
  by_cases hji : j = i
  · rw [if_pos hji, if_pos hji]
  · rw [if_neg hji, if_neg hji]
    by_cases hon : sim.book.OnSide s p j
    · rw [if_pos hon, if_pos ((hf.before_iff hji hb).mpr hon)]
    · rw [if_neg hon, if_neg (fun hh => hon ((hf.before_iff hji hb).mp hh))]

end Executed

/-! ## The next slice of an iceberg -/

/-- A registered iceberg can show its next slice wherever there is room for it. -/
structure IcebergOk (limit : Nat) (b : OrderBook k) (ib : Iceberg) : Prop where
  named : ib.ref ≠ 0
  external : ib.ref < limit
  display : 0 < ib.display
  hidden : 0 ≤ ib.hidden
  band : b.inBand ib.priceTicks
  page : (b.ladderFor ib.side).dirIndex ib.priceTicks ∈ (b.ladderFor ib.side).touched

theorem IcebergOk.mono {limit : Nat} {b b' : OrderBook k} {ib : Iceberg} (h : IcebergOk limit b ib)
    (hc : OrderBook.SameConfig b b')
    (ht : ∀ s, (b.ladderFor s).touched ⊆ (b'.ladderFor s).touched) : IcebergOk limit b' ib where
  named := h.named
  external := h.external
  display := h.display
  hidden := h.hidden
  band := (hc.inBand_iff _).mpr h.band
  page := by
    rw [hc.dirIndex]
    exact ht _ h.page

/-- The slice an iceberg shows next. -/
def nextSlice (ib : Iceberg) : Int := min ib.display ib.hidden

/-- What is left of a registry entry once it has shown its next slice. -/
def afterSlice (ib : Iceberg) : List Iceberg :=
  if ib.hidden - nextSlice ib = 0 then [] else [{ ib with hidden := ib.hidden - nextSlice ib }]

/-- The registry entry that is found for `ref`: the first of that reference. -/
def registered (sim : ExecutionSimulator k) (ref : Nat) : Option Iceberg :=
  sim.icebergs.find? (fun ib => ib.ref = ref)

/-- `replenish_if_iceberg` has nothing to do for `head`. -/
def NothingToShow (sim : ExecutionSimulator k) (head : Nat) : Prop :=
  (∀ ib ∈ sim.icebergs, ib.ref ≠ head)
    ∨ (∃ ib ∈ sim.icebergs, ib.ref = head ∧ ib.hidden = 0 ∧ sim.registered head = some ib)
    ∨ (sim.book.findHandle head).index ≠ kNullIndex

/-- An iceberg has shown its next slice in slot `i`; `rest` is the registry without its entry. -/
structure Replenished (sim sim' : ExecutionSimulator k) (ib : Iceberg) (rest : List Iceberg)
    (i : Nat) : Prop where
  first : sim.registered ib.ref = some ib
  entry : sim.icebergs.Perm (ib :: rest)
  left : sim'.icebergs.Perm (afterSlice ib ++ rest)
  reserve : 0 < ib.hidden
  free : (sim.book.findHandle ib.ref).index = kNullIndex
  book : OrderBook.Rested sim.book sim.book.levelSlots sim'.book i
    ⟨ib.ref, nextSlice ib, ib.priceTicks, ib.side⟩
  track : sim'.track = sim.track
  log : sim'.log = sim.log
  hidden : sim'.hidden = sim.hidden
  env : SameEnv sim sim'

theorem nextSlice_pos {limit : Nat} {b : OrderBook k} {ib : Iceberg} (h : IcebergOk limit b ib)
    (hpos : 0 < ib.hidden) : 0 < nextSlice ib := by
  have := h.display
  unfold nextSlice
  omega

theorem dropIceberg_perm (l₁ l₂ : List Iceberg) (ib : Iceberg) :
    (dropIceberg (l₁ ++ ib :: l₂) l₁.length).Perm (l₁ ++ l₂) := by
  rcases List.eq_nil_or_concat l₂ with rfl | ⟨m, last, hl⟩
  · simp [dropIceberg]
  · rw [List.concat_eq_append] at hl
    subst hl
    have hlast : (l₁ ++ ib :: (m ++ [last])).getLast? = some last := by
      rw [← List.cons_append, ← List.append_assoc, List.getLast?_concat]
    rw [dropIceberg, hlast]
    dsimp only
    rw [List.set_append_right _ _ (Nat.le_refl _), Nat.sub_self, List.set_cons_zero]
    have hdrop : (l₁ ++ last :: (m ++ [last])).dropLast = l₁ ++ last :: m := by
      rw [← List.cons_append, ← List.append_assoc, List.dropLast_concat]
    rw [hdrop]
    refine List.Perm.append_left l₁ ?_
    exact (List.perm_append_singleton last m).symm

/-- **`replenish_if_iceberg`** shows the next slice or does nothing. -/
theorem replenishIfIceberg_spec (hb : sim.book.Valid) {limit : Nat}
    (hok : ∀ ib ∈ sim.icebergs, IcebergOk limit sim.book ib) {head : Nat}
    (hroom : (sim.book.findHandle head).index = kNullIndex →
      sim.book.arena.liveCount < sim.book.arena.capacity) :
    (sim.replenishIfIceberg head = sim ∧ NothingToShow sim head)
      ∨ ∃ ib rest i, ib.ref = head ∧ Replenished sim (sim.replenishIfIceberg head) ib rest i := by
  unfold replenishIfIceberg
  cases hidx : sim.icebergIndexOf head with
  | none =>
      refine Or.inl ⟨rfl, Or.inl (fun ib hib href => ?_)⟩
      have := List.findIdx?_eq_none_iff.mp hidx ib hib
      simp [href] at this
  | some idx =>
      obtain ⟨hlt, href, _⟩ := List.findIdx?_eq_some_iff_getElem.mp hidx
      have hget : sim.icebergs[idx]? = some sim.icebergs[idx] := List.getElem?_eq_getElem hlt
      have hmem : sim.icebergs[idx] ∈ sim.icebergs := List.getElem_mem hlt
      obtain ⟨l₁, l₂, hsplit, hlen⟩ : ∃ l₁ l₂, sim.icebergs = l₁ ++ sim.icebergs[idx] :: l₂
          ∧ l₁.length = idx := by
        refine ⟨sim.icebergs.take idx, sim.icebergs.drop (idx + 1), ?_, ?_⟩
        · rw [List.getElem_cons_drop, List.take_append_drop]
        · rw [List.length_take]
          omega
      have hfirst : sim.registered head = some sim.icebergs[idx] := by
        rw [registered, List.find?_eq_bind_findIdx?_getElem?]
        exact (congrArg (fun o => o.bind (fun i => sim.icebergs[i]?)) hidx).trans hget
      dsimp only
      rw [hget]
      generalize sim.icebergs[idx] = ib at *
      have href : ib.ref = head := of_decide_eq_true href
      have hib := hok ib hmem
      dsimp only
      by_cases hz : ib.hidden = 0
      · rw [if_pos hz]
        exact Or.inl ⟨rfl, Or.inr (Or.inl ⟨ib, hmem, href, hz, hfirst⟩)⟩
      rw [if_neg hz]
      by_cases hin : (sim.book.findHandle head).index ≠ kNullIndex
      · rw [if_pos hin]
        exact Or.inl ⟨rfl, Or.inr (Or.inr hin)⟩
      rw [if_neg hin]
      rw [not_not] at hin
      have hres : 0 < ib.hidden := by
        have := hib.hidden
        omega
      have hfree : (sim.book.findHandle ib.ref).index = kNullIndex := by rw [href]; exact hin
      have hcl : (sim.book.ladderFor ib.side).claimable ib.priceTicks :=
        (PriceLadder.claimable_iff (hb.ladder ib.side)).mpr (Or.inl hib.page)
      -- the registry without the entry
      have hset : ∀ x, sim.icebergs.set idx x = l₁ ++ x :: l₂ := by
        intro x
        rw [hsplit, ← hlen, List.set_append_right _ _ (Nat.le_refl _), Nat.sub_self,
          List.set_cons_zero]
      rcases OrderBook.add_cases hb ib.ref ib.side (min ib.display ib.hidden) ib.priceTicks with
        ⟨_, _, i, hi⟩ | ⟨hno, _⟩
      · refine Or.inr ⟨ib, l₁ ++ l₂, i, href,
          { first := ?_, entry := ?_, left := ?_, reserve := hres, free := hfree, book := hi,
            track := rfl, log := rfl, hidden := rfl, env := ⟨rfl, rfl, rfl, rfl⟩ }⟩
        · rw [href]
          exact hfirst
        · rw [hsplit]
          exact List.perm_middle
        · dsimp only
          rw [afterSlice, nextSlice, hset]
          by_cases hempty : ib.hidden - min ib.display ib.hidden = 0
          · rw [if_pos hempty, if_pos hempty]
            have hdrop := dropIceberg_perm l₁ l₂
              { ib with hidden := ib.hidden - min ib.display ib.hidden }
            rw [hlen] at hdrop
            exact hdrop
          · rw [if_neg hempty, if_neg hempty]
            exact List.perm_middle
      · exact absurd ⟨hib.named, nextSlice_pos hib hres, hib.band, hcl, hfree, hroom hin⟩ hno

/-! ## A strategy order that leaves -/

/-- The strategy's order in slot `i` has left the book, tracker and all. -/
structure Withdrawn (cfg : SimConfig) (sim sim' : ExecutionSimulator k) (i : Nat) : Prop where
  book : OrderBook.Reduced sim.book sim.book.levelSlots sim'.book i (sim.book.rem i)
  mirror : Mirror cfg.externalRefLimit sim'.book sim'.track
  at_other : ∀ j, j ≠ i → sim'.track.at? j = sim.track.at? j
  at_self : sim'.track.at? i = none
  same : SameLevels sim.track sim'.track
  log : sim'.log = sim.log
  icebergs : sim'.icebergs = sim.icebergs
  hidden : sim'.hidden = sim.hidden
  env : SameEnv sim sim'

/-- **Retiring the tracker of an order the book has lost** withdraws it. -/
theorem withdrawn_of_reduced (hm : Mirror cfg.externalRefLimit sim.book sim.track) {i : Nat}
    {b : OrderBook k} (hred : OrderBook.Reduced sim.book sim.book.levelSlots b i (sim.book.rem i)) :
    Withdrawn cfg sim { sim with book := b, track := sim.track.retire i } i := by
  obtain ⟨L, hL⟩ := hm.inv
  have hret := retire_spec hL i
  have hself : (sim.track.retire i).at? i = if sim.book.rem i - sim.book.rem i = 0 then none else
      (sim.track.at? i).map (fun v => { v with
        qtyRemaining := sim.book.rem i - sim.book.rem i, qtyAhead := 0 }) := by
    rw [if_pos (Int.sub_self _)]
    exact hret.at_self
  exact
    { book := hred, mirror := hm.reduced hred hret.inv hret.same.size hret.at_other hself,
      at_other := hret.at_other, at_self := hret.at_self, same := hret.same, log := rfl,
      icebergs := rfl, hidden := rfl, env := ⟨rfl, rfl, rfl, rfl⟩ }

theorem withdrawn_spec (hb : sim.book.Valid)
    (hm : Mirror cfg.externalRefLimit sim.book sim.track) {i : Nat} (hi : sim.book.live i) :
    Withdrawn cfg sim { sim with
      book := (sim.book.remove (sim.book.order i).orderRef).book
      track := sim.track.retire i } i :=
  withdrawn_of_reduced hm (OrderBook.remove_spec hb hi).1

/-- Those behind a withdrawn order are too far back by its remainder. -/
theorem Withdrawn.off_eq {i : Nat} {off : Nat → Int} (h : Withdrawn cfg sim sim' i)
    (hb : sim.book.Valid) (hoff : Off sim.book sim.track off) :
    Off sim'.book sim'.track (fun j => off j
      + if i ∈ before j (sim.book.queueOf j) then sim.book.rem i else 0) := by
  have hself : ∀ v, sim'.track.at? i = some v → v.qtyAhead = sim'.book.ahead i + 0 := by
    intro v hv
    rw [h.at_self] at hv
    exact absurd hv (by simp)
  refine (Off.reduced hb h.mirror hoff h.book h.at_other hself).congr (fun j hj => ?_)
  have hji : j ≠ i := fun he => hj (he ▸ h.at_self)
  rw [if_neg hji]

end ExecutionSimulator

/-! ## The non-displayed ledger -/

namespace Tap

/-- What a tap takes from an entry. -/
def amount (t : Tap) (h : Hidden) : Int := min t.remaining h.qtyRemaining

/-- The execution against an entry. -/
def execution (t : Tap) (h : Hidden) : Execution :=
  { ref := h.ref, side := h.side, price := h.priceTicks, qty := t.amount h, displayed := false }

/-- The state of a tap once it has taken from an entry. -/
def take (t : Tap) (cfg : SimConfig) (h : Hidden) : Tap :=
  { log := (t.log.execute (t.execution h)).settle cfg t.log.nowHint h.ref h.priceTicks (t.amount h)
      h.side
    remaining := t.remaining - t.amount h
    filled := t.filled + t.amount h
    notional := (t.notional + notionalOf h.priceTicks (t.amount h)) % 2 ^ 64 }

/-- What stays of an entry. -/
def stays (t : Tap) (h : Hidden) : List Hidden :=
  if h.qtyRemaining - t.amount h = 0 then []
  else [{ h with qtyRemaining := h.qtyRemaining - t.amount h }]

end Tap

section tapLoop

variable {cfg : SimConfig} {s : Side} {p : Int}

theorem tapLoop_cons_take {t : Tap} {h : Hidden} {l : List Hidden} (hrem : 0 < t.remaining)
    (hs : h.side = s) (hp : h.priceTicks = p) :
    tapLoop cfg s p (h :: l) t
      = (t.stays h ++ (tapLoop cfg s p l (t.take cfg h)).1, (tapLoop cfg s p l (t.take cfg h)).2) := by
  subst hs hp
  rw [tapLoop, if_neg (by omega), if_neg (by simp)]
  unfold Tap.stays
  by_cases hz : h.qtyRemaining - t.amount h = 0
  · rw [if_pos hz]
    exact if_pos hz
  · rw [if_neg hz]
    exact if_neg hz

variable (cfg s p) in
/-- **A tap takes entries one by one**: what one taking preserves, a whole tap preserves. -/
theorem tapLoop_induction {I : List Hidden → Tap → Prop}
    (hstep : ∀ kept h l t, I (kept ++ h :: l) t → 0 < t.remaining → h.side = s →
      h.priceTicks = p → I (kept ++ (t.stays h ++ l)) (t.take cfg h)) (l : List Hidden) :
    ∀ kept t, I (kept ++ l) t → I (kept ++ (tapLoop cfg s p l t).1) (tapLoop cfg s p l t).2 := by
  induction l with
  | nil => intro kept t h; exact h
  | cons a l ih =>
      intro kept t h
      by_cases hrem : t.remaining ≤ 0
      · rw [tapLoop, if_pos hrem]
        exact h
      by_cases hoff : a.side ≠ s ∨ a.priceTicks ≠ p
      · rw [tapLoop, if_neg hrem, if_pos hoff]
        have := ih (kept ++ [a]) t (by rw [List.append_assoc]; exact h)
        rw [List.append_assoc] at this
        exact this
      · rw [not_or, not_not, not_not] at hoff
        rw [tapLoop_cons_take (by omega) hoff.1 hoff.2]
        have hnext := hstep kept a l t h (by omega) hoff.1 hoff.2
        rw [← List.append_assoc] at hnext
        have := ih (kept ++ t.stays a) (t.take cfg a) hnext
        rw [List.append_assoc] at this
        exact this

/-- A tap ends with nothing left to fill or with nothing left at its price. -/
theorem tapLoop_exhausts (l : List Hidden) : ∀ t : Tap,
    (tapLoop cfg s p l t).2.remaining ≤ 0
      ∨ ∀ h ∈ (tapLoop cfg s p l t).1, ¬ (h.side = s ∧ h.priceTicks = p) := by
  induction l with
  | nil => intro t; exact Or.inr (fun h hh => absurd hh (by simp [tapLoop]))
  | cons a l ih =>
      intro t
      by_cases hrem : t.remaining ≤ 0
      · rw [tapLoop, if_pos hrem]
        exact Or.inl hrem
      by_cases hoff : a.side ≠ s ∨ a.priceTicks ≠ p
      · rw [tapLoop, if_neg hrem, if_pos hoff]
        refine (ih t).imp id (fun hl h hh => ?_)
        rcases List.mem_cons.mp hh with rfl | hh
        · exact fun hc => hoff.elim (fun h1 => h1 hc.1) (fun h2 => h2 hc.2)
        · exact hl h hh
      · rw [not_or, not_not, not_not] at hoff
        rw [tapLoop_cons_take (by omega) hoff.1 hoff.2]
        by_cases hz : a.qtyRemaining - t.amount a = 0
        · rw [Tap.stays, if_pos hz]
          exact ih _
        · -- the entry outlasts the tap, which has nothing left to fill
          have hamt : t.amount a = t.remaining := by
            unfold Tap.amount at hz ⊢
            omega
          refine Or.inl ?_
          have hzero : (t.take cfg a).remaining = 0 := by
            show t.remaining - t.amount a = 0
            omega
          have hstop : ∀ (l : List Hidden) (u : Tap), u.remaining ≤ 0 →
              (tapLoop cfg s p l u).2 = u := by
            intro l u hu
            cases l with
            | nil => rfl
            | cons b l => rw [tapLoop, if_pos hu]
          rw [hstop l _ (by omega), hzero]

/-- What an entry can still cost a sweep in passes. -/
def Hidden.work (h : Hidden) : Nat := 1 + (-h.qtyRemaining).toNat

/-- What a ledger can still cost a sweep in passes. -/
def ledgerWork (l : List Hidden) : Nat := (l.map Hidden.work).sum

theorem stays_work (cfg : SimConfig) {t : Tap} (h : Hidden) (hrem : 0 < t.remaining) :
    ledgerWork (t.stays h) + (t.take cfg h).remaining.toNat < h.work + t.remaining.toNat := by
  have hrem' : (t.take cfg h).remaining = t.remaining - t.amount h := rfl
  rw [hrem']
  unfold Tap.stays Hidden.work
  by_cases hz : h.qtyRemaining - t.amount h = 0
  · rw [if_pos hz]
    simp only [ledgerWork, List.map_nil, List.sum_nil]
    unfold Tap.amount at *
    omega
  · rw [if_neg hz]
    simp only [ledgerWork, List.map_cons, List.map_nil, List.sum_cons, List.sum_nil, Hidden.work]
    unfold Tap.amount at *
    omega

/-- **A tap lowers the work left**, strictly when it finds an entry. -/
theorem tapLoop_work (cfg : SimConfig) (s : Side) (p : Int) (l : List Hidden) : ∀ t : Tap,
    ledgerWork (tapLoop cfg s p l t).1 + (tapLoop cfg s p l t).2.remaining.toNat
        ≤ ledgerWork l + t.remaining.toNat
      ∧ (0 < t.remaining → (∃ h ∈ l, h.side = s ∧ h.priceTicks = p) →
        ledgerWork (tapLoop cfg s p l t).1 + (tapLoop cfg s p l t).2.remaining.toNat
          < ledgerWork l + t.remaining.toNat) := by
  induction l with
  | nil => intro t; exact ⟨Nat.le_refl _, fun _ h => absurd h (by simp)⟩
  | cons a l ih =>
      intro t
      have hcons : ∀ m : List Hidden, ledgerWork (a :: m) = a.work + ledgerWork m := fun m => by
        simp [ledgerWork]
      by_cases hrem : t.remaining ≤ 0
      · rw [tapLoop, if_pos hrem]
        exact ⟨Nat.le_refl _, fun h => absurd h (by omega)⟩
      by_cases hoff : a.side ≠ s ∨ a.priceTicks ≠ p
      · rw [tapLoop, if_neg hrem, if_pos hoff]
        dsimp only
        rw [hcons, hcons]
        refine ⟨by have := (ih t).1; omega, fun hpos hex => ?_⟩
        obtain ⟨h, hh, hm⟩ := hex
        rcases List.mem_cons.mp hh with rfl | hh
        · exact absurd hm (fun hc => hoff.elim (fun h1 => h1 hc.1) (fun h2 => h2 hc.2))
        · have := (ih t).2 hpos ⟨h, hh, hm⟩
          omega
      · rw [not_or, not_not, not_not] at hoff
        rw [tapLoop_cons_take (by omega) hoff.1 hoff.2]
        have hstay := stays_work cfg a (show 0 < t.remaining by omega)
        have hrest := (ih (t.take cfg a)).1
        have happ : ∀ m : List Hidden, ledgerWork (t.stays a ++ m)
            = ledgerWork (t.stays a) + ledgerWork m := fun m => by
          simp [ledgerWork]
        rw [hcons]
        dsimp only
        rw [happ]
        exact ⟨by omega, fun _ _ => by omega⟩

end tapLoop

end Mog
