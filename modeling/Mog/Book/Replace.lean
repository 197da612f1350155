import Mog.Book.Audit
import Mog.Book.Position

/-!
# Replace, all or nothing

`replace` checks its arguments, removes the old order and adds the new one; the
result of that last `add` is only asserted. `ReplaceAtomic` says what a caller may
rely on: an error leaves the book as it was, a success moves exactly one order.

* `replace_moves`: a replacement under a reference that is not zero is atomic.
* `replaceAtomic_iff`: with reference zero the added order is refused after the old
  one is gone, and the call reports success all the same.
-/

namespace Mog

namespace OrderBook

variable {k : Nat} {b b' : OrderBook k}

/-! ## Runs whose market orders stay within the head -/

/-- `execute_front` takes no more than the order at the front has. -/
def WithinFront (b : OrderBook k) : BookCall → Prop
  | .executeFront s p qty => b.frontRef s p ≠ 0 → qty ≤ b.remainingOf (b.frontRef s p)
  | _ => True

/-- Every call of the sequence satisfies `WithinFront` where it is made. -/
def FrontRun : OrderBook k → List BookCall → Prop
  | _, [] => True
  | b, c :: cs => b.WithinFront c ∧ FrontRun (b.call c).book cs

/-! The table has no entry for reference zero, so a call that names it finds nothing. -/

theorem execute_zero (b : OrderBook k) (qty : Int) : (b.execute 0 qty).book = b := by
  have hz : (b.idFindSlot 0).handle.index = kNullIndex := congrArg GenHandle.index b.idFind_zero
  unfold execute
  split
  · rfl
  · dsimp only
    rw [if_pos hz]
    rfl

theorem remove_zero (b : OrderBook k) : (b.remove 0).book = b := by
  have hz : (b.idFindSlot 0).handle.index = kNullIndex := congrArg GenHandle.index b.idFind_zero
  unfold remove
  dsimp only
  rw [if_pos hz]
  rfl

theorem sideOf_zero (b : OrderBook k) : b.sideOf 0 = none := by
  unfold sideOf
  rw [if_pos (Or.inl (congrArg GenHandle.index b.idFind_zero))]

/-- **One call keeps the book valid**, whatever references it names. -/
theorem Valid.call (h : b.Valid) {c : BookCall} (hc : b.WithinFront c) : (b.call c).book.Valid := by
  have hzero : ∀ {x : OrderBook k}, x = b → x.Valid := fun he => by rw [he]; exact h
  cases c with
  | add ref s qty p =>
      obtain ⟨_, h'⟩ := add_inv h ref s qty p
      exact h'.valid
  | execute ref qty =>
      by_cases hr : ref = 0
      · exact hzero (by rw [hr]; exact b.execute_zero qty)
      · obtain ⟨_, h'⟩ := execute_inv h hr qty
        exact h'.valid
  | cancel ref qty =>
      by_cases hr : ref = 0
      · exact hzero (by rw [hr]; exact b.execute_zero qty)
      · obtain ⟨_, h'⟩ := execute_inv h hr qty
        exact h'.valid
  | executeFront s p qty =>
      obtain ⟨_, h'⟩ := executeFront_inv h hc
      exact h'.valid
  | remove ref =>
      by_cases hr : ref = 0
      · exact hzero (by rw [hr]; exact b.remove_zero)
      · obtain ⟨_, h'⟩ := remove_inv h hr
        exact h'.valid
  | replace origRef newRef qty p =>
      by_cases hr : origRef = 0
      · exact hzero (by rw [hr]; exact
          (replace_unknown (congrArg GenHandle.index b.idFind_zero) newRef qty p).2)
      · obtain ⟨_, h'⟩ := replace_inv h hr newRef qty p
        exact h'.valid

theorem Valid.after {calls : List BookCall} : ∀ {b : OrderBook k}, b.Valid → b.FrontRun calls →
    (b.after calls).Valid := by
  induction calls with
  | nil => intro b h _; exact h
  | cons c calls ih =>
      intro b h hr
      exact ih (h.call hr.1) hr.2

/-! ## What a replacement leaves where -/

/-- The orders of a level with what each has left, head first. -/
def fifo (b : OrderBook k) (s : Side) (p : Int) : List (Nat × Int) :=
  (b.levelSlots s p).map (fun i => ((b.order i).orderRef, b.rem i))

/-- `b'` is `b` with the order of `origRef` replaced by `newRef`, on side `s`. -/
structure ReplacedBy (b b' : OrderBook k) (origRef newRef : Nat) (qty price : Int) (s : Side) :
    Prop where
  /-- The order replaced was live. -/
  orig : b.sideOf origRef = some s
  /-- Its replacement is live, on the same side, with the new quantity. -/
  placed : b'.sideOf newRef = some s ∧ b'.remainingOf newRef = qty
  /-- The order replaced is gone. -/
  gone : origRef ≠ newRef → b'.sideOf origRef = none
  /-- Every other reference means what it meant. -/
  others : ∀ ref, ref ≠ origRef → ref ≠ newRef →
    b'.sideOf ref = b.sideOf ref ∧ b'.remainingOf ref = b.remainingOf ref
  /-- The queues, the replacement at the tail of its level. -/
  queues : ∀ t p, b'.fifo t p = (b.fifo t p).filter (fun o => o.1 ≠ origRef)
    ++ if t = s ∧ p = price then [(newRef, qty)] else []

/-- What a caller of `replace` may rely on. -/
def ReplaceAtomic (b : OrderBook k) (origRef newRef : Nat) (qty price : Int) : Prop :=
  if (b.replace origRef newRef qty price).tick.ok then
    ∃ s, ReplacedBy b (b.replace origRef newRef qty price).book origRef newRef qty price s
  else (b.replace origRef newRef qty price).book = b

/-! The lookups by reference, and the queues, after an order has come or gone. -/

/-- Two books in which a reference names the same order answer the same. -/
theorem lookup_congr (h : b.Valid) (h' : b'.Valid) {ref : Nat} (hr : ref ≠ 0)
    (hlive : ∀ i, b'.live i ∧ (b'.order i).orderRef = ref ↔ b.live i ∧ (b.order i).orderRef = ref)
    (hsame : ∀ i, b.live i → (b.order i).orderRef = ref →
      (b'.order i).side = (b.order i).side ∧ b'.rem i = b.rem i) :
    b'.sideOf ref = b.sideOf ref ∧ b'.remainingOf ref = b.remainingOf ref := by
  by_cases hd : ∀ i, b.live i → (b.order i).orderRef ≠ ref
  · have hd' : ∀ i, b'.live i → (b'.order i).orderRef ≠ ref := fun i hi he =>
      hd i ((hlive i).mp ⟨hi, he⟩).1 ((hlive i).mp ⟨hi, he⟩).2
    rw [h.sideOf_dead hr hd, h'.sideOf_dead hr hd', h.remainingOf_dead hr hd,
      h'.remainingOf_dead hr hd']
    exact ⟨rfl, rfl⟩
  · push Not at hd
    obtain ⟨i, hi, href⟩ := hd
    obtain ⟨hi', href'⟩ := (hlive i).mpr ⟨hi, href⟩
    obtain ⟨hs, hrem⟩ := hsame i hi href
    have h1 := h.sideOf_live hi
    have h2 := h'.sideOf_live hi'
    have h3 := h.remainingOf_live hi
    have h4 := h'.remainingOf_live hi'
    rw [href] at h1 h3
    rw [href'] at h2 h4
    rw [h1, h2, h3, h4, hs, hrem]
    exact ⟨rfl, rfl⟩

theorem Rested.lookup {i : Nat} {v : OrderView} (h : Rested b b.levelSlots b' i v) (hb : b.Valid)
    {ref : Nat} (hr : ref ≠ 0) (hne : ref ≠ v.orderRef) :
    b'.sideOf ref = b.sideOf ref ∧ b'.remainingOf ref = b.remainingOf ref := by
  have hself : (b'.order i).orderRef = v.orderRef := congrArg OrderView.orderRef h.self
  refine lookup_congr hb h.valid hr (fun j => ?_) (fun j hj _ => ?_)
  · by_cases hji : j = i
    · rw [hji, hself]
      exact ⟨fun hh => absurd hh.2.symm hne, fun hh => absurd hh.1 h.fresh⟩
    · rw [h.live, (Order.view_eq (h.frame j hji)).1]
      simp [hji]
  · have hji : j ≠ i := fun he => h.fresh (he ▸ hj)
    exact ⟨(Order.view_eq (h.frame j hji)).2.2.2, h.rem_other hji⟩

theorem Rested.fifo {i : Nat} {v : OrderView} (h : Rested b b.levelSlots b' i v) (hb : b.Valid)
    (s : Side) (p : Int) : b'.fifo s p
      = b.fifo s p ++ if s = v.side ∧ p = v.priceTicks then [(v.orderRef, v.qtyRemaining)] else [] := by
  have hold : (b.levelSlots s p).map (fun j => ((b'.order j).orderRef, b'.rem j)) = b.fifo s p := by
    refine List.map_congr_left (fun j hj => ?_)
    have hji : j ≠ i := fun he => h.fresh (he ▸ ((hb.mem s p j).mp hj).1)
    rw [(Order.view_eq (h.frame j hji)).1, h.rem_other hji]
  have hself : (b'.order i).orderRef = v.orderRef := congrArg OrderView.orderRef h.self
  rw [OrderBook.fifo, h.levelSlots hb]
  split
  · rw [List.map_append, hold, List.map_singleton, hself, h.rem_self]
  · rw [hold, List.append_nil]

theorem Reduced.lookup {i : Nat} {qty : Int} (h : Reduced b b.levelSlots b' i qty) (hb : b.Valid)
    {ref : Nat} (hr : ref ≠ 0) (hne : ref ≠ (b.order i).orderRef) :
    b'.sideOf ref = b.sideOf ref ∧ b'.remainingOf ref = b.remainingOf ref := by
  refine lookup_congr hb h.valid hr (fun j => ?_) (fun j hj href => ?_)
  · constructor
    · rintro ⟨hj, href⟩
      exact ⟨((h.live j).mp hj).1, (h.kept hj).1 ▸ href⟩
    · rintro ⟨hj, href⟩
      have hji : j ≠ i := fun he => hne (by rw [← href, he])
      have hj' : b'.live j := (h.live j).mpr ⟨hj, fun hh => hji hh.1⟩
      exact ⟨hj', (h.kept hj').1.trans href⟩
  · have hji : j ≠ i := fun he => hne (by rw [← href, he])
    exact ⟨(Order.view_eq (h.frame j hji)).2.2.2, h.rem_other hji⟩

/-- An order that loses all it has leaves its queue. -/
theorem Reduced.fifo {i : Nat} (h : Reduced b b.levelSlots b' i (b.rem i)) (hb : b.Valid)
    (hi : b.live i) (s : Side) (p : Int) :
    b'.fifo s p = (b.fifo s p).filter (fun o => o.1 ≠ (b.order i).orderRef) := by
  have hrefs : ∀ j ∈ b.levelSlots s p, (b.order j).orderRef ≠ (b.order i).orderRef ↔ j ≠ i := by
    intro j hj
    have hjl := ((hb.mem s p j).mp hj).1
    exact not_congr ⟨fun he => hb.ref_inj hjl hi he, fun he => by rw [he]⟩
  have hslots : b'.levelSlots s p = (b.levelSlots s p).filter (fun j => j ≠ i) := by
    rw [h.levelSlots hb]
    by_cases hsp : s = (b.order i).side ∧ p = (b.order i).priceTicks
    · rw [if_pos ⟨rfl, hsp⟩, (hb.nodup s p).erase_eq_filter]
      exact List.filter_congr (fun j _ => by simp [bne, BEq.beq])
    · rw [if_neg (fun hh => hsp hh.2), List.filter_eq_self.mpr]
      intro j hj
      simp only [ne_eq, decide_not, Bool.not_eq_true', decide_eq_false_iff_not]
      intro he
      obtain ⟨_, h1, h2⟩ := (hb.mem s p j).mp hj
      rw [he] at h1 h2
      exact hsp ⟨h1.symm, h2.symm⟩
  have hkept : ∀ j ∈ (b.levelSlots s p).filter (fun j => j ≠ i),
      ((b'.order j).orderRef, b'.rem j) = ((b.order j).orderRef, b.rem j) := by
    intro j hj
    have hji : j ≠ i := of_decide_eq_true (List.mem_filter.mp hj).2
    rw [(Order.view_eq (h.frame j hji)).1, h.rem_other hji]
  rw [OrderBook.fifo, hslots, List.map_congr_left hkept, OrderBook.fifo, List.filter_map]
  refine congrArg (List.map _) (List.filter_congr (fun j hj => ?_))
  simp only [Function.comp]
  exact decide_eq_decide.mpr (hrefs j hj).symm

/-- **A replacement under a proper reference** moves one order and nothing else. -/
theorem replace_moves (h : b.Valid) {i : Nat} (hi : b.live i) {newRef : Nat}
    {qty price : Int} {b1 : OrderBook k} (hred : Reduced b b.levelSlots b1 i (b.rem i)) {j : Nat}
    (hrest : Rested b1 b1.levelSlots b' j ⟨newRef, qty, price, (b.order i).side⟩) :
    ReplacedBy b b' (b.order i).orderRef newRef qty price (b.order i).side := by
  have hr := h.ref i hi
  have hj : b'.live j := (hrest.live j).mpr (Or.inl rfl)
  have hself : (b'.order j).orderRef = newRef := congrArg OrderView.orderRef hrest.self
  have hdead : ∀ x, b1.live x → (b1.order x).orderRef ≠ (b.order i).orderRef := by
    intro x hx he
    obtain ⟨hxl, hxi⟩ := (hred.live x).mp hx
    rw [(hred.kept hx).1] at he
    exact hxi ⟨h.ref_inj hxl hi he, rfl⟩
  refine ⟨h.sideOf_live hi, ⟨?_, ?_⟩, fun hne => ?_, fun ref hro hrn => ?_, fun t p => ?_⟩
  · rw [← hself, hrest.valid.sideOf_live hj, hrest.side_self]
  · rw [← hself, hrest.valid.remainingOf_live hj, hrest.rem_self]
  · rw [(hrest.lookup hred.valid hr hne).1, hred.valid.sideOf_dead hr hdead]
  · by_cases hz : ref = 0
    · rw [hz, sideOf_zero, sideOf_zero]
      refine ⟨rfl, ?_⟩
      unfold remainingOf
      rw [if_pos (Or.inl (congrArg GenHandle.index b'.idFind_zero)),
        if_pos (Or.inl (congrArg GenHandle.index b.idFind_zero))]
    · obtain ⟨h1, h2⟩ := hrest.lookup hred.valid hz hrn
      obtain ⟨h3, h4⟩ := hred.lookup h hz hro
      exact ⟨h1.trans h3, h2.trans h4⟩
  · rw [hrest.fifo hred.valid, hred.fifo h hi]

/-- With reference zero nothing but the order replaced can stand against a replacement; its
`add` is refused, and the call succeeds. -/
theorem replace_to_zero {i : Nat} (h : b.Valid) (hi : b.live i) {qty price : Int}
    (hrep : b.Replaceable i 0 qty price) :
    (b.replace (b.order i).orderRef 0 qty price).tick.ok
      ∧ (b.replace (b.order i).orderRef 0 qty price).book.sideOf 0 = none := by
  have hf : (b.idFind (b.order i).orderRef).index = i :=
    (h.idFind_eq_iff (h.ref i hi) (h.ne_null hi)).mpr ⟨hi, rfl⟩
  have hside : (b.arena.deref (b.idFind (b.order i).orderRef)).side = (b.order i).side := by
    rw [Arena.deref, hf]; rfl
  have hz : (b.idFind 0).index = kNullIndex := congrArg GenHandle.index b.idFind_zero
  refine ⟨?_, sideOf_zero _⟩
  unfold replace
  rw [if_neg (Int.not_le.mpr hrep.pos), if_neg (not_not.mpr hrep.band)]
  dsimp only
  rw [if_neg (by rw [hf]; exact h.ne_null hi), hside, if_neg (not_not.mpr hrep.page),
    if_neg (fun hh => hh.2 hz)]
  exact TickKind.noConfusion

/--
**When `replace` is all or nothing.**

In every book a run leaves, a `replace` call with any arguments either fails and
leaves the book alone or moves exactly the order it names, unless it passes every
check and its new reference is zero.
-/
theorem replaceAtomic_iff {cfg : BookConfig} (hc : ConfigOk k cfg) (calls : List BookCall)
    (hr : (init cfg : OrderBook k).FrontRun calls) (origRef newRef : Nat) (qty price : Int) :
    ((init cfg : OrderBook k).after calls).ReplaceAtomic origRef newRef qty price
      ↔ newRef ≠ 0 ∨ ∀ i, ((init cfg : OrderBook k).after calls).live i →
        (((init cfg : OrderBook k).after calls).order i).orderRef = origRef →
        ¬ ((init cfg : OrderBook k).after calls).Replaceable i newRef qty price := by
  have h : ((init cfg : OrderBook k).after calls).Valid := (init_inv hc).valid.after hr
  generalize (init cfg : OrderBook k).after calls = b at h
  have hfails : ¬ (b.replace origRef newRef qty price).tick.ok
      ∧ (b.replace origRef newRef qty price).book = b → b.ReplaceAtomic origRef newRef qty price := by
    intro hf
    unfold ReplaceAtomic
    rw [if_neg hf.1]
    exact hf.2
  by_cases hlive : ∃ i, b.live i ∧ (b.order i).orderRef = origRef
  swap
  · -- nothing to replace
    have hnull : (b.findHandle origRef).index = kNullIndex := by
      by_cases ho : origRef = 0
      · rw [ho]
        exact congrArg GenHandle.index b.idFind_zero
      · exact (h.idFind_null_iff ho).mpr (fun i hi href => hlive ⟨i, hi, href⟩)
    exact ⟨fun _ => Or.inr (fun i hi href => absurd ⟨i, hi, href⟩ hlive),
      fun _ => hfails (replace_unknown hnull newRef qty price)⟩
  obtain ⟨i, hi, rfl⟩ := hlive
  by_cases hn : newRef = 0
  · subst hn
    constructor
    · refine fun ha => Or.inr (fun j hj href hrep => ?_)
      obtain rfl := h.ref_inj hj hi href
      obtain ⟨hok, hside⟩ := replace_to_zero h hj hrep
      unfold ReplaceAtomic at ha
      rw [if_pos hok] at ha
      obtain ⟨s, hs⟩ := ha
      exact absurd (hside.symm.trans hs.placed.1) (Option.some_ne_none s).symm
    · exact fun hno => hfails (replace_refused h hi (hno.resolve_left (not_not.mpr rfl) i hi rfl))
  · refine ⟨fun _ => Or.inl hn, fun _ => ?_⟩
    unfold ReplaceAtomic
    rcases replace_cases h hi hn qty price with ⟨_, hok, b1, hred, j, hrest⟩ | ⟨_, hno, hbook⟩
    · rw [if_pos hok]
      exact ⟨_, replace_moves h hi hred hrest⟩
    · rw [if_neg hno]
      exact hbook

/-- A bid moves from 3 to 4, under a fresh reference. -/
theorem replaceAtomic_iff_moved :
    ((init ⟨2, ⟨0, 16, 1⟩⟩ : OrderBook 4).after [.add 1 .buy 5 3]).ReplaceAtomic 1 2 6 4 :=
  (replaceAtomic_iff ⟨by decide, by decide, by decide, by decide, by decide⟩ [.add 1 .buy 5 3]
    ⟨trivial, trivial⟩ 1 2 6 4).mpr (Or.inl (by decide))

/-- The same move with new reference zero: success is reported, and no order is left. -/
theorem replace_to_zero_loses :
    ¬ ((init ⟨2, ⟨0, 16, 1⟩⟩ : OrderBook 4).after [.add 1 .buy 5 3]).ReplaceAtomic 1 0 6 4 := by
  have hok : (((init ⟨2, ⟨0, 16, 1⟩⟩ : OrderBook 4).after [.add 1 .buy 5 3]).replace 1 0 6 4).tick.ok
      ∧ (((init ⟨2, ⟨0, 16, 1⟩⟩ : OrderBook 4).after [.add 1 .buy 5 3]).replace 1 0 6 4).book.sideOf 0
        = none := by
    decide +kernel
  intro ha
  unfold ReplaceAtomic at ha
  rw [if_pos hok.1] at ha
  obtain ⟨s, hs⟩ := ha
  exact absurd (hok.2.symm.trans hs.placed.1) (Option.some_ne_none s).symm

end OrderBook

end Mog
