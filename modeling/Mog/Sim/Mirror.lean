import Mog.Book.Position
import Mog.Sim.TrackerProof

/-!
# The trackers mirror the book

`Mirror limit b t` says that a slot has a live tracker exactly when it holds an order
whose reference is at or above `limit`, and that the tracker then records that order.
The position it records is not part of the mirror: `Off b t off` says by how much each
recorded position exceeds the queue's.

Positions are kept apart from the mirror because they are off for a while in the middle of an
event, by amounts that are known: a function from slots to the excess. Each rewriting of
positions is described by what it does to that function, and a state is exact where it is zero.
-/

namespace Mog

open QueueSum

namespace OrderBook

variable {k : Nat}

/-- What a tracker of slot `i` with position `a` records. -/
def record (b : OrderBook k) (i : Nat) (a : Int) : TrackView :=
  { ref := (b.order i).orderRef, priceTicks := (b.order i).priceTicks, qtyRemaining := b.rem i
    qtyAhead := a, side := (b.order i).side }

/-- Slot `i` holds one of the strategy's orders. -/
def Own (b : OrderBook k) (limit i : Nat) : Prop := b.live i ∧ limit ≤ (b.order i).orderRef

/-- Slot `i`'s order is on side `s` at price `p`. -/
def OnSide (b : OrderBook k) (s : Side) (p : Int) (i : Nat) : Prop :=
  (b.order i).side = s ∧ (b.order i).priceTicks = p

instance (b : OrderBook k) (s : Side) (p : Int) (i : Nat) : Decidable (b.OnSide s p i) :=
  inferInstanceAs (Decidable (_ ∧ _))

end OrderBook

namespace TrackTable

variable {k : Nat} {b b' : OrderBook k} {t t' : TrackTable} {limit : Nat} {off : Nat → Int}

structure Mirror (limit : Nat) (b : OrderBook k) (t : TrackTable) : Prop where
  inv : t.TrackInv
  size : t.size = b.arena.capacity
  own : ∀ i, b.Own limit i → ∃ a, t.at? i = some (b.record i a)
  other : ∀ i, ¬ b.Own limit i → t.at? i = none

/-- Each recorded position exceeds the queue's by `off`. -/
def Off (b : OrderBook k) (t : TrackTable) (off : Nat → Int) : Prop :=
  ∀ i v, t.at? i = some v → v.qtyAhead = b.ahead i + off i

/-- Every recorded position is the queue's. -/
def Exact (b : OrderBook k) (t : TrackTable) : Prop := Off b t (fun _ => 0)

theorem Off.congr {off' : Nat → Int} (h : Off b t off) (heq : ∀ i, t.at? i ≠ none → off' i = off i) :
    Off b t off' := by
  intro i v hv
  rw [heq i (by rw [hv]; exact Option.some_ne_none v)]
  exact h i v hv

theorem isLive_iff (h : t.TrackInv) (i : Nat) : t.isLive i ↔ t.at? i ≠ none := by
  obtain ⟨L, hL⟩ := h
  rw [isLive, ne_eq, at?_eq_none, Bool.not_eq_false]
  exact ⟨fun hh => hh.2, fun hh => ⟨(hL.bound i hh).1, hh⟩⟩

theorem live_iff (i : Nat) : (t.tracked i).live = true ↔ t.at? i ≠ none := by
  rw [ne_eq, at?_eq_none, Bool.not_eq_false]

namespace Mirror

theorem at?_iff (h : Mirror limit b t) (i : Nat) : t.at? i ≠ none ↔ b.Own limit i := by
  constructor
  · intro hne
    by_contra hno
    exact hne (h.other i hno)
  · intro hown
    obtain ⟨a, ha⟩ := h.own i hown
    rw [ha]
    exact Option.some_ne_none _

/-- A live tracker records its slot's order. -/
theorem record_of_some (h : Mirror limit b t) {i : Nat} {v : TrackView} (hv : t.at? i = some v) :
    b.Own limit i ∧ v = b.record i v.qtyAhead := by
  have hown := (h.at?_iff i).mp (by rw [hv]; exact Option.some_ne_none v)
  obtain ⟨a, ha⟩ := h.own i hown
  rw [hv] at ha
  rw [Option.some.inj ha]
  exact ⟨hown, rfl⟩

/-- Moving positions keeps the mirror. -/
theorem moved (h : Mirror limit b t) {f : Nat → Int → Int} (hm : Moved t t' f) : Mirror limit b t' where
  inv := hm.inv
  size := hm.same.size.trans h.size
  own i hi := by
    obtain ⟨a, ha⟩ := h.own i hi
    rw [hm.at_eq, ha]
    exact ⟨f i a, rfl⟩
  other i hi := by rw [hm.at_eq, h.other i hi]; rfl

/-- An external order that comes to rest has no tracker. -/
theorem rested_external (h : Mirror limit b t) {i : Nat} {v : OrderView}
    {q : Side → Int → List Nat} (hr : OrderBook.Rested b q b' i v) (hext : v.orderRef < limit) :
    Mirror limit b' t := by
  have hself : (b'.order i).orderRef = v.orderRef := congrArg OrderView.orderRef hr.self
  have hold : ¬ b.Own limit i := fun ho => hr.fresh ho.1
  have hkeep : ∀ j, j ≠ i → (b'.Own limit j ↔ b.Own limit j) := by
    intro j hj
    rw [OrderBook.Own, OrderBook.Own, hr.live, (Order.view_eq (hr.frame j hj)).1]
    simp [hj]
  have hnew : ¬ b'.Own limit i := fun ho => by
    have := ho.2
    rw [hself] at this
    omega
  refine ⟨h.inv, h.size.trans hr.config.capacity.symm, fun j hj => ?_, fun j hj => ?_⟩
  · have hji : j ≠ i := fun he => hnew (he ▸ hj)
    obtain ⟨a, ha⟩ := h.own j ((hkeep j hji).mp hj)
    obtain ⟨h1, h2, h3, h4⟩ := Order.view_eq (hr.frame j hji)
    refine ⟨a, ?_⟩
    rw [ha, OrderBook.record, OrderBook.record, OrderBook.rem, OrderBook.rem, h1, h2, h3, h4]
  · by_cases hji : j = i
    · rw [hji]; exact h.other i hold
    · exact h.other j (fun ho => hj ((hkeep j hji).mpr ho))

/-- A strategy order that comes to rest is tracked. -/
theorem rested_own (h : Mirror limit b t) {i : Nat} {v : OrderView} {q : Side → Int → List Nat}
    (hr : OrderBook.Rested b q b' i v) (hown : limit ≤ v.orderRef) {a : Int}
    (ht : Rested t t' i (b'.record i a)) : Mirror limit b' t' := by
  have hself : (b'.order i).orderRef = v.orderRef := congrArg OrderView.orderRef hr.self
  have hkeep : ∀ j, j ≠ i → (b'.Own limit j ↔ b.Own limit j) := by
    intro j hj
    rw [OrderBook.Own, OrderBook.Own, hr.live, (Order.view_eq (hr.frame j hj)).1]
    simp [hj]
  refine ⟨ht.inv, ht.size.trans (h.size.trans hr.config.capacity.symm), fun j hj => ?_,
    fun j hj => ?_⟩
  · by_cases hji : j = i
    · rw [hji]; exact ⟨a, ht.at_self⟩
    · obtain ⟨a', ha'⟩ := h.own j ((hkeep j hji).mp hj)
      obtain ⟨h1, h2, h3, h4⟩ := Order.view_eq (hr.frame j hji)
      refine ⟨a', ?_⟩
      rw [ht.at_other j hji, ha', OrderBook.record, OrderBook.record, OrderBook.rem, OrderBook.rem,
        h1, h2, h3, h4]
  · have hji : j ≠ i := by
      intro he
      refine hj ⟨(hr.live j).mpr (Or.inl he), ?_⟩
      rw [he, hself]
      exact hown
    rw [ht.at_other j hji]
    exact h.other j (fun ho => hj ((hkeep j hji).mpr ho))

/-- An order that loses quantity has its tracker follow. -/
theorem reduced (h : Mirror limit b t) {i : Nat} {qty a : Int} {q : Side → Int → List Nat}
    (hr : OrderBook.Reduced b q b' i qty) (hinv : t'.TrackInv) (hsize : t'.size = t.size)
    (hother : ∀ j, j ≠ i → t'.at? j = t.at? j)
    (hself : t'.at? i = if b.rem i - qty = 0 then none else
      (t.at? i).map (fun v => { v with qtyRemaining := b.rem i - qty, qtyAhead := a })) :
    Mirror limit b' t' := by
  have hkeep : ∀ j, b'.live j → (b'.Own limit j ↔ b.Own limit j) := by
    intro j hj
    rw [OrderBook.Own, OrderBook.Own, (hr.kept hj).1]
    exact ⟨fun ho => ⟨((hr.live j).mp hj).1, ho.2⟩, fun ho => ⟨hj, ho.2⟩⟩
  refine ⟨hinv, hsize.trans (h.size.trans hr.config.capacity.symm), fun j hj => ?_, fun j hj => ?_⟩
  · obtain ⟨a', ha'⟩ := h.own j ((hkeep j hj.1).mp hj)
    obtain ⟨h1, h2, h3⟩ := hr.kept hj.1
    by_cases hji : j = i
    · have hne : b.rem i ≠ qty := fun he => ((hr.live j).mp hj.1).2 ⟨hji, he⟩
      rw [hji] at ha' h1 h2 h3 ⊢
      refine ⟨a, ?_⟩
      rw [hself, if_neg (by omega), ha', Option.map_some, OrderBook.record, OrderBook.record, h1, h2, h3,
        hr.rem_self hne]
    · refine ⟨a', ?_⟩
      rw [hother j hji, ha', OrderBook.record, OrderBook.record, h1, h2, h3, hr.rem_other hji]
  · by_cases hji : j = i
    · subst hji
      rw [hself]
      by_cases hz : b.rem j = qty
      · rw [if_pos (by omega)]
      · have hold : ¬ b.Own limit j := fun ho =>
          hj ((hkeep j ((hr.live j).mpr ⟨ho.1, fun hh => hz hh.2⟩)).mpr ho)
        rw [if_neg (by omega), h.other j hold]
        rfl
    · rw [hother j hji]
      refine h.other j (fun ho => hj ?_)
      have hlive : b'.live j := (hr.live j).mpr ⟨ho.1, fun hh => hji hh.1⟩
      exact (hkeep j hlive).mpr ho

end Mirror

/-! ## Rewriting the positions of a level -/

/-- Positions have been rewritten: `off` says how far they are from the queues' now. -/
structure Repositioned (limit : Nat) (b : OrderBook k) (t t' : TrackTable) (off : Nat → Int) :
    Prop where
  mirror : Mirror limit b t'
  off : Off b t' off
  same : SameLevels t t'

/-- **An exact walk** makes the positions of its level exact. -/
theorem recomputePositions_spec (h : Mirror limit b t) (hb : b.Valid) (hoff : Off b t off)
    (s : Side) (p : Int) :
    Repositioned limit b t (t.recomputePositions b s p)
      (fun i => if b.OnSide s p i then 0 else off i) := by
  obtain ⟨L, hL⟩ := h.inv
  obtain ⟨hinv, hsame, hat⟩ := recomputeWalk_spec b (b.levelSlots s p) 0 t hL (hb.nodup s p)
  have hmem : ∀ i v, t.at? i = some v → (i ∈ b.levelSlots s p ↔ b.OnSide s p i) := by
    intro i v hv
    rw [hb.mem]
    exact ⟨fun hh => hh.2, fun hh => ⟨(h.record_of_some hv).1.1, hh⟩⟩
  have hmoved : Moved t (t.recomputePositions b s p)
      (fun i a => if i ∈ b.levelSlots s p then b.ahead i else a) := by
    refine ⟨⟨L, hinv⟩, fun j => ?_, hsame⟩
    rw [recomputePositions, hat j]
    by_cases hj : j ∈ b.levelSlots s p
    · obtain ⟨_, h1, h2⟩ := (hb.mem s p j).mp hj
      rw [if_pos hj, Int.zero_add, OrderBook.ahead, OrderBook.queueOf, h1, h2]
      refine congrArg (fun f => (t.at? j).map (TrackView.mapAhead f)) (funext fun a => ?_)
      rw [if_pos hj]
      rfl
    · rw [if_neg hj]
      cases t.at? j with
      | none => rfl
      | some v => rw [Option.map_some, TrackView.mapAhead, if_neg hj]
  refine ⟨h.moved hmoved, fun i v hv => ?_, hsame⟩
  rw [hmoved.at_eq] at hv
  obtain ⟨u, hu, rfl⟩ := Option.map_eq_some_iff.mp hv
  rw [TrackView.mapAhead]
  by_cases hon : b.OnSide s p i
  · rw [if_pos ((hmem i u hu).mpr hon), if_pos hon, Int.add_zero]
  · rw [if_neg (fun hh => hon ((hmem i u hu).mp hh)), if_neg hon]
    exact hoff i u hu

/-- Where a level has an entry, `subtract_level` takes `take` off its members' positions. -/
theorem subtractLevel_entry (h : Mirror limit b t) (hoff : Off b t off) {s : Side} {p : Int}
    (hent : t.HasEntry s p) (take : Int) (skip : Bool) :
    Repositioned limit b t (t.subtractLevel b s p take skip)
      (fun i => if b.OnSide s p i ∧ ¬ (skip = true ∧ i ∈ t.recentSync) then off i - take
        else off i) := by
  obtain ⟨L, hL⟩ := h.inv
  obtain ⟨x, hx⟩ := hent
  have hc := hL.chain s x hx.1
  have hmem : ∀ i v, t.at? i = some v → (i ∈ L s x ↔ b.OnSide s p i) := by
    intro i v hv
    obtain ⟨hown, hv'⟩ := h.record_of_some hv
    obtain ⟨hlive, hview⟩ := at?_eq_some.mp hv
    have h1 : (t.tracked i).side = (b.order i).side := congrArg TrackView.side (hview.trans hv')
    have h2 : (t.tracked i).priceTicks = (b.order i).priceTicks :=
      congrArg TrackView.priceTicks (hview.trans hv')
    rw [hL.mem_iff hx, h1, h2]
    exact ⟨fun hh => hh.2, fun hh => ⟨hlive, hh⟩⟩
  have hlen : (L s x).length ≤ t.size := by
    have hsub : L s x ⊆ List.range t.size := fun i hi =>
      List.mem_range.mpr (hL.bound i ((hL.mem_iff hx i).mp hi).1).1
    have := (hc.nodup.subperm hsub).length_le
    rwa [List.length_range] at this
  obtain ⟨hinv, hsame, hat⟩ := subtractWalk_spec take skip (L s x) t.size _ _ t
    hL hlen hc.seg hc.ne_null hc.nodup
  have hsub : t.subtractLevel b s p take skip
      = subtractWalk take skip t.size (t.levelMaps s x).head t := by
    rw [subtractLevel, hL.levelFind_eq_some.mpr hx]
  rw [hsub]
  have hmoved : Moved t (subtractWalk take skip t.size (t.levelMaps s x).head t)
      (fun i a => if i ∈ L s x ∧ ¬ (skip = true ∧ i ∈ t.recentSync) then a - take else a) := by
    refine ⟨⟨L, hinv⟩, fun j => ?_, hsame⟩
    rw [hat j]
    by_cases hj : j ∈ L s x ∧ ¬ (skip = true ∧ j ∈ t.recentSync)
    · rw [if_pos hj]
      refine congrArg (fun f => (t.at? j).map (TrackView.mapAhead f)) (funext fun a => ?_)
      rw [if_pos hj]
    · rw [if_neg hj]
      cases t.at? j with
      | none => rfl
      | some v => rw [Option.map_some, TrackView.mapAhead, if_neg hj]
  refine ⟨h.moved hmoved, fun i v hv => ?_, hsame⟩
  rw [hmoved.at_eq] at hv
  obtain ⟨u, hu, rfl⟩ := Option.map_eq_some_iff.mp hv
  have hiff : (i ∈ L s x ∧ ¬ (skip = true ∧ i ∈ t.recentSync))
      ↔ (b.OnSide s p i ∧ ¬ (skip = true ∧ i ∈ t.recentSync)) := by rw [hmem i u hu]
  have := hoff i u hu
  rw [TrackView.mapAhead]
  dsimp only
  by_cases hcond : b.OnSide s p i ∧ ¬ (skip = true ∧ i ∈ t.recentSync)
  · rw [if_pos (hiff.mpr hcond), if_pos hcond]
    omega
  · rw [if_neg (fun hh => hcond (hiff.mp hh)), if_neg hcond]
    exact this

/-- Where a level has none, its positions end up exact. -/
theorem subtractLevel_vacant (h : Mirror limit b t) (hb : b.Valid) (hoff : Off b t off) {s : Side}
    {p : Int} (hent : ¬ t.HasEntry s p) (take : Int) (skip : Bool) :
    Repositioned limit b t (t.subtractLevel b s p take skip)
      (fun i => if b.OnSide s p i then 0 else off i) := by
  have hinv := h.inv
  obtain ⟨L, hL⟩ := hinv
  rw [subtractLevel, hL.levelFind_eq_none.mpr hent]
  dsimp only
  by_cases hf : t.isFallbackLevel s p
  · rw [if_pos hf]
    exact recomputePositions_spec h hb hoff s p
  · rw [if_neg hf]
    -- nobody is tracked at a level that is neither entered nor degraded
    refine ⟨h, hoff.congr (fun i hi => if_neg (fun hon => hf ?_)), SameLevels.refl t⟩
    obtain ⟨v, hv⟩ := Option.ne_none_iff_exists'.mp hi
    obtain ⟨hown, hv'⟩ := h.record_of_some hv
    obtain ⟨hlive, hview⟩ := at?_eq_some.mp hv
    have h1 : (t.tracked i).side = s :=
      (congrArg TrackView.side (hview.trans hv')).trans hon.1
    have h2 : (t.tracked i).priceTicks = p :=
      (congrArg TrackView.priceTicks (hview.trans hv')).trans hon.2
    have := hL.degraded i hlive
    rw [h1, h2] at this
    exact this hent

theorem exists_off (b : OrderBook k) (t : TrackTable) : ∃ off, Off b t off := by
  refine ⟨fun i => (t.tracked i).qtyAhead - b.ahead i, fun i v hv => ?_⟩
  rw [← (at?_eq_some.mp hv).2]
  show (t.tracked i).qtyAhead = b.ahead i + ((t.tracked i).qtyAhead - b.ahead i)
  omega

/-- `subtract_level` changes positions only. -/
theorem subtractLevel_repositioned (h : Mirror limit b t) (hb : b.Valid) (s : Side) (p take : Int)
    (skip : Bool) : ∃ off, Repositioned limit b t (t.subtractLevel b s p take skip) off := by
  obtain ⟨off, hoff⟩ := exists_off b t
  by_cases hent : t.HasEntry s p
  · exact ⟨_, subtractLevel_entry h hoff hent take skip⟩
  · exact ⟨_, subtractLevel_vacant h hb hoff hent take skip⟩

/-! ## Orders that come to rest or lose quantity -/

/-- An external order that rests moves nobody. -/
theorem Off.rested_external (h : Mirror limit b t) (hb : b.Valid) (hoff : Off b t off) {i : Nat}
    {v : OrderView} (hr : OrderBook.Rested b b.levelSlots b' i v) : Off b' t off := by
  intro j u hu
  rw [hr.ahead_other hb (h.record_of_some hu).1.1]
  exact hoff j u hu

/-- **`track_resting`** puts a strategy order behind its whole level. -/
theorem trackResting_spec (h : Mirror limit b t) (hb : b.Valid) (hoff : Off b t off) {i ref : Nat}
    {s : Side} {qty price : Int} (hr : OrderBook.Rested b b.levelSlots b' i ⟨ref, qty, price, s⟩)
    (hown : limit ≤ ref) (hne : ref ≠ 0) :
    Mirror limit b' (t.trackResting b' ref s qty price)
      ∧ Off b' (t.trackResting b' ref s qty price) (fun j => if j = i then 0 else off j)
      ∧ Rested t (t.trackResting b' ref s qty price) i (b'.record i (b'.ahead i)) := by
  have hlive : b'.live i := (hr.live i).mpr (Or.inl rfl)
  have href : (b'.order i).orderRef = ref := congrArg OrderView.orderRef hr.self
  have hidx : (b'.findHandle ref).index = i :=
    (hr.valid.idFind_eq_iff hne (hr.valid.ne_null hlive)).mpr ⟨hlive, href⟩
  have hdead : (t.tracked i).live = false :=
    at?_eq_none.mp (h.other i (fun ho => hr.fresh ho.1))
  have hsize : i < t.size := by
    rw [h.size, ← hr.config.capacity]
    exact hr.valid.lt_capacity hlive
  have hahead : b'.qtyAt s price - qty = b'.ahead i := by
    rw [hr.ahead_self hb, hr.qtyAt hb, if_pos ⟨rfl, rfl⟩]
    dsimp only
    omega
  obtain ⟨L, hL⟩ := h.inv
  have hrest : Rested t (t.trackResting b' ref s qty price) i (b'.record i (b'.ahead i)) := by
    unfold trackResting
    dsimp only
    rw [hidx, hahead]
    have hlink := linkTracked_spec hL s price
      { t.tracked i with
        ref, side := s, priceTicks := price, qtyRemaining := qty, live := true
        qtyAhead := b'.ahead i }
      hdead ⟨hsize, hr.valid.ne_null hlive⟩ ⟨rfl, rfl, rfl, rfl⟩
    have hview : b'.record i (b'.ahead i) = ⟨ref, price, qty, b'.ahead i, s⟩ := by
      rw [OrderBook.record, href, hr.rem_self, hr.side_self, hr.price_self]
    rw [hview]
    exact hlink
  refine ⟨h.rested_own hr hown hrest, fun j v hv => ?_, hrest⟩
  dsimp only
  by_cases hji : j = i
  · rw [hji, hrest.at_self] at hv
    rw [if_pos hji, hji, Int.add_zero, ← Option.some.inj hv]
    rfl
  · rw [hrest.at_other j hji] at hv
    rw [if_neg hji, hr.ahead_other hb (h.record_of_some hv).1.1]
    exact hoff j v hv

/-- What an order loses is what those behind it are too far back by. -/
theorem Off.reduced (hb : b.Valid) (h' : Mirror limit b' t') (hoff : Off b t off) {i : Nat}
    {qty o : Int} (hr : OrderBook.Reduced b b.levelSlots b' i qty)
    (hother : ∀ j, j ≠ i → t'.at? j = t.at? j)
    (hself : ∀ v, t'.at? i = some v → v.qtyAhead = b'.ahead i + o) :
    Off b' t' (fun j => if j = i then o else off j + if i ∈ before j (b.queueOf j) then qty else 0) := by
  intro j v hv
  dsimp only
  by_cases hji : j = i
  · rw [if_pos hji]
    rw [hji] at hv ⊢
    exact hself v hv
  · have hahead := hr.ahead_eq hb (h'.record_of_some hv).1.1
    rw [hother j hji] at hv
    have := hoff j v hv
    rw [if_neg hji]
    omega

end TrackTable

namespace OrderBook

variable {k : Nat} {b : OrderBook k}

/-- The head of a level stands before every other member. -/
theorem Front.before_iff {s : Side} {p : Int} {i : Nat} {l : List Nat} (hf : b.Front s p i l)
    {j : Nat} (hji : j ≠ i) (hb : b.Valid) : i ∈ before j (b.queueOf j) ↔ b.OnSide s p j := by
  constructor
  · intro hm
    obtain ⟨_, h1, h2⟩ := (hb.mem _ _ i).mp (mem_of_mem_before hm)
    exact ⟨h1.symm.trans hf.side, h2.symm.trans hf.price⟩
  · rintro ⟨h1, h2⟩
    rw [queueOf, h1, h2, hf.slots]
    exact mem_before_head (Ne.symm hji)

end OrderBook

namespace TrackTable

variable {k : Nat} {b : OrderBook k} {t : TrackTable} {limit : Nat} {off : Nat → Int}

/-! ## The exact-walk twin -/

theorem recomputeWalk_frame (b : OrderBook k) (l : List Nat) : ∀ (cum : Int) (t : TrackTable),
    (recomputeWalk b l cum t).levelMaps = t.levelMaps
      ∧ (recomputeWalk b l cum t).fallbackLevels = t.fallbackLevels
      ∧ ∀ i, (t.tracked i).live = false → (recomputeWalk b l cum t).tracked i = t.tracked i := by
  induction l with
  | nil => intro cum t; exact ⟨rfl, rfl, fun _ _ => rfl⟩
  | cons a l ih =>
      intro cum t
      rw [recomputeWalk]
      by_cases ha : t.isLive a
      · rw [if_pos ha]
        obtain ⟨h1, h2, h3⟩ := ih (cum + (b.arena.atIndex a).qtyRemaining)
          (t.modify a (fun o => { o with qtyAhead := cum }))
        refine ⟨h1, h2, fun i hi => ?_⟩
        have hia : i ≠ a := fun he => by
          rw [he, ha.2] at hi
          exact Bool.noConfusion hi
        have htr := modify_tracked t a (fun o => { o with qtyAhead := cum }) i
        rw [if_neg hia] at htr
        rw [h3 i (by rw [htr]; exact hi), htr]
      · rw [if_neg ha]
        exact ih _ t

/-- Exact walks over a list of levels. -/
def recomputeLevels (b : OrderBook k) (ps : List (Side × Int)) (t : TrackTable) : TrackTable :=
  ps.foldl (fun t sp => t.recomputePositions b sp.1 sp.2) t

theorem recomputeLevels_spec (h : Mirror limit b t) (hb : b.Valid) (hoff : Off b t off)
    (ps : List (Side × Int)) :
    Repositioned limit b t (t.recomputeLevels b ps)
      (fun i => if ((b.order i).side, (b.order i).priceTicks) ∈ ps then 0 else off i) := by
  induction ps generalizing t off with
  | nil => exact ⟨h, hoff.congr (fun i _ => by simp), SameLevels.refl t⟩
  | cons sp ps ih =>
      obtain ⟨s, p⟩ := sp
      have h1 := recomputePositions_spec h hb hoff s p
      have h2 := ih h1.mirror h1.off
      refine ⟨h2.mirror, h2.off.congr (fun i _ => ?_), h1.same.trans h2.same⟩
      by_cases hin : ((b.order i).side, (b.order i).priceTicks) ∈ ps
      · rw [if_pos hin, if_pos (by simp [hin])]
      · rw [if_neg hin]
        by_cases hon : b.OnSide s p i
        · rw [if_pos hon, if_pos (by simp [hon.1, hon.2])]
        · rw [if_neg hon, if_neg]
          intro hm
          rcases List.mem_cons.mp hm with he | hm
          · exact hon ⟨(Prod.mk.inj he).1, (Prod.mk.inj he).2⟩
          · exact hin hm

theorem recomputeLevels_frame (b : OrderBook k) (ps : List (Side × Int)) (t : TrackTable) :
    (recomputeLevels b ps t).levelMaps = t.levelMaps
      ∧ (recomputeLevels b ps t).fallbackLevels = t.fallbackLevels
      ∧ ∀ i, (t.tracked i).live = false → (recomputeLevels b ps t).tracked i = t.tracked i := by
  induction ps generalizing t with
  | nil => exact ⟨rfl, rfl, fun _ _ => rfl⟩
  | cons sp ps ih =>
      obtain ⟨h1, h2, h3⟩ := recomputeWalk_frame b (b.levelSlots sp.1 sp.2) 0 t
      obtain ⟨h4, h5, h6⟩ := ih (t.recomputePositions b sp.1 sp.2)
      refine ⟨h4.trans h1, h5.trans h2, fun i hi => (h6 i ?_).trans (h3 i hi)⟩
      rw [recomputePositions, h3 i hi]
      exact hi

theorem recomputeLevels_append (b : OrderBook k) (ps qs : List (Side × Int)) (t : TrackTable) :
    recomputeLevels b (ps ++ qs) t = recomputeLevels b qs (recomputeLevels b ps t) :=
  List.foldl_append

/-- The levels of side `s` that `recompute_all_tracked` walks. -/
def walkedLevels (t : TrackTable) (s : Side) : List (Side × Int) :=
  ((List.range kLevelMapSize).filter
      (fun x => (t.levelMaps s x).occupied ∧ 0 < (t.levelMaps s x).count)).map
    (fun x => (s, (t.levelMaps s x).price)) ++ (t.fallbackLevels s).map (fun p => (s, p))

theorem recomputeEntries_eq (b : OrderBook k) (s : Side) (xs : List Nat) (t : TrackTable) :
    xs.foldl (fun t x =>
        let e := t.levelMaps s x
        if e.occupied ∧ 0 < e.count then t.recomputePositions b s e.price else t) t
      = recomputeLevels b ((xs.filter
          (fun x => (t.levelMaps s x).occupied ∧ 0 < (t.levelMaps s x).count)).map
        (fun x => (s, (t.levelMaps s x).price))) t := by
  induction xs generalizing t with
  | nil => rfl
  | cons x xs ih =>
      rw [List.foldl_cons]
      dsimp only
      by_cases hx : (t.levelMaps s x).occupied = true ∧ 0 < (t.levelMaps s x).count
      · rw [if_pos hx, List.filter_cons_of_pos (by simpa using hx), List.map_cons, ih,
          recomputePositions, (recomputeWalk_frame b _ 0 t).1]
        rfl
      · rw [if_neg hx, List.filter_cons_of_neg (by simpa using hx), ih]

theorem recomputeFallback_eq (b : OrderBook k) (s : Side) (ps : List Int) (t : TrackTable) :
    ps.foldl (fun t p => t.recomputePositions b s p) t
      = recomputeLevels b (ps.map (fun p => (s, p))) t := by
  induction ps generalizing t with
  | nil => rfl
  | cons p ps ih => exact ih _

theorem recomputeSide_eq (b : OrderBook k) (s : Side) (t : TrackTable) :
    (t.fallbackLevels s).foldl (fun t p => t.recomputePositions b s p) (recomputeEntries b s t)
      = recomputeLevels b (walkedLevels t s) t := by
  have hent : recomputeEntries b s t = recomputeLevels b (((List.range kLevelMapSize).filter
      (fun x => (t.levelMaps s x).occupied ∧ 0 < (t.levelMaps s x).count)).map
        (fun x => (s, (t.levelMaps s x).price))) t := recomputeEntries_eq b s _ t
  rw [recomputeFallback_eq, walkedLevels, recomputeLevels_append, hent]

theorem recomputeAll_eq (b : OrderBook k) (t : TrackTable) :
    t.recomputeAll b = recomputeLevels b (walkedLevels t .buy ++ walkedLevels t .sell) t := by
  have hwalked : ∀ t' : TrackTable, t'.levelMaps = t.levelMaps → t'.fallbackLevels = t.fallbackLevels →
      walkedLevels t' .sell = walkedLevels t .sell := by
    intro t' h1 h2
    rw [walkedLevels, walkedLevels, h1, h2]
  obtain ⟨h1, h2, _⟩ := recomputeLevels_frame b (walkedLevels t .buy) t
  rw [recomputeLevels_append, ← hwalked _ h1 h2, ← recomputeSide_eq b .sell,
    ← recomputeSide_eq b .buy]
  rfl

/-- Every tracked level is walked. -/
theorem mem_walkedLevels (h : Mirror limit b t) {i : Nat} {v : TrackView} (hv : t.at? i = some v) :
    (v.side, v.priceTicks) ∈ walkedLevels t v.side := by
  obtain ⟨L, hL⟩ := h.inv
  obtain ⟨hlive, rfl⟩ := at?_eq_some.mp hv
  rw [walkedLevels, List.mem_append]
  by_cases hent : t.HasEntry (t.tracked i).side (t.tracked i).priceTicks
  · obtain ⟨x, hx⟩ := hent
    refine Or.inl (List.mem_map.mpr ⟨x, List.mem_filter.mpr ⟨List.mem_range.mpr hx.1, ?_⟩, ?_⟩)
    · have hi : i ∈ L (t.tracked i).side x := (hL.mem_iff hx i).mpr ⟨hlive, rfl, rfl⟩
      have hpos : 0 < (t.levelMaps (t.tracked i).side x).count := by
        rw [hL.count _ x hx.1]
        exact List.length_pos_of_mem hi
      exact decide_eq_true ⟨hx.2.1, hpos⟩
    · exact Prod.ext rfl hx.2.2
  · exact Or.inr (List.mem_map.mpr ⟨_, hL.degraded i hlive hent, rfl⟩)

/-- **The exact-walk twin** makes every position exact. -/
theorem recomputeAll_spec (h : Mirror limit b t) (hb : b.Valid) (hoff : Off b t off) :
    Repositioned limit b t (t.recomputeAll b) (fun _ => 0) := by
  rw [recomputeAll_eq]
  have hspec := recomputeLevels_spec h hb hoff (walkedLevels t .buy ++ walkedLevels t .sell)
  refine ⟨hspec.mirror, hspec.off.congr (fun i hi => ?_), hspec.same⟩
  rw [if_pos]
  have hi' : t.at? i ≠ none := by
    rw [h.at?_iff]
    exact (hspec.mirror.at?_iff i).mp hi
  obtain ⟨v, hv⟩ := Option.ne_none_iff_exists'.mp hi'
  have hm := mem_walkedLevels h hv
  have hrec := (h.record_of_some hv).2
  have h1 : v.side = (b.order i).side := congrArg TrackView.side hrec
  have h2 : v.priceTicks = (b.order i).priceTicks := congrArg TrackView.priceTicks hrec
  rw [h1, h2] at hm
  cases hs : (b.order i).side with
  | buy => rw [hs] at hm; exact List.mem_append_left _ hm
  | sell => rw [hs] at hm; exact List.mem_append_right _ hm

end TrackTable

end Mog
