import Mog.Book.Delta
import Mog.Book.ReferenceBook

/-!
# The order book against the reference

The differential test, for every feed. While the order book answers no message with one of its own
limits, the two books answer alike: the same tick or error, the same deltas, and after it the same
best prices, levels and number of orders.

* `Mirrors`: the maps of the reference hold what the order book holds.
* `Mirrors.apply`: one message keeps it, and is answered alike.
* `differential_iff`: the whole feed.

A feed is compared message by message, and the relation is enough to answer the next one alike
unless that one meets a limit: the order book then refuses what the reference takes, and the two
are out of step. So the test passes as far as no limit is met and fails at the first that is.
-/

namespace Mog

namespace ReferenceBook

variable {k : Nat} {b b' : OrderBook k} {r : ReferenceBook}

/-! ## The maps of the reference -/

/-- Altering one level leaves the others. -/
theorem level_alterLevel (r : ReferenceBook) (s s' : Side) (p p' : Int)
    (f : Option Int → Option Int) :
    (r.alterLevel s p f).level s' p'
      = if s' = s ∧ p' = p then f (r.level s p) else r.level s' p' := by
  cases s <;> cases s'
  · exact (r.bids.find?_alter p p' f).trans (if_congr (by simp) rfl rfl)
  · exact (if_neg (fun h => by cases h.1)).symm
  · exact (if_neg (fun h => by cases h.1)).symm
  · exact (r.asks.find?_alter p p' f).trans (if_congr (by simp) rfl rfl)

@[simp] theorem orders_alterLevel (r : ReferenceBook) (s : Side) (p : Int)
    (f : Option Int → Option Int) : (r.alterLevel s p f).orders = r.orders := by
  cases s <;> rfl

@[simp] theorem level_orders (r : ReferenceBook) (o : OrderedMap Nat (Side × Int × Int) (· < ·))
    (s : Side) (p : Int) : ({ r with orders := o } : ReferenceBook).level s p = r.level s p := by
  cases s <;> rfl

/-- The book once an order has come to rest. -/
def rested (r : ReferenceBook) (v : OrderView) : ReferenceBook :=
  let b := r.alterLevel v.side v.priceTicks fun total => some (total.getD 0 + v.qtyRemaining)
  { b with orders := b.orders.insert v.orderRef (v.side, v.priceTicks, v.qtyRemaining) }

/-- What `add` does with a reference that is not held. -/
theorem add_free (r : ReferenceBook) {ref : Nat} {s : Side} {qty price : Int} (hqty : 0 < qty)
    (hfree : r.orders.find? ref = none) :
    r.add ref s qty price
      = { tick := { priceTicks := price, qty := toU32 qty, kind := .added, side := some s }
          book := r.rested ⟨ref, qty, price, s⟩
          deltas := [{ priceTicks := price, qtyDelta := toI32 qty, side := s }] } := by
  unfold ReferenceBook.add
  rw [if_neg (Int.not_le.mpr hqty), if_neg (not_not.mpr hfree)]
  rfl

/-- The entry of the order in slot `i`. -/
def entryOf (b : OrderBook k) (i : Nat) : Side × Int × Int :=
  ((b.order i).side, (b.order i).priceTicks, b.rem i)

/-- The reference holds the orders of the book, and its totals. -/
structure Mirrors (b : OrderBook k) (r : ReferenceBook) : Prop where
  valid : b.Valid
  held : ∀ i, b.live i → r.orders.find? (b.order i).orderRef = some (entryOf b i)
  live : ∀ ref o, r.orders.find? ref = some o → ∃ i, b.live i ∧ (b.order i).orderRef = ref
  level : ∀ s p, r.level s p = if b.qtyAt s p = 0 then none else some (b.qtyAt s p)

/-- An answer of the reference to what the order book has answered. -/
structure Answers (o : BookResult k) (a : ReferenceResult) : Prop where
  tick : o.tick = a.tick
  deltas : o.deltas = a.deltas
  mirrors : Mirrors o.book a.book

/-- An entry shows an order's view. -/
theorem entryOf_congr {i : Nat} (h : (b'.order i).view = (b.order i).view) :
    entryOf b' i = entryOf b i := by
  obtain ⟨-, hqty, hprice, hside⟩ := Order.view_eq h
  unfold entryOf OrderBook.rem
  rw [hqty, hprice, hside]

/-! ## What a search finds -/

/-- No level of a sound book holds less than nothing. -/
theorem qtyAt_nonneg (h : b.Valid) (s : Side) (p : Int) : 0 ≤ b.qtyAt s p := by
  rw [h.qtyAt_eq]
  refine List.sum_nonneg fun x hx => ?_
  obtain ⟨i, hi, rfl⟩ := List.mem_map.mp hx
  exact Int.le_of_lt (h.rem_pos hi)

namespace Mirrors

theorem init {cfg : BookConfig} (hc : OrderBook.ConfigOk k cfg) :
    Mirrors (OrderBook.init cfg : OrderBook k) {} where
  valid := (OrderBook.init_inv hc).valid
  held := fun _ hi => Bool.noConfusion hi
  live := fun _ _ h => by cases h
  level := by
    intro s p
    rw [(OrderBook.init_inv hc).qtyAt_eq]
    cases s <;> rfl

/-- A level that is not in the maps holds nothing. -/
theorem total (h : Mirrors b r) (s : Side) (p : Int) : (r.level s p).getD 0 = b.qtyAt s p := by
  rw [h.level]
  split
  · rename_i hzero
    exact hzero.symm
  · rfl

/-- A reference without a live order is not in the map. -/
theorem find?_dead (h : Mirrors b r) {ref : Nat}
    (hdead : ∀ i, b.live i → (b.order i).orderRef ≠ ref) : r.orders.find? ref = none := by
  cases hf : r.orders.find? ref with
  | none => rfl
  | some o =>
      obtain ⟨i, hi, href⟩ := h.live ref o hf
      exact absurd href (hdead i hi)

/-- Both books know a reference, or neither does. -/
theorem find?_cases (h : Mirrors b r) {ref : Nat} (href : ref ≠ 0) :
    ((b.idFindSlot ref).handle.index = kNullIndex ∧ r.orders.find? ref = none)
      ∨ ∃ i, (b.idFindSlot ref).handle.index = i ∧ i ≠ kNullIndex ∧ b.live i
        ∧ (b.order i).orderRef = ref ∧ r.orders.find? ref = some (entryOf b i) := by
  by_cases hnull : (b.idFindSlot ref).handle.index = kNullIndex
  · exact Or.inl ⟨hnull, h.find?_dead ((h.valid.idFind_null_iff href).mp hnull)⟩
  · obtain ⟨hi, hname, -⟩ := h.valid.idFind_live href hnull
    refine Or.inr ⟨_, rfl, hnull, hi, hname, ?_⟩
    have hheld := h.held _ hi
    rwa [hname] at hheld

/-! ## An order comes, or loses quantity -/

theorem rested (h : Mirrors b r) {i : Nat} {v : OrderView}
    (hrest : OrderBook.Rested b b.levelSlots b' i v) (hqty : 0 < v.qtyRemaining)
    (hdup : ∀ j, b.live j → (b.order j).orderRef ≠ v.orderRef) : Mirrors b' (r.rested v) := by
  have hself : (b'.order i).orderRef = v.orderRef := congrArg OrderView.orderRef hrest.self
  have hentry : entryOf b' i = (v.side, v.priceTicks, v.qtyRemaining) := by
    unfold entryOf
    rw [hrest.side_self, hrest.price_self, hrest.rem_self]
  have hfind : ∀ ref, (r.rested v).orders.find? ref
      = if ref = v.orderRef then some (entryOf b' i) else r.orders.find? ref := by
    intro ref
    rw [hentry]
    unfold ReferenceBook.rested OrderedMap.insert
    rw [OrderedMap.find?_alter, orders_alterLevel]
  refine ⟨hrest.valid, fun j hj => ?_, fun ref o ho => ?_, fun s p => ?_⟩
  · rw [hfind]
    rcases (hrest.live j).mp hj with rfl | hold
    · rw [if_pos hself]
    · have hji : j ≠ i := fun he => hrest.fresh (he ▸ hold)
      have hview := hrest.frame j hji
      rw [(Order.view_eq hview).1, if_neg (hdup j hold), h.held j hold, entryOf_congr hview]
  · rw [hfind] at ho
    split at ho
    · rename_i heq
      exact ⟨i, (hrest.live i).mpr (Or.inl rfl), hself.trans heq.symm⟩
    · obtain ⟨j, hj, href⟩ := h.live ref o ho
      have hji : j ≠ i := fun he => hrest.fresh (he ▸ hj)
      exact ⟨j, (hrest.live j).mpr (Or.inr hj), (Order.view_eq (hrest.frame j hji)).1.trans href⟩
  · have hnew := hrest.qtyAt h.valid s p
    have hold := qtyAt_nonneg h.valid s p
    unfold ReferenceBook.rested
    rw [level_orders, level_alterLevel, h.total]
    split
    · rename_i hsame
      rw [if_pos hsame] at hnew
      rw [if_neg (by omega), hnew, hsame.1, hsame.2]
    · rename_i hother
      rw [if_neg hother, Int.add_zero] at hnew
      rw [hnew, h.level]

/-- A level that loses what an order on it has lost. -/
theorem level_reduced (h : Mirrors b r) {i : Nat} (hi : b.live i) {qty : Int}
    (hred : OrderBook.Reduced b b.levelSlots b' i qty) (s : Side) (p : Int) :
    (r.applyLevel (b.order i).side (b.order i).priceTicks (-qty)).level s p
      = if b'.qtyAt s p = 0 then none else some (b'.qtyAt s p) := by
  have hnew := hred.qtyAt h.valid hi s p
  unfold applyLevel
  rw [level_alterLevel]
  split
  · rename_i hsame
    rw [if_pos hsame, hsame.1, hsame.2] at hnew
    have hnonneg := h.valid.ahead_nonneg i
    have hahead := h.valid.ahead_add_rem_le hi
    have hpos := h.valid.pos i hi
    rw [h.level, if_neg (by omega), hsame.1, hsame.2, hnew]
    rfl
  · rename_i hother
    rw [if_neg hother, Int.sub_zero] at hnew
    rw [hnew, h.level]

/-- Both books take the same from an order. -/
theorem reduced (h : Mirrors b r) {i : Nat} (hi : b.live i) {qty : Int}
    (hred : OrderBook.Reduced b b.levelSlots b' i qty) :
    Mirrors b' (r.reduce (b.order i).orderRef (entryOf b i) qty).book := by
  have hfind : ∀ ref, (r.reduce (b.order i).orderRef (entryOf b i) qty).book.orders.find? ref
      = if ref = (b.order i).orderRef then
          if qty = b.rem i then none
          else some ((b.order i).side, (b.order i).priceTicks, b.rem i - qty)
        else r.orders.find? ref := by
    intro ref
    unfold reduce applyLevel
    dsimp only
    rw [orders_alterLevel]
    show (if qty = b.rem i then _ else _ : OrderedMap _ _ _).find? ref = _
    by_cases hall : qty = b.rem i
    · rw [if_pos hall, if_pos hall]
      exact OrderedMap.find?_alter _ _ _ _
    · rw [if_neg hall, if_neg hall]
      exact OrderedMap.find?_alter _ _ _ _
  refine ⟨hred.valid, fun j hj => ?_, fun ref o ho => ?_, fun s p => ?_⟩
  · obtain ⟨hold, hkept⟩ := (hred.live j).mp hj
    rw [hfind]
    by_cases hji : j = i
    · subst hji
      have hleft : b.rem j ≠ qty := fun he => hkept ⟨rfl, he⟩
      have hview := hred.self hleft
      have hname : (b'.order j).orderRef = (b.order j).orderRef := congrArg OrderView.orderRef hview
      rw [if_pos hname, if_neg (Ne.symm hleft)]
      unfold entryOf
      rw [hred.rem_self hleft, show (b'.order j).side = _ from congrArg OrderView.side hview,
        show (b'.order j).priceTicks = _ from congrArg OrderView.priceTicks hview]
      rfl
    · have hview := hred.frame j hji
      rw [(Order.view_eq hview).1, if_neg fun he => hji (h.valid.ref_inj hold hi he),
        h.held j hold, entryOf_congr hview]
  · rw [hfind] at ho
    split at ho
    · rename_i href
      split at ho
      · cases ho
      · rename_i hleft
        have hlive : b'.live i := (hred.live i).mpr ⟨hi, fun hh => hleft hh.2.symm⟩
        exact ⟨i, hlive, (hred.kept hlive).1.trans href.symm⟩
    · rename_i hother
      obtain ⟨j, hj, href⟩ := h.live ref o ho
      have hji : j ≠ i := fun he => hother (by rw [← href, he])
      have hlive : b'.live j := (hred.live j).mpr ⟨hj, fun hh => hji hh.1⟩
      exact ⟨j, hlive, (hred.kept hlive).1.trans href⟩
  · unfold reduce
    rw [level_orders]
    exact h.level_reduced hi hred s p

/-! ## One message -/

/-- Both books refuse alike. -/
theorem fail (h : Mirrors b r) (e : BookError) : Answers (b.fail e) (r.fail e) := ⟨rfl, rfl, h⟩

/-- The order book has answered with one of its own limits. -/
def Limited (o : BookResult k) : Prop := ∃ e, o.tick = tickError e ∧ e.Limit

/-- Where the order book has room, both add. -/
theorem rests (h : Mirrors b r) {ref : Nat} {s : Side} {qty price : Int}
    (ha : b.Addable ref s qty price) : Answers (b.add ref s qty price) (r.add ref s qty price) := by
  have hdup := (h.valid.idFind_null_iff ha.named).mp ha.free
  obtain ⟨⟨i, hrest⟩, htick, hdeltas⟩ :=
    OrderBook.add_rests h.valid ha.named ha.pos ha.band ha.page hdup ha.room
  rw [add_free r ha.pos (h.find?_dead hdup)]
  exact ⟨htick, hdeltas, h.rested hrest ha.pos hdup⟩

/-- **Adding answers alike**, unless the order book meets a limit of its own. -/
theorem add (h : Mirrors b r) {ref : Nat} {s : Side} {qty price : Int}
    (hl : ¬ Limited (b.add ref s qty price)) :
    Answers (b.add ref s qty price) (r.add ref s qty price) := by
  by_cases ha : b.Addable ref s qty price
  · exact h.rests ha
  have hlimit : ∀ e, e.Limit → b.add ref s qty price ≠ b.fail e :=
    fun e he heq => hl ⟨e, by rw [heq]; rfl, he⟩
  by_cases h1 : ref = 0
  · exact absurd (by rw [OrderBook.add, if_pos h1]) (hlimit .zeroRef trivial)
  by_cases h2 : qty ≤ 0
  · rw [OrderBook.add, if_neg h1, if_pos h2, ReferenceBook.add, if_pos h2]
    exact h.fail _
  by_cases h3 : b.inBand price
  swap
  · exact absurd (by rw [OrderBook.add, if_neg h1, if_neg h2, if_pos h3])
      (hlimit .outOfBand trivial)
  by_cases h4 : (b.ladderFor s).claimable price
  swap
  · exact absurd (by rw [OrderBook.add, if_neg h1, if_neg h2, if_neg (not_not.mpr h3), if_pos h4])
      (hlimit .pageExhausted trivial)
  rcases h.find?_cases h1 with ⟨hnull, -⟩ | ⟨i, hidx, hne, -, -, hfound⟩
  · -- nothing is left but a full arena
    have hfull : b.add ref s qty price = b.fail .arenaFull := by
      obtain ⟨fl, hfl⟩ := h.valid.arena
      have hroom : ¬ b.arena.liveCount < b.arena.capacity :=
        fun hroom => ha ⟨h1, Int.not_le.mp h2, h3, h4, hnull, hroom⟩
      rw [OrderBook.add, if_neg h1, if_neg h2, if_neg (not_not.mpr h3), if_neg (not_not.mpr h4)]
      dsimp only
      have hle := hfl.liveCount_le
      rw [if_neg (not_not.mpr hnull), if_pos]
      rw [Arena.acquire_full hfl (by omega)]
      rfl
    exact absurd hfull (hlimit .arenaFull trivial)
  · rw [OrderBook.add, if_neg h1, if_neg h2, if_neg (not_not.mpr h3), if_neg (not_not.mpr h4)]
    dsimp only
    rw [if_pos (by rw [hidx]; exact hne), ReferenceBook.add, if_neg h2,
      if_pos (by rw [hfound]; exact Option.some_ne_none _)]
    exact h.fail _

/-- Executing answers alike. -/
theorem execute (h : Mirrors b r) {ref : Nat} (href : ref ≠ 0) (qty : Int) :
    Answers (b.execute ref qty) (r.execute ref qty) := by
  by_cases h1 : qty ≤ 0
  · rw [OrderBook.execute, if_pos h1, ReferenceBook.execute, if_pos h1]
    exact h.fail _
  rcases h.find?_cases href with ⟨hnull, hfound⟩ | ⟨i, hidx, hne, hi, rfl, hfound⟩
  · rw [OrderBook.execute, if_neg h1]
    dsimp only
    rw [if_pos hnull, ReferenceBook.execute, if_neg h1, hfound]
    exact h.fail _
  rw [ReferenceBook.execute, if_neg h1, hfound]
  dsimp only
  show Answers _ (if b.rem i < qty then _ else _)
  by_cases h2 : b.rem i < qty
  · rw [if_pos h2, OrderBook.execute, if_neg h1]
    dsimp only
    rw [if_neg (by rw [hidx]; exact hne), if_pos (by rw [Arena.deref, hidx]; exact h2)]
    exact h.fail _
  · rw [if_neg h2]
    have hle := Int.not_lt.mp h2
    obtain ⟨hred, htick, hdeltas⟩ := OrderBook.execute_spec h.valid hi (Int.not_le.mp h1) hle
    refine ⟨?_, hdeltas, h.reduced hi hred⟩
    rw [htick]
    unfold reduce entryOf
    simp only [eq_comm]

/-- Removing answers alike. -/
theorem remove (h : Mirrors b r) {ref : Nat} (href : ref ≠ 0) :
    Answers (b.remove ref) (r.remove ref) := by
  rcases h.find?_cases href with ⟨hnull, hfound⟩ | ⟨i, hidx, hne, hi, rfl, hfound⟩
  · rw [OrderBook.remove, if_pos hnull, ReferenceBook.remove, hfound]
    exact h.fail _
  · obtain ⟨hred, htick, hdeltas⟩ := OrderBook.remove_spec h.valid hi
    rw [ReferenceBook.remove, hfound]
    refine ⟨?_, hdeltas, h.reduced hi hred⟩
    rw [htick]
    unfold reduce entryOf
    simp only [if_pos]

/-- Replacing answers alike, within the limits. -/
theorem replace (h : Mirrors b r) {origRef newRef : Nat} (horig : origRef ≠ 0) (hnew : newRef ≠ 0)
    {qty price : Int} (hl : ¬ Limited (b.replace origRef newRef qty price)) :
    Answers (b.replace origRef newRef qty price) (r.replace origRef newRef qty price) := by
  have hlimit : ∀ e, e.Limit → b.replace origRef newRef qty price ≠ b.fail e :=
    fun e he heq => hl ⟨e, by rw [heq]; rfl, he⟩
  by_cases h1 : qty ≤ 0
  · rw [OrderBook.replace, if_pos h1, ReferenceBook.replace, if_pos h1]
    exact h.fail _
  by_cases h2 : b.inBand price
  swap
  · exact absurd (by rw [OrderBook.replace, if_neg h1, if_pos h2]) (hlimit .outOfBand trivial)
  rcases h.find?_cases horig with ⟨hnull, hfound⟩ | ⟨i, hidx, hne, hi, rfl, hfound⟩
  · rw [OrderBook.replace, if_neg h1, if_neg (not_not.mpr h2)]
    dsimp only
    rw [if_pos (show (b.idFind origRef).index = kNullIndex from hnull), ReferenceBook.replace,
      if_neg h1, hfound]
    exact h.fail _
  have hfn : ¬ (b.idFind (b.order i).orderRef).index = kNullIndex := by
    rw [OrderBook.idFind, hidx]
    exact hne
  have hside : (b.arena.deref (b.idFind (b.order i).orderRef)).side = (b.order i).side := by
    rw [Arena.deref, OrderBook.idFind, hidx]
    rfl
  by_cases h3 : (b.ladderFor (b.order i).side).claimable price
  swap
  · refine absurd ?_ (hlimit .pageExhausted trivial)
    rw [OrderBook.replace, if_neg h1, if_neg (not_not.mpr h2)]
    dsimp only
    rw [if_neg hfn, hside, if_pos h3]
  have hdup : (b.idFind newRef).index ≠ kNullIndex ↔ r.orders.find? newRef ≠ none := by
    rcases h.find?_cases hnew with ⟨hnull, hnone⟩ | ⟨j, hj, hjn, -, -, hsome⟩
    · exact iff_of_false (not_not.mpr hnull) (not_not.mpr hnone)
    · exact iff_of_true (by rw [OrderBook.idFind, hj]; exact hjn)
        (by rw [hsome]; exact Option.some_ne_none _)
  rw [ReferenceBook.replace, if_neg h1, hfound]
  dsimp only
  by_cases h4 : (b.order i).orderRef ≠ newRef ∧ (b.idFind newRef).index ≠ kNullIndex
  · rw [if_pos ⟨h4.1, hdup.mp h4.2⟩, OrderBook.replace, if_neg h1, if_neg (not_not.mpr h2)]
    dsimp only
    rw [if_neg hfn, hside, if_neg (not_not.mpr h3), if_pos h4]
    exact h.fail _
  rw [if_neg fun hh => h4 ⟨hh.1, hdup.mpr hh.2⟩]
  have hrep : b.Replaceable i newRef qty price := by
    refine ⟨Int.not_le.mp h1, h2, h3, ?_⟩
    by_cases he : newRef = (b.order i).orderRef
    · exact Or.inl he
    · exact Or.inr (not_not.mp fun hn => h4 ⟨Ne.symm he, hn⟩)
  have hfree : newRef = (b.order i).orderRef ∨ ∀ j, b.live j → (b.order j).orderRef ≠ newRef :=
    hrep.free.imp id fun hnull => (h.valid.idFind_null_iff hnew).mp hnull
  obtain ⟨b1, hred, rfl, ⟨j, hrest⟩, htick, hdeltas⟩ :=
    OrderBook.replace_spec h.valid hi hnew hrep.pos hrep.band hrep.page hfree
  rw [hred.inv.queues] at hrest
  -- the reference removes the order and adds its replacement
  have hgone := h.reduced hi hred
  have hdead := (hred.inv.idFind_null_iff hnew).mp (hrep.addable h.valid hi hnew hred).free
  rw [show (entryOf b i).2.2 = b.rem i from rfl, add_free _ hrep.pos (hgone.find?_dead hdead)]
  exact ⟨htick, hdeltas, hgone.rested hrest hrep.pos hdead⟩

/-- **Every message is answered alike**, within the limits. -/
theorem apply (h : Mirrors b r) {m : Message} (hm : m.Named) (hl : ¬ Limited (b.apply m)) :
    Answers (b.apply m) (r.apply m) := by
  cases m with
  | addOrder m => exact h.add hl
  | addOrderAttribution m => exact h.add hl
  | orderExecuted m => exact h.execute hm _
  | orderExecutedWithPrice m => exact h.execute hm _
  | orderCancel m => exact h.execute hm _
  | orderDelete m => exact h.remove hm
  | orderReplace m => exact h.replace hm.1 hm.2 hl

end Mirrors

/-! ## What the two books show -/

/-- The first of a sorted side is its best price. -/
theorem first_best {s : Side} {lt : Int → Int → Prop} [IsStrictTotalOrder Int lt]
    (hlt : ∀ p p', lt p p' → better s p p') (m : OrderedMap Int Int lt)
    {occ : Int → Prop} (hocc : ∀ p, m.find? p = none ↔ ¬ occ p) {best : Int}
    (hbest : IsBest s occ best) :
    (match m.first? with
      | some e => e.1
      | none => kNoTick) = best := by
  rcases hbest with ⟨rfl, hnone⟩ | ⟨-, hheld, hgood⟩
  · rw [m.first?_eq_none.mpr fun p => (hocc p).mpr (hnone p)]
  · cases hf : m.first? with
    | none => exact absurd hheld ((hocc best).mp (m.first?_eq_none.mp hf best))
    | some e =>
        obtain ⟨hfound, hfirst⟩ := m.first?_eq_some hf
        have hsome : m.find? best ≠ none := fun hn => (hocc best).mp hn hheld
        obtain ⟨t, ht⟩ := Option.ne_none_iff_exists'.mp hsome
        have he : occ e.1 := by
          by_contra hempty
          rw [(hocc e.1).mpr hempty] at hfound
          cases hfound
        rcases hfirst best t ht with heq | hbefore
        · exact heq.symm
        · exact absurd (hgood e.1 he) (hlt _ _ hbefore)

/-- `for_each_level` visits no tick twice. -/
theorem levels_nodup (l : PriceLadder k) : (l.levels.map Prod.fst).Nodup := by
  have hvisit : ∀ d, ∀ e ∈ (if l.dir d = kNoPage then []
      else (List.range (kPageTicks k)).filterMap fun o =>
        let lv := (l.pages (l.dir d)).levels o
        if lv.qtyTotal ≠ 0 then some (l.tickOf d o, lv) else none), l.dirIndex e.1 = d := by
    intro d e he
    split at he
    · exact absurd he List.not_mem_nil
    · obtain ⟨o, ho, heq⟩ := List.mem_filterMap.mp he
      dsimp only at heq
      split at heq
      · cases heq
        exact l.dirIndex_tickOf (List.mem_range.mp ho)
      · cases heq
  rw [List.Nodup, List.pairwise_map, PriceLadder.levels, List.pairwise_flatMap]
  refine ⟨fun d _ => ?_, ?_⟩
  · split
    · exact .nil
    · rw [List.pairwise_filterMap]
      refine List.Pairwise.imp_of_mem ?_ List.nodup_range
      intro o o' ho ho' hne e he e' he'
      dsimp only at he he'
      split at he
      · split at he'
        · cases he
          cases he'
          intro heq
          have h1 := l.offsetOf_tickOf (d := d) (List.mem_range.mp ho)
          have h2 := l.offsetOf_tickOf (d := d) (List.mem_range.mp ho')
          exact hne (h1.symm.trans ((congrArg l.offsetOf heq).trans h2))
        · cases he'
      · cases he
  · refine List.nodup_range.imp fun {d d'} hne e he e' he' heq => ?_
    exact hne ((hvisit d e he).symm.trans ((congrArg l.dirIndex heq).trans (hvisit d' e' he')))

/-- The maps hold the ladder's levels, in another order. -/
theorem levels_perm {l : PriceLadder k} (h : PriceLadder.LadderInv l) {lt : Int → Int → Prop}
    [IsStrictTotalOrder Int lt] (m : OrderedMap Int Int lt)
    (hm : ∀ p, m.find? p
      = if (l.levelAt p).qtyTotal = 0 then none else some (l.levelAt p).qtyTotal) :
    (l.levels.map fun e => (e.1, e.2.qtyTotal)).Perm m.entries := by
  refine m.entries_perm (List.Nodup.of_map Prod.fst ?_) fun p t => ?_
  · rw [List.map_map]
    exact levels_nodup l
  · rw [hm]
    constructor
    · intro hmem
      obtain ⟨⟨p', lv⟩, hlv, heq⟩ := List.mem_map.mp hmem
      cases heq
      obtain ⟨hocc, rfl⟩ := (PriceLadder.mem_levels h).mp hlv
      exact if_neg hocc
    · intro hsome
      split at hsome
      · cases hsome
      · rename_i hocc
        cases hsome
        exact List.mem_map.mpr ⟨(p, l.levelAt p), (PriceLadder.mem_levels h).mpr ⟨hocc, rfl⟩, rfl⟩

namespace Mirrors

/-- The book's best price is the best that its total shows. -/
theorem best (h : Mirrors b r) (s : Side) : IsBest s (fun p => b.qtyAt s p ≠ 0) (b.best s) :=
  (h.valid.best s).congr fun p => by rw [h.valid.qtyAt_eq, h.valid.sum_pos_iff]

theorem level_eq_none (h : Mirrors b r) (s : Side) (p : Int) :
    r.level s p = none ↔ ¬ b.qtyAt s p ≠ 0 := by
  rw [h.level, not_not]
  split <;> simp_all

theorem bestBid (h : Mirrors b r) : r.bestBid = b.best .buy :=
  first_best (fun _ _ hlt hle => Int.not_le.mpr hlt hle) r.bids (h.level_eq_none .buy)
    (h.best .buy)

theorem bestAsk (h : Mirrors b r) : r.bestAsk = b.best .sell :=
  first_best (fun _ _ hlt hle => Int.not_le.mpr hlt hle) r.asks (h.level_eq_none .sell)
    (h.best .sell)

theorem qtyAt_levelAt (h : b.Valid) (s : Side) (p : Int) :
    b.qtyAt s p = ((b.ladderFor s).levelAt p).qtyTotal :=
  (h.qtyAt_eq s p).trans (h.level s p).total.symm

/-- Both books list the same levels. -/
theorem forEachL2 (h : Mirrors b r) : b.forEachL2.Perm r.forEachL2 := by
  have hlevel := fun s p => (h.level s p).trans (by rw [qtyAt_levelAt h.valid])
  have hbids := levels_perm (h.valid.ladder .buy) r.bids (hlevel .buy)
  have hasks := levels_perm (h.valid.ladder .sell) r.asks (hlevel .sell)
  have hmap := (hbids.map fun e => (Side.buy, e.1, e.2)).append
    (hasks.map fun e => (Side.sell, e.1, e.2))
  rwa [List.map_map, List.map_map] at hmap

/-- Both books count as many orders. -/
theorem liveOrders (h : Mirrors b r) : r.liveOrders = b.liveOrders := by
  obtain ⟨fl, hfl⟩ := h.valid.arena
  have hperm := r.orders.entries_perm
    (l := b.arena.liveSlots.toList.map fun i => ((b.order i).orderRef, entryOf b i)) ?_ ?_
  · show r.orders.entries.length = b.arena.liveCount
    rw [← hperm.length_eq, List.length_map, Finset.length_toList, hfl.card_liveSlots]
  · refine b.arena.liveSlots.nodup_toList.map_on fun i hi j hj heq => ?_
    have hlive := fun x hx => (hfl.mem_liveSlots (i := x)).mp (Finset.mem_toList.mp hx)
    exact h.valid.ref_inj (hlive i hi) (hlive j hj) (congrArg Prod.fst heq)
  · intro ref o
    constructor
    · intro hmem
      obtain ⟨i, hi, heq⟩ := List.mem_map.mp hmem
      cases heq
      exact h.held i (hfl.mem_liveSlots.mp (Finset.mem_toList.mp hi))
    · intro ho
      obtain ⟨i, hi, rfl⟩ := h.live ref o ho
      have ho' : o = entryOf b i := Option.some.inj (ho.symm.trans (h.held i hi))
      rw [ho']
      exact List.mem_map.mpr ⟨i, Finset.mem_toList.mpr (hfl.mem_liveSlots.mpr hi), rfl⟩

end Mirrors

/-! ## The differential test -/

/-- What the test compares after a message. -/
structure SameAnswer (o : BookResult k) (a : ReferenceResult) : Prop where
  tick : o.tick = a.tick
  deltas : o.deltas = a.deltas
  bestBid : o.book.best .buy = a.book.bestBid
  bestAsk : o.book.best .sell = a.book.bestAsk
  l2 : o.book.forEachL2.Perm a.book.forEachL2
  liveOrders : o.book.liveOrders = a.book.liveOrders

theorem Answers.same {o : BookResult k} {a : ReferenceResult} (h : Answers o a) :
    SameAnswer o a where
  tick := h.tick
  deltas := h.deltas
  bestBid := h.mirrors.bestBid.symm
  bestAsk := h.mirrors.bestAsk.symm
  l2 := h.mirrors.forEachL2
  liveOrders := h.mirrors.liveOrders.symm

theorem tickError_inj {e e' : BookError} (h : tickError e = tickError e') : e = e' :=
  Option.some.inj (congrArg BookTick.error h)

/-- The reference never answers with a limit. -/
theorem unlimited (r : ReferenceBook) (m : Message) {e : BookError}
    (h : (r.apply m).tick = tickError e) : ¬ e.Limit := by
  have hfail : ∀ e', (r.fail e').tick = tickError e → e' = e := fun e' => tickError_inj
  have hadd : ∀ ref s qty price, (r.add ref s qty price).tick = tickError e → ¬ e.Limit := by
    intro ref s qty price h
    unfold add at h
    split at h
    · exact hfail _ h ▸ id
    · split at h
      · exact hfail _ h ▸ id
      · exact absurd (congrArg BookTick.kind h) TickKind.noConfusion
  have hreduce : ∀ ref o qty, (r.reduce ref o qty).tick ≠ tickError e := by
    intro ref o qty h
    have hkind := congrArg BookTick.kind h
    unfold reduce at hkind
    dsimp only at hkind
    split at hkind <;> cases hkind
  have hexecute : ∀ ref qty, (r.execute ref qty).tick = tickError e → ¬ e.Limit := by
    intro ref qty h
    unfold execute at h
    split at h
    · exact hfail _ h ▸ id
    · split at h
      · exact hfail _ h ▸ id
      · split at h
        · exact hfail _ h ▸ id
        · exact absurd h (hreduce _ _ _)
  cases m with
  | addOrder m => exact hadd _ _ _ _ h
  | addOrderAttribution m => exact hadd _ _ _ _ h
  | orderExecuted m => exact hexecute _ _ h
  | orderExecutedWithPrice m => exact hexecute _ _ h
  | orderCancel m => exact hexecute _ _ h
  | orderDelete m =>
      unfold apply remove at h
      dsimp only at h
      split at h
      · exact hfail _ h ▸ id
      · exact absurd h (hreduce _ _ _)
  | orderReplace m =>
      unfold apply replace at h
      dsimp only at h
      split at h
      · exact hfail _ h ▸ id
      · split at h
        · exact hfail _ h ▸ id
        · split at h
          · exact hfail _ h ▸ id
          · exact absurd (congrArg BookTick.kind h) TickKind.noConfusion

/-- Where all answers agree, the order book has met no limit. -/
theorem answers_unlimited {feed : List Message} : ∀ {b : OrderBook k} {r : ReferenceBook},
    List.Forall₂ SameAnswer (b.answers feed) (r.answers feed) →
    ∀ o ∈ b.answers feed, ¬ Mirrors.Limited o := by
  induction feed with
  | nil => exact fun _ o ho => absurd ho List.not_mem_nil
  | cons m feed ih =>
      intro b r h o ho
      obtain ⟨hsame, hrest⟩ := List.forall₂_cons.mp h
      rcases List.mem_cons.mp ho with rfl | ho
      · rintro ⟨e, he, hlimit⟩
        exact r.unlimited m (hsame.tick.symm.trans he) hlimit
      · exact ih hrest o ho

/-- **A feed is answered alike** as long as no limit is met. -/
theorem Mirrors.answers {feed : List Message} : ∀ {b : OrderBook k} {r : ReferenceBook},
    Mirrors b r → (∀ m ∈ feed, m.Named) → (∀ o ∈ b.answers feed, ¬ Mirrors.Limited o) →
    List.Forall₂ SameAnswer (b.answers feed) (r.answers feed) := by
  induction feed with
  | nil => exact fun _ _ _ => .nil
  | cons m feed ih =>
      intro b r h hm hl
      have ha := h.apply (hm m List.mem_cons_self) (hl _ List.mem_cons_self)
      exact .cons ha.same (ih ha.mirrors (fun m' hm' => hm m' (List.mem_cons_of_mem m hm'))
        fun o ho => hl o (List.mem_cons_of_mem _ ho))

/-- **The differential test passes on a feed exactly when** the order book never reaches a limit of
its own: the band, a full arena, the pages of a side, a reference of zero. -/
theorem differential_iff {cfg : BookConfig} (hc : OrderBook.ConfigOk k cfg) (feed : List Message)
    (hm : ∀ m ∈ feed, m.Named) :
    List.Forall₂ SameAnswer ((OrderBook.init cfg : OrderBook k).answers feed)
        (({} : ReferenceBook).answers feed)
      ↔ ∀ o ∈ (OrderBook.init cfg : OrderBook k).answers feed, ∀ e, o.tick = tickError e →
        ¬ e.Limit := by
  constructor
  · exact fun h o ho e he hlimit => answers_unlimited h o ho ⟨e, he, hlimit⟩
  · refine fun h => (Mirrors.init hc).answers hm fun o ho => ?_
    rintro ⟨e, he, hlimit⟩
    exact h o ho e he hlimit

/-- A bid comes to rest and is replaced at a better price. -/
theorem differential_iff_replaced :
    List.Forall₂ SameAnswer
      ((OrderBook.init ⟨2, ⟨0, 16, 1⟩⟩ : OrderBook 4).answers
        [.addOrder ⟨⟨1, 1, 0⟩, 7, .buy, 100, [], 3⟩, .orderReplace ⟨⟨1, 2, 0⟩, 7, 8, 60, 5⟩])
      (({} : ReferenceBook).answers
        [.addOrder ⟨⟨1, 1, 0⟩, 7, .buy, 100, [], 3⟩, .orderReplace ⟨⟨1, 2, 0⟩, 7, 8, 60, 5⟩]) := by
  refine (differential_iff ⟨by decide, by decide, by decide, by decide, by decide⟩ _ ?_).mpr ?_
  · intro m hm
    rcases List.mem_pair.mp hm with rfl | rfl
    · exact (by decide : (7 : Nat) ≠ 0)
    · exact (by decide : (7 : Nat) ≠ 0 ∧ (8 : Nat) ≠ 0)
  · intro o ho e he
    have hok : ∀ t ∈ ((OrderBook.init ⟨2, ⟨0, 16, 1⟩⟩ : OrderBook 4).answers
        [.addOrder ⟨⟨1, 1, 0⟩, 7, .buy, 100, [], 3⟩,
          .orderReplace ⟨⟨1, 2, 0⟩, 7, 8, 60, 5⟩]).map BookResult.tick,
        t.kind ≠ .tickError := by decide +kernel
    exact absurd (congrArg BookTick.kind he) (hok _ (List.mem_map_of_mem ho))

end ReferenceBook

end Mog
