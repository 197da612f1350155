import Mog.Book.Refine
import Mog.Spec.BookMatchingProof
import Mog.Spec.ModelCheck

/-!
# The order book implements the specification

Every action of the driver is a run of actions of the specification on what the book shows. The
invariants of the specification, proved for all its states, are then those of every book that the
search can come to, and the check of the driver never fails.

`Tracks` relates a book to a state of the specification through the abstract book of queues: the
first is refined, the second is what the queues show. An action of the driver is a loop of
calls, each round of which is one step of the specification or the same one continued.
-/

namespace Mog

open BookMatching

namespace ModelCheck

variable {k : Nat} {cfg : BookConfig} {B : Bounds} {b : OrderBook k} {q : Side → Int → List Nat}
variable {m m' : FifoBook}

/-! ## The abstract book as a state of the specification -/

/-- A resting order as the specification writes it. -/
def entryOf (r : Resting) : BookMatching.Entry Nat := ⟨r.ref, r.remaining⟩

/-- The specification's state that a book of queues shows. -/
def specOf (m : FifoBook) : BookMatching Nat where
  book := fun s p => (m.queue s p).map entryOf
  agg := fun s p => totalOf (m.queue s p)

/-- The driver's reading of the book is that state. -/
theorem shown_eq (h : OrderBook.Refines cfg b q m) : shown b = specOf m := by
  have hbook : (shown b).book = (specOf m).book := by
    funext s p
    show (b.levelSlots s p).map _ = (m.queue s p).map entryOf
    rw [← h.levelSlots_eq, List.map_map]
    rfl
  have hagg : (shown b).agg = (specOf m).agg := by
    funext s p
    exact h.qtyAt_eq s p
  unfold shown specOf at *
  rw [BookMatching.mk.injEq]
  exact ⟨hbook, hagg⟩

theorem specOf_setLevel (m : FifoBook) (s : Side) (p : Int) (l : List Resting) :
    specOf (m.setLevel s p l)
      = ⟨except (specOf m).book s p (l.map entryOf), except (specOf m).agg s p (totalOf l)⟩ := by
  unfold specOf FifoBook.setLevel except
  rw [BookMatching.mk.injEq]
  constructor <;>
  · funext s' p'
    dsimp only
    split <;> rfl

/-- The book's totals are the specification's sums. -/
theorem totalOf_eq (l : List Resting) : totalOf l = sumSeq (l.map entryOf) := by
  unfold totalOf sumSeq
  rw [List.map_map]
  rfl

/-- The levels that are set to what they hold are as they were. -/
theorem specOf_setLevel_self (m : FifoBook) (s : Side) (p : Int) :
    specOf (m.setLevel s p (m.queue s p)) = specOf m := by
  unfold specOf FifoBook.setLevel
  rw [BookMatching.mk.injEq]
  constructor <;>
  · funext s' p'
    dsimp only
    split
    · rename_i hsame
      rw [hsame.1, hsame.2]
    · rfl

/-! ## The three ways the abstract book changes -/

/-- To queue up an order is to rest. -/
theorem specOf_pushed (m : FifoBook) (s : Side) (p : Int) (ref : Nat) (qty : Int) :
    specOf (m.pushed k cfg s p { ref, remaining := qty }) = (specOf m).rest ref s p qty := by
  have hqueue : specOf (m.pushed k cfg s p { ref, remaining := qty })
      = specOf (m.setLevel s p (m.queue s p ++ [{ ref, remaining := qty }])) := rfl
  rw [hqueue, specOf_setLevel, List.map_append, totalOf, List.map_append, List.sum_append]
  simp only [List.map_cons, List.map_nil, List.sum_singleton]
  rfl

/-- Taking all of an order is erasing it, where no other of the level has its reference. -/
theorem takeFrom_all {l : List Resting} {r : Resting} (hnd : (l.map Resting.ref).Nodup)
    (hr : r ∈ l) : ∃ i, l[i]? = some r ∧ takeFrom r.ref r.remaining l = l.eraseIdx i := by
  induction l with
  | nil => exact absurd hr List.not_mem_nil
  | cons a l ih =>
      rw [List.map_cons, List.nodup_cons] at hnd
      by_cases har : a.ref = r.ref
      · have heq : a = r := by
          rcases List.mem_cons.mp hr with rfl | hmem
          · rfl
          · refine absurd ?_ hnd.1
            rw [har]
            exact List.mem_map.mpr ⟨r, hmem, rfl⟩
        refine ⟨0, by rw [heq]; rfl, ?_⟩
        rw [takeFrom, if_pos har, heq, if_pos rfl, List.eraseIdx_zero, List.tail_cons]
      · have hmem : r ∈ l := by
          rcases List.mem_cons.mp hr with rfl | hmem
          · exact absurd rfl har
          · exact hmem
        obtain ⟨i, hi, htake⟩ := ih hnd.2 hmem
        refine ⟨i + 1, hi, ?_⟩
        rw [takeFrom, if_neg har, htake, List.eraseIdx_cons_succ]

/-- To remove an order is to cancel it where it stands. -/
theorem specOf_removed {s : Side} {p : Int} {r : Resting}
    (hnd : ((m.queue s p).map Resting.ref).Nodup) (hr : r ∈ m.queue s p) :
    ∃ i, 1 ≤ i ∧ ((specOf m).book s p)[i - 1]? = some (entryOf r)
      ∧ specOf (m.setLevel s p (takeFrom r.ref r.remaining (m.queue s p)))
        = (specOf m).cancelIdx s p i (entryOf r) := by
  obtain ⟨i, hi, htake⟩ := takeFrom_all hnd hr
  have hget : ((m.queue s p).map entryOf)[i]? = some (entryOf r) := by
    rw [List.getElem?_map, hi]
    rfl
  have hlen : i + 1 ≤ ((m.queue s p).map entryOf).length :=
    (List.getElem?_eq_some_iff.mp hget).1
  refine ⟨i + 1, Nat.le_add_left 1 i, hget, ?_⟩
  rw [htake, specOf_setLevel, totalOf_eq]
  unfold BookMatching.cancelIdx
  rw [show (specOf m).book s p = (m.queue s p).map entryOf from rfl,
    removeAt_eq (Nat.le_add_left 1 i), Nat.add_sub_cancel, ← List.eraseIdx_map,
    sumSeq_eraseIdx hget, ← totalOf_eq]
  rfl

/-- To take from the front is to deplete. -/
theorem specOf_front {s : Side} {p : Int} {r : Resting} {l : List Resting}
    (hq : m.queue s p = r :: l) (qty : Int) :
    specOf (m.setLevel s p (takeFrom r.ref (min qty r.remaining) (m.queue s p)))
      = (specOf m).deplete s p qty (entryOf r) (l.map entryOf) := by
  rw [hq, takeFrom, if_pos rfl, specOf_setLevel]
  unfold BookMatching.deplete
  have hagg : (specOf m).agg s p = r.remaining + totalOf l := by
    show totalOf (m.queue s p) = _
    rw [hq, totalOf, List.map_cons, List.sum_cons]
    rfl
  dsimp only
  rw [hagg]
  by_cases hall : min qty r.remaining = r.remaining
  · rw [if_pos hall.symm, show min qty (entryOf r).qty = r.remaining from hall,
      if_pos (show r.remaining = (entryOf r).qty from rfl)]
    congr 2
    show totalOf l = r.remaining + totalOf l - r.remaining
    omega
  · rw [if_neg fun h => hall h.symm,
      if_neg (show ¬ min qty (entryOf r).qty = (entryOf r).qty from hall)]
    congr 2
    show totalOf ({ r with remaining := r.remaining - min qty r.remaining } :: l)
      = r.remaining + totalOf l - min qty r.remaining
    rw [totalOf, List.map_cons, List.sum_cons]
    show r.remaining - min qty r.remaining + totalOf l = _
    omega

/-! ## Taking from the head -/

/-- What the book says of the order at the head of a level. -/
theorem head_shown (h : OrderBook.Refines cfg b q m) {s : Side} {p : Int} {r : Resting}
    {l : List Resting} (hq : m.queue s p = r :: l) :
    b.frontRef s p = r.ref ∧ r.ref ≠ 0 ∧ b.remainingOf r.ref = r.remaining := by
  have hfront := h.frontRef_eq s p
  rw [FifoBook.frontRef, hq] at hfront
  have hmem : r ∈ (q s p).map b.resting := by
    rw [← h.queue, hq]
    exact List.mem_cons_self
  obtain ⟨i, hi, rfl⟩ := List.mem_map.mp hmem
  have hlive := ((h.inv.mem s p i).mp hi).1
  exact ⟨hfront, h.inv.ref i hlive, h.inv.remainingOf_live hlive⟩

/-- What rests is more than nothing. -/
theorem remaining_pos (h : OrderBook.Refines cfg b q m) {s : Side} {p : Int} {r : Resting}
    (hr : r ∈ m.queue s p) : 0 < r.remaining := by
  rw [h.queue] at hr
  obtain ⟨i, hi, rfl⟩ := List.mem_map.mp hr
  exact h.inv.pos i ((h.inv.mem s p i).mp hi).1

theorem executeFront_book {s : Side} {p qty : Int} {r : Resting} {l : List Resting}
    (hq : m.queue s p = r :: l) (hqty : 0 < qty) :
    (m.executeFront s p qty).book = m.setLevel s p (takeFrom r.ref qty (m.queue s p)) := by
  unfold FifoBook.executeFront
  rw [if_neg (Int.not_le.mpr hqty)]
  simp only [hq]
  show m.setLevel s p (takeFrom r.ref qty (m.queue s p)) = _
  rw [hq]

/-- The front of a level loses some of what it has. -/
theorem front_taken (h : OrderBook.Refines cfg b q m) {s : Side} {p qty : Int} {r : Resting}
    {l : List Resting} (hq : m.queue s p = r :: l) (hqty : 1 ≤ qty) :
    ∃ q', OrderBook.Refines cfg (b.executeFront s p (min qty r.remaining)).book q'
      (m.setLevel s p (takeFrom r.ref (min qty r.remaining) (m.queue s p))) := by
  have hpos := remaining_pos h (hq ▸ List.mem_cons_self : r ∈ m.queue s p)
  have hle : ∀ r' l', m.queue s p = r' :: l' → min qty r.remaining ≤ r'.remaining := by
    intro r' l' hq'
    obtain ⟨rfl, -⟩ := List.cons.inj (hq.symm.trans hq')
    omega
  obtain ⟨-, -, q', hr⟩ := h.executeFront_agrees hle
  refine ⟨q', ?_⟩
  rwa [executeFront_book hq (by omega)] at hr

theorem totalOf_cons (r : Resting) (l : List Resting) :
    totalOf (r :: l) = r.remaining + totalOf l := by
  unfold totalOf
  rw [List.map_cons, List.sum_cons]

theorem totalOf_nonneg {l : List Resting} (h : ∀ r ∈ l, 0 < r.remaining) : 0 ≤ totalOf l := by
  induction l with
  | nil => exact Int.le_refl 0
  | cons r l ih =>
      have hr := h r List.mem_cons_self
      have hl := ih fun r' hr' => h r' (List.mem_cons_of_mem r hr')
      rw [totalOf_cons]
      omega

/-- The rounds that clear a level leave it empty and the others as they were. -/
theorem clearLevel_refines {s : Side} {p : Int} (l : List Resting) :
    ∀ {fuel : Nat} {b : OrderBook k} {q : Side → Int → List Nat} {m : FifoBook},
      OrderBook.Refines cfg b q m → m.queue s p = l → (totalOf l).toNat ≤ fuel →
      ∃ q' m', OrderBook.Refines cfg (clearLevel s p fuel b) q' m'
        ∧ m'.queue = (m.setLevel s p []).queue := by
  induction l with
  | nil =>
      intro fuel b q m h hq _
      refine ⟨q, m, ?_, ?_⟩
      · cases fuel with
        | zero => exact h
        | succ fuel =>
            rw [clearLevel, if_neg (by rw [h.qtyAt_eq, hq]; exact Int.lt_irrefl 0)]
            exact h
      · funext s' p'
        show m.queue s' p' = if s' = s ∧ p' = p then [] else m.queue s' p'
        split
        · rename_i hsame
          rw [hsame.1, hsame.2, hq]
        · rfl
  | cons r l ih =>
      intro fuel b q m h hq hfuel
      have hpos := remaining_pos h (hq ▸ List.mem_cons_self : r ∈ m.queue s p)
      have hrest : 0 ≤ totalOf l :=
        totalOf_nonneg fun r' hr' => remaining_pos h (hq ▸ List.mem_cons_of_mem r hr' : _ ∈ m.queue s p)
      rw [totalOf_cons] at hfuel
      obtain ⟨hfront, -, hrem⟩ := head_shown h hq
      cases fuel with
      | zero => omega
      | succ fuel =>
          have hqty : 0 < b.qtyAt s p := by
            rw [h.qtyAt_eq, hq, totalOf_cons]
            omega
          rw [clearLevel, if_pos hqty, hfront, hrem]
          obtain ⟨q₁, h₁⟩ := front_taken h hq (show 1 ≤ r.remaining by omega)
          rw [Int.min_self, hq, takeFrom, if_pos rfl, if_pos rfl] at h₁
          have hq₁ : (m.setLevel s p l).queue s p = l := if_pos ⟨rfl, rfl⟩
          have hfuel' : (totalOf l).toNat ≤ fuel := by omega
          obtain ⟨q', m', h', hqueue⟩ := ih h₁ hq₁ hfuel'
          refine ⟨q', m', h', hqueue.trans ?_⟩
          funext s' p'
          show (if s' = s ∧ p' = p then [] else if s' = s ∧ p' = p then l else m.queue s' p')
            = if s' = s ∧ p' = p then [] else m.queue s' p'
          split <;> rfl

theorem specOf_congr (h : m'.queue = m.queue) : specOf m' = specOf m := by
  unfold specOf
  rw [h]

/-! ## A book that the specification has reached -/

/-- The references of the search, as the specification has them. -/
def Bounds.refs (B : Bounds) : Set Nat := {r | r ∈ B.kRefs}

/-- The book stands for an abstract one whose state the specification reaches, and orders rest
only at the prices of the search. -/
structure Tracks (cfg : BookConfig) (B : Bounds) (b : OrderBook k) (q : Side → Int → List Nat)
    (m : FifoBook) : Prop where
  refines : OrderBook.Refines cfg b q m
  reachable : (specOf m).Reachable B.refs B.kPrices.toFinset B.kMaxQty
  within : ∀ s p, m.queue s p ≠ [] → p ∈ B.kPrices

theorem toFinset_zero (hB : B.Ok) : (0 : Int) ∉ B.kPrices.toFinset :=
  fun h => hB.prices (List.mem_toFinset.mp h)

namespace Tracks

theorem sound (h : Tracks cfg B b q m) (hB : B.Ok) :
    Sound B.refs B.kPrices.toFinset B.kMaxQty (specOf m) :=
  sound_reachable (toFinset_zero hB) h.reachable

theorem mem_prices (h : Tracks cfg B b q m) {s : Side} {p : Int} (hne : m.queue s p ≠ []) :
    p ∈ B.kPrices.toFinset := List.mem_toFinset.mpr (h.within s p hne)

theorem occupied_iff (h : Tracks cfg B b q m) {s : Side} {p : Int} :
    p ∈ (specOf m).occupied B.kPrices.toFinset s ↔ m.queue s p ≠ [] := by
  rw [mem_occupied]
  have hbook : (specOf m).book s p ≠ [] ↔ m.queue s p ≠ [] := by
    show (m.queue s p).map entryOf ≠ [] ↔ _
    rw [ne_eq, List.map_eq_nil_iff]
  rw [hbook]
  exact ⟨fun hx => hx.2, fun hne => ⟨h.mem_prices hne, hne⟩⟩

/-- The book's best price is the best of the occupied ones. -/
theorem isBest (h : Tracks cfg B b q m) (s : Side) :
    IsBest s (fun p => m.queue s p ≠ []) (b.best s) :=
  (h.refines.inv.best s).congr fun p => h.refines.queue_ne_nil s p

/-- The driver's test is the specification's. -/
theorem not_wouldCross (h : Tracks cfg B b q m) {s : Side} {p : Int}
    (hcross : ¬ wouldCross b s p) : ¬ (specOf m).wouldCross B.kPrices.toFinset s p := by
  cases s with
  | buy =>
      rintro ⟨hne, hle⟩
      rcases (specOf m).bestAsk_spec B.kPrices.toFinset with ⟨h0, -⟩ | ⟨hmem, -⟩
      · exact hne h0
      · have hocc := h.occupied_iff.mp hmem
        rcases h.isBest .sell with ⟨-, hnone⟩ | ⟨hbest, -, hleast⟩
        · exact hnone _ hocc
        · have hleast' : b.best .sell ≤ (specOf m).bestAsk B.kPrices.toFinset := hleast _ hocc
          exact hcross ⟨hbest, Int.le_trans hleast' hle⟩
  | sell =>
      rintro ⟨hne, hle⟩
      rcases (specOf m).bestBuy_spec B.kPrices.toFinset with ⟨h0, -⟩ | ⟨hmem, -⟩
      · exact hne h0
      · have hocc := h.occupied_iff.mp hmem
        rcases h.isBest .buy with ⟨-, hnone⟩ | ⟨hbest, -, hleast⟩
        · exact hnone _ hocc
        · have hleast' : (specOf m).bestBuy B.kPrices.toFinset ≤ b.best .buy := hleast _ hocc
          exact hcross ⟨hbest, Int.le_trans hle hleast'⟩

/-- A state that one action of the specification leads to. -/
theorem next (h : Tracks cfg B b q m) {b' : OrderBook k} {q' : Side → Int → List Nat}
    {t : BookMatching Nat} (hr : OrderBook.Refines cfg b' q' m') (ht : specOf m' = t)
    (hn : Next B.refs B.kPrices.toFinset B.kMaxQty (specOf m) t)
    (hw : ∀ s p, m'.queue s p ≠ [] → p ∈ B.kPrices) : Tracks cfg B b' q' m' where
  refines := hr
  reachable := by
    rw [ht]
    exact h.reachable.tail hn
  within := hw

/-- Taking from a level leaves orders only where there were some. -/
theorem within_take (h : Tracks cfg B b q m) {s : Side} {p : Int} {l : List Resting}
    (hl : l ≠ [] → m.queue s p ≠ []) :
    ∀ s' p', (m.setLevel s p l).queue s' p' ≠ [] → p' ∈ B.kPrices := by
  intro s' p' hne
  unfold FifoBook.setLevel at hne
  dsimp only at hne
  split at hne
  · rename_i hsame
    rw [hsame.2]
    exact h.within s p (hl hne)
  · exact h.within s' p' hne

/-! ## Resting and cancelling -/

/-- Resting tracks the specification's Rest. -/
theorem rest (h : Tracks cfg B b q m) (hB : B.Ok) {ref : Nat} {s : Side} {p qty : Int}
    (href : ref ∈ B.kRefs) (hp : p ∈ B.kPrices) (hqty : 1 ≤ qty ∧ qty ≤ B.kMaxQty)
    (hunused : ¬ refUsed b ref) (hcross : ¬ wouldCross b s p) :
    ∃ q' m', Tracks cfg B (b.add ref s qty p).book q' m' := by
  have hne : ref ≠ 0 := fun h0 => hB.refs (h0 ▸ href)
  have hsmall : qty < 2 ^ 32 := by
    have := hB.qty
    omega
  obtain ⟨-, -, q', hr⟩ := @OrderBook.Refines.add_agrees _ _ _ _ _ h.refines ref s qty p hsmall
  refine ⟨q', (m.add k cfg ref s qty p).book, ?_⟩
  have hfind : m.find cfg ref = none := by
    by_contra hfound
    exact hunused ((h.refines.find_ne_none_iff hne).mp hfound)
  -- the book refuses the order or takes it at the tail
  by_cases hok : (m.add k cfg ref s qty p).book = m
  · rw [hok] at hr ⊢
    exact ⟨hr, h.reachable, h.within⟩
  · have hbook : (m.add k cfg ref s qty p).book
        = m.pushed k cfg s p { ref, remaining := qty } := by
      unfold FifoBook.add at hok ⊢
      repeat' split at hok
      all_goals first
        | exact absurd rfl hok
        | skip
      rename_i h1 h2 h3 h4 h5 h6
      rw [if_neg h1, if_neg h2, if_neg h3, if_neg h4, if_neg h5, if_neg h6]
    rw [hbook] at hr ⊢
    refine h.next hr (specOf_pushed m s p ref qty) ?_ ?_
    · refine Next.rest _ ref s p qty href (List.mem_toFinset.mpr hp) hqty (h.not_wouldCross hcross)
        fun s' p' hp' e he heq => ?_
      obtain ⟨r, hmem, rfl⟩ := List.mem_map.mp he
      have hin := h.refines.queue_inBand s' p' (List.ne_nil_of_mem hmem)
      have hnone := List.find?_eq_none.mp hfind _ (FifoBook.mem_orders.mpr ⟨hin, hmem⟩)
      exact hnone (decide_eq_true heq)
    · intro s' p' hne'
      show p' ∈ B.kPrices
      have hq : (m.pushed k cfg s p { ref, remaining := qty }).queue s' p'
          = if s' = s ∧ p' = p then m.queue s p ++ [{ ref, remaining := qty }]
            else m.queue s' p' := rfl
      rw [hq] at hne'
      split at hne'
      · rename_i hsame
        rw [hsame.2]
        exact hp
      · exact h.within s' p' hne'

theorem nodup (h : Tracks cfg B b q m) (hB : B.Ok) {s : Side} {p : Int}
    (hne : m.queue s p ≠ []) : ((m.queue s p).map Resting.ref).Nodup := by
  have hnd := (h.sound hB).unique.nodup s p (h.mem_prices hne)
  have hrefs : (specOf m).refsAt s p = (m.queue s p).map Resting.ref := by
    unfold refsAt specOf
    rw [List.map_map]
    rfl
  rwa [hrefs] at hnd

/-- Cancelling tracks its Cancel. -/
theorem cancel (h : Tracks cfg B b q m) (hB : B.Ok) {ref : Nat} (href : ref ∈ B.kRefs) :
    ∃ q' m', Tracks cfg B (b.remove ref).book q' m' := by
  have hne : ref ≠ 0 := fun h0 => hB.refs (h0 ▸ href)
  obtain ⟨-, -, q', hr⟩ := h.refines.remove_agrees hne
  refine ⟨q', (m.remove cfg ref).book, ?_⟩
  unfold FifoBook.remove at hr ⊢
  cases hfind : m.find cfg ref with
  | none =>
      rw [hfind] at hr
      exact ⟨hr, h.reachable, h.within⟩
  | some o =>
      rw [hfind] at hr
      dsimp only at hr ⊢
      obtain ⟨s, p, r⟩ := o
      unfold FifoBook.find at hfind
      have hmem := (FifoBook.mem_orders.mp (List.mem_of_find?_eq_some hfind)).2
      have hrref : r.ref = ref := of_decide_eq_true (List.find?_some hfind :)
      have hqne : m.queue s p ≠ [] := List.ne_nil_of_mem hmem
      obtain ⟨i, hi, hget, hspec⟩ := specOf_removed (h.nodup hB hqne) hmem
      refine h.next hr hspec ?_ (h.within_take fun _ => hqne)
      refine Next.cancel _ s p i (entryOf r) ?_ (h.mem_prices hqne) hi hget
      show r.ref ∈ B.kRefs
      rw [hrref]
      exact href

/-- **`Deplete`**: every round of the loop is one action of the specification. -/
theorem depleteLoop {s : Side} {p : Int} (hp : p ∈ B.kPrices) (fuel : Nat) :
    ∀ {left : Int} {b : OrderBook k} {q : Side → Int → List Nat} {m : FifoBook},
      Tracks cfg B b q m → left ≤ B.kMaxQty →
      ∃ q' m', Tracks cfg B (ModelCheck.depleteLoop s p fuel left b) q' m' := by
  induction fuel with
  | zero => exact fun h _ => ⟨_, _, h⟩
  | succ fuel ih =>
      intro left b q m h hleft
      rw [ModelCheck.depleteLoop]
      by_cases hdone : left ≤ 0
      · rw [if_pos hdone]
        exact ⟨q, m, h⟩
      rw [if_neg hdone]
      cases hq : m.queue s p with
      | nil =>
          have hfront := h.refines.frontRef_eq s p
          rw [FifoBook.frontRef, hq] at hfront
          dsimp only at hfront ⊢
          rw [if_pos hfront]
          exact ⟨q, m, h⟩
      | cons r l =>
          have hpos := remaining_pos h.refines (hq ▸ List.mem_cons_self : r ∈ m.queue s p)
          obtain ⟨hfront, hrne, hrem⟩ := head_shown h.refines hq
          dsimp only
          rw [hfront, if_neg hrne, hrem]
          obtain ⟨q', hr⟩ := front_taken h.refines hq (by omega : 1 ≤ left)
          have hnext : Tracks cfg B _ q' _ := h.next hr (specOf_front hq left)
            (Next.deplete _ s p left _ _ (List.mem_toFinset.mpr hp) ⟨by omega, hleft⟩
              (by show (m.queue s p).map entryOf = _; rw [hq]; rfl))
            (h.within_take fun _ => by rw [hq]; exact List.cons_ne_nil _ _)
          exact ih hnext (by omega)

/-- **`MarketTake`** at one price: the rounds together are one action of the specification. -/
theorem clearLevel (h : Tracks cfg B b q m) {s : Side} {bound p : Int}
    (hbound : bound ∈ B.kPrices) (hthrough : through s bound p) :
    ∃ q' m', Tracks cfg B (ModelCheck.clearLevel s.opp p (b.qtyAt s.opp p).toNat b) q' m' := by
  have hfuel : (totalOf (m.queue s.opp p)).toNat ≤ (b.qtyAt s.opp p).toNat := by
    rw [h.refines.qtyAt_eq]
  obtain ⟨q', m', hr, hqueue⟩ := clearLevel_refines _ h.refines rfl hfuel
  have hspec := specOf_congr hqueue
  refine ⟨q', m', ?_⟩
  by_cases hq : m.queue s.opp p = []
  · refine ⟨hr, ?_, fun s' p' hne => ?_⟩
    · rw [hspec, ← hq, specOf_setLevel_self]
      exact h.reachable
    · rw [hqueue] at hne
      exact h.within_take (fun hnil => absurd rfl hnil) s' p' hne
  · refine h.next hr hspec ?_ fun s' p' hne => ?_
    · rw [specOf_setLevel]
      refine Next.marketTake _ s bound p (List.mem_toFinset.mpr hbound) (h.mem_prices hq) ?_ ?_
      · show (m.queue s.opp p).map entryOf ≠ []
        rwa [ne_eq, List.map_eq_nil_iff]
      · cases s <;> exact hthrough
    · rw [hqueue] at hne
      exact h.within_take (fun hnil => absurd rfl hnil) s' p' hne

/-- Taking level after level tracks its MarketTake. -/
theorem take {s : Side} {bound : Int} (hbound : bound ∈ B.kPrices) (prices : List Int) :
    ∀ {b : OrderBook k} {q : Side → Int → List Nat} {m : FifoBook}, Tracks cfg B b q m →
      ∃ q' m', Tracks cfg B (prices.foldl (fun b p => if through s bound p then
        ModelCheck.clearLevel s.opp p (b.qtyAt s.opp p).toNat b else b) b) q' m' := by
  induction prices with
  | nil => exact fun h => ⟨_, _, h⟩
  | cons p prices ih =>
      intro b q m h
      rw [List.foldl_cons]
      by_cases hthrough : through s bound p
      · rw [if_pos hthrough]
        obtain ⟨q₁, m₁, h₁⟩ := h.clearLevel hbound hthrough
        exact ih h₁
      · rw [if_neg hthrough]
        exact ih h

end Tracks

/-! ## The search -/

theorem mem_quantities {qty : Int} (h : qty ∈ quantities B) : 1 ≤ qty ∧ qty ≤ B.kMaxQty := by
  obtain ⟨n, hn, rfl⟩ := List.mem_map.mp h
  have := List.mem_range.mp hn
  omega

/-- What is known of an action that the driver tries. -/
def Offered (B : Bounds) (b : OrderBook k) : Action → Prop
  | .rest ref s p qty => ref ∈ B.kRefs ∧ p ∈ B.kPrices ∧ (1 ≤ qty ∧ qty ≤ B.kMaxQty)
      ∧ ¬ refUsed b ref ∧ ¬ wouldCross b s p
  | .cancel ref => ref ∈ B.kRefs
  | .deplete _ p qty => p ∈ B.kPrices ∧ 1 ≤ qty ∧ qty ≤ B.kMaxQty
  | .take _ bound => bound ∈ B.kPrices

/-- The driver offers only actions of the specification. -/
theorem offered_of_mem {a : Action} (h : a ∈ successors B b) : Offered B b a := by
  unfold successors at h
  rcases List.mem_append.mp h with h | h
  · rcases List.mem_append.mp h with h | h
    · rcases List.mem_append.mp h with h | h
      · obtain ⟨ref, href, h⟩ := List.mem_flatMap.mp h
        obtain ⟨s, -, h⟩ := List.mem_flatMap.mp h
        obtain ⟨p, hp, h⟩ := List.mem_flatMap.mp h
        obtain ⟨qty, hqty, h⟩ := List.mem_filterMap.mp h
        split at h
        · cases h
        · rename_i hfree
          obtain ⟨hunused, hcross⟩ := not_or.mp hfree
          cases h
          exact ⟨href, hp, mem_quantities hqty, hunused, hcross⟩
      · obtain ⟨ref, href, h⟩ := List.mem_filterMap.mp h
        split at h
        · cases h
          exact href
        · cases h
    · obtain ⟨s, -, h⟩ := List.mem_flatMap.mp h
      obtain ⟨p, hp, h⟩ := List.mem_flatMap.mp h
      obtain ⟨qty, hqty, h⟩ := List.mem_filterMap.mp h
      split at h
      · cases h
        exact ⟨hp, mem_quantities hqty⟩
      · cases h
  · obtain ⟨s, -, h⟩ := List.mem_flatMap.mp h
    obtain ⟨bound, hbound, h⟩ := List.mem_filterMap.mp h
    split at h
    · cases h
      exact hbound
    · cases h

/-- **One action of the driver** is a run of the specification. -/
theorem Tracks.apply (h : Tracks cfg B b q m) (hB : B.Ok) {a : Action} (ha : Offered B b a) :
    ∃ q' m', Tracks cfg B (ModelCheck.apply B b a) q' m' := by
  cases a with
  | rest ref s p qty =>
      obtain ⟨href, hp, hqty, hunused, hcross⟩ := ha
      exact h.rest hB href hp hqty hunused hcross
  | cancel ref => exact h.cancel hB ha
  | deplete s p qty => exact Tracks.depleteLoop ha.1 _ h ha.2.2
  | take s bound => exact Tracks.take ha _ h

theorem tracks_init (hc : OrderBook.ConfigOk k cfg) :
    Tracks cfg B (OrderBook.init cfg : OrderBook k) (fun _ _ => []) {} where
  refines := OrderBook.refines_init hc
  reachable := Relation.ReflTransGen.refl
  within := fun _ _ hne => absurd rfl hne

/-- **Whatever the search comes to** shows a state of the specification. -/
theorem Explored.tracks (hc : OrderBook.ConfigOk k cfg) (hB : B.Ok) (h : Explored B cfg b) :
    ∃ q m, Tracks cfg B b q m := by
  induction h with
  | init => exact ⟨_, _, tracks_init hc⟩
  | step _ a ha ih =>
      obtain ⟨q, m, ht⟩ := ih
      exact ht.apply hB (offered_of_mem ha)

/-! ## The check -/

/-- The orders of a level add up to its total. -/
theorem Tracks.conservation (h : Tracks cfg B b q m) (s : Side) (p : Int) :
    ((b.levelSlots s p).map b.rem).sum = b.qtyAt s p := by
  rw [h.refines.qtyAt_eq, ← h.refines.levelSlots_eq, totalOf, List.map_map]
  rfl

/-- No book that is explored is crossed. -/
theorem Tracks.not_crossed (h : Tracks cfg B b q m) (hB : B.Ok) :
    ¬ (b.best .buy ≠ kNoTick ∧ b.best .sell ≠ kNoTick ∧ b.best .sell ≤ b.best .buy) := by
  rintro ⟨hbuy, hsell, hle⟩
  rcases h.isBest .buy with ⟨hnone, -⟩ | ⟨-, hbid, -⟩
  · exact hbuy hnone
  rcases h.isBest .sell with ⟨hnone, -⟩ | ⟨-, hask, -⟩
  · exact hsell hnone
  have := (h.sound hB).separated _ (h.occupied_iff.mpr hbid) _ (h.occupied_iff.mpr hask)
  omega

/-- The references shown at a level are those of the specification. -/
theorem Tracks.refs_level (h : Tracks cfg B b q m) (s : Side) (p : Int) :
    ((b.levelSlots s p).map fun i => ((b.order i).orderRef, b.rem i)).map Prod.fst
      = (specOf m).refsAt s p := by
  show _ = ((m.queue s p).map entryOf).map BookMatching.Entry.ref
  rw [← h.refines.levelSlots_eq, List.map_map, List.map_map, List.map_map]
  rfl

/-- No reference is shown twice. -/
theorem Tracks.refs_nodup (h : Tracks cfg B b q m) (hB : B.Ok) :
    ((shownOrders B b).map Prod.fst).Nodup := by
  have hunique := (h.sound hB).unique
  have hlist : (shownOrders B b).map Prod.fst
      = kSides.flatMap fun s => B.kPrices.flatMap fun p => (specOf m).refsAt s p := by
    unfold shownOrders
    rw [List.map_flatMap]
    refine List.flatMap_congr fun s _ => ?_
    rw [List.map_flatMap]
    exact List.flatMap_congr fun p _ => h.refs_level s p
  have hmem : ∀ {p : Int}, p ∈ B.kPrices → p ∈ B.kPrices.toFinset := List.mem_toFinset.mpr
  rw [hlist, List.nodup_flatMap]
  refine ⟨fun s _ => List.nodup_flatMap.mpr ⟨fun p hp => hunique.nodup s p (hmem hp), ?_⟩, ?_⟩
  · refine hB.distinct.imp_of_mem fun {p p'} hp hp' hne => ?_
    exact fun r hr hr' => hunique.apart s p (hmem hp) s p' (hmem hp') (fun hs => hne hs.2) r hr hr'
  · refine List.pairwise_pair.mpr fun r hr hr' => ?_
    obtain ⟨p, hp, hrp⟩ := List.mem_flatMap.mp hr
    obtain ⟨p', hp', hrp'⟩ := List.mem_flatMap.mp hr'
    exact hunique.apart .buy p (hmem hp) .sell p' (hmem hp') (fun hs => by cases hs.1) r hrp hrp'

/-- **The driver's own checks pass.** -/
theorem Tracks.checkInvariants (h : Tracks cfg B b q m) (hB : B.Ok) :
    ModelCheck.checkInvariants B b = true := by
  unfold ModelCheck.checkInvariants
  have haudit : b.audit = true := h.refines.inv.repInv.audit
  rw [haudit, decide_eq_false (h.not_crossed hB), decide_eq_true (h.refs_nodup hB)]
  rw [Bool.not_false, Bool.and_self, Bool.true_and, Bool.and_true, Bool.and_eq_true]
  refine ⟨?_, ?_⟩
  · exact List.all_eq_true.mpr fun s _ => List.all_eq_true.mpr fun p _ =>
      decide_eq_true (h.conservation s p)
  · refine List.all_eq_true.mpr fun o ho => decide_eq_true ?_
    obtain ⟨s, -, ho⟩ := List.mem_flatMap.mp ho
    obtain ⟨p, -, ho⟩ := List.mem_flatMap.mp ho
    obtain ⟨i, hi, rfl⟩ := List.mem_map.mp ho
    have hmem : b.resting i ∈ m.queue s p := by
      rw [← h.refines.levelSlots_eq]
      exact List.mem_map.mpr ⟨i, hi, rfl⟩
    exact remaining_pos h.refines hmem

/-- **The model check cannot fail, with any bounds**: what the order book shows is a state of the
specification in every book that the driver comes to, by any actions and to any depth, and the
driver's check of its invariants succeeds there. -/
theorem explored_sound (hc : OrderBook.ConfigOk k cfg) (hB : B.Ok) (h : Explored B cfg b) :
    (shown b).Reachable B.refs B.kPrices.toFinset B.kMaxQty
    ∧ (shown b).Inv B.refs B.kPrices.toFinset B.kMaxQty
    ∧ checkInvariants B b = true := by
  obtain ⟨q, m, ht⟩ := h.tracks hc hB
  rw [shown_eq ht.refines]
  exact ⟨ht.reachable, (ht.sound hB).inv (toFinset_zero hB), ht.checkInvariants hB⟩

/-- The bounds of the driver: a bid rests, and the level is taken. -/
theorem explored_sound_taken :
    checkInvariants ⟨[11, 12, 13], [997, 998, 999], 2⟩
      (apply ⟨[11, 12, 13], [997, 998, 999], 2⟩
        (apply ⟨[11, 12, 13], [997, 998, 999], 2⟩
          (OrderBook.init ⟨16, ⟨997, 1000, 4⟩⟩ : OrderBook 4) (.rest 11 .buy 998 2))
        (.take .sell 997)) = true := by
  have hrest : Explored ⟨[11, 12, 13], [997, 998, 999], 2⟩ ⟨16, ⟨997, 1000, 4⟩⟩ _ :=
    .step (.init (k := 4)) (.rest 11 .buy 998 2) (by decide +kernel)
  have htake := hrest.step (.take .sell 997) (by decide +kernel)
  have hB : Bounds.Ok ⟨[11, 12, 13], [997, 998, 999], 2⟩ :=
    ⟨by decide, by decide, by decide, by decide⟩
  exact (explored_sound ⟨by decide, by decide, by decide, by decide, by decide⟩ hB htake).2.2

end ModelCheck

end Mog
