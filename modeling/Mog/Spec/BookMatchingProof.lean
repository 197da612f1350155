import Mog.Spec.BookMatching

/-!
# The specification keeps its invariants

An action other than `Rest` only shortens the queues, so that it cannot cross the book or
repeat a reference; `Rest` checks both. The totals follow the queues by arithmetic.

Each invariant is a conjunct of one, kept by each of the four actions, and a state that runs
reach has it by induction. The totals are where the specification does arithmetic of its own:
what an action subtracts is what it has taken from the queue.
-/

namespace Mog

namespace BookMatching

variable {Ref : Type} {Refs : Set Ref} {Prices : Finset Int} {MaxQty : Int}
variable {m m' : BookMatching Ref}

/-! ## Sequences and updates -/

@[simp] theorem except_self {α : Type} (f : Side → Int → α) (s : Side) (p : Int) (x : α) :
    except f s p x s p = x := if_pos ⟨rfl, rfl⟩

theorem except_other {α : Type} {f : Side → Int → α} {s s' : Side} {p p' : Int} {x : α}
    (h : ¬ (s' = s ∧ p' = p)) : except f s p x s' p' = f s' p' := if_neg h

/-- The sequences of the specification count from one. -/
theorem removeAt_eq {α : Type} {l : List α} {i : Nat} (hi : 1 ≤ i) :
    removeAt l i = l.eraseIdx (i - 1) := by
  unfold removeAt
  split
  · rename_i h1
    rw [h1, List.eraseIdx_zero]
  · rw [List.eraseIdx_eq_take_drop_succ, show i - 1 + 1 = i by omega]
    split
    · rename_i heq
      rw [← heq, heq, List.drop_length, List.append_nil]
    · rfl

theorem sumSeq_cons (e : Entry Ref) (l : List (Entry Ref)) : sumSeq (e :: l) = e.qty + sumSeq l := by
  unfold sumSeq
  rw [List.map_cons, List.sum_cons]

theorem sumSeq_append (l l' : List (Entry Ref)) : sumSeq (l ++ l') = sumSeq l + sumSeq l' := by
  unfold sumSeq
  rw [List.map_append, List.sum_append]

/-- An entry that is taken out takes its quantity with it. -/
theorem sumSeq_eraseIdx {l : List (Entry Ref)} {i : Nat} {e : Entry Ref} (he : l[i]? = some e) :
    sumSeq (l.eraseIdx i) = sumSeq l - e.qty := by
  obtain ⟨hlt, hget⟩ := List.getElem?_eq_some_iff.mp he
  have hsplit : sumSeq l = sumSeq (l.take i) + (e.qty + sumSeq (l.drop (i + 1))) := by
    conv_lhs => rw [← List.take_append_drop i l, sumSeq_append, List.drop_eq_getElem_cons hlt, hget,
      sumSeq_cons]
  rw [List.eraseIdx_eq_take_drop_succ, sumSeq_append]
  omega

theorem sumSeq_nonneg {l : List (Entry Ref)} (h : ∀ e ∈ l, 1 ≤ e.qty) : 0 ≤ sumSeq l := by
  induction l with
  | nil => exact Int.le_refl 0
  | cons e l ih =>
      have hhead := h e List.mem_cons_self
      have htail := ih fun e' he' => h e' (List.mem_cons_of_mem e he')
      rw [sumSeq_cons]
      omega

/-- The four arms of `SumSeq` in the source. -/
example (a b c : Entry Ref) : sumSeq [a, b, c] = a.qty + b.qty + c.qty := by
  simp [sumSeq, Int.add_assoc]

/-! ## The touches -/

/-- A price is occupied where its queue is not empty. -/
theorem mem_occupied {s : Side} {x : Int} :
    x ∈ m.occupied Prices s ↔ x ∈ Prices ∧ m.book s x ≠ [] := by
  unfold occupied
  rw [Finset.mem_filter]

theorem bestBuy_spec (m : BookMatching Ref) (Prices : Finset Int) :
    (m.bestBuy Prices = 0 ∧ ∀ x ∈ Prices, m.book .buy x = [])
    ∨ (m.bestBuy Prices ∈ m.occupied Prices .buy
      ∧ ∀ x ∈ m.occupied Prices .buy, x ≤ m.bestBuy Prices) := by
  unfold bestBuy
  split
  · rename_i h
    exact Or.inr ⟨Finset.max'_mem _ h, fun x hx => Finset.le_max' _ x hx⟩
  · rename_i h
    refine Or.inl ⟨rfl, fun x hx => ?_⟩
    by_contra hne
    exact h ⟨x, mem_occupied.mpr ⟨hx, hne⟩⟩

theorem bestAsk_spec (m : BookMatching Ref) (Prices : Finset Int) :
    (m.bestAsk Prices = 0 ∧ ∀ x ∈ Prices, m.book .sell x = [])
    ∨ (m.bestAsk Prices ∈ m.occupied Prices .sell
      ∧ ∀ x ∈ m.occupied Prices .sell, m.bestAsk Prices ≤ x) := by
  unfold bestAsk
  split
  · rename_i h
    exact Or.inr ⟨Finset.min'_mem _ h, fun x hx => Finset.min'_le _ x hx⟩
  · rename_i h
    refine Or.inl ⟨rfl, fun x hx => ?_⟩
    by_contra hne
    exact h ⟨x, mem_occupied.mpr ⟨hx, hne⟩⟩

/-- Every bid is below every ask. -/
def Separated (Prices : Finset Int) (m : BookMatching Ref) : Prop :=
  ∀ b ∈ m.occupied Prices .buy, ∀ a ∈ m.occupied Prices .sell, b < a

/-- With no price at the sentinel, a book that is not crossed is one whose sides are apart. -/
theorem noCrossedBook_iff (hzero : (0 : Int) ∉ Prices) :
    m.NoCrossedBook Prices ↔ m.Separated Prices := by
  have hne : ∀ s, ∀ x ∈ m.occupied Prices s, x ≠ 0 := by
    rintro s x hx rfl
    exact hzero (mem_occupied.mp hx).1
  unfold NoCrossedBook Separated
  rcases m.bestBuy_spec Prices with ⟨hb0, hb⟩ | ⟨hbmem, hbmax⟩
  · refine ⟨fun _ b hbm => absurd (hb b (mem_occupied.mp hbm).1) (mem_occupied.mp hbm).2, ?_⟩
    exact fun _ hcross => hcross.1 hb0
  · rcases m.bestAsk_spec Prices with ⟨ha0, ha⟩ | ⟨hamem, hamin⟩
    · refine ⟨fun _ _ _ a ham => absurd (ha a (mem_occupied.mp ham).1) (mem_occupied.mp ham).2, ?_⟩
      exact fun _ hcross => hcross.2.1 ha0
    · constructor
      · intro hnot b hbm a ham
        have h1 := hbmax b hbm
        have h2 := hamin a ham
        have h3 : ¬ m.bestAsk Prices ≤ m.bestBuy Prices :=
          fun hle => hnot ⟨hne _ _ hbmem, hne _ _ hamem, hle⟩
        omega
      · intro hsep hcross
        have := hsep _ hbmem _ hamem
        omega

/-- An order that would not cross is clear of the other side. -/
theorem not_wouldCross {s : Side} {p : Int} (hzero : (0 : Int) ∉ Prices)
    (h : ¬ m.wouldCross Prices s p) :
    ∀ x ∈ m.occupied Prices s.opp, match s with | .buy => p < x | .sell => x < p := by
  intro x hx
  have hx0 : ∀ y, y ∈ Prices → y ≠ 0 := by
    rintro y hy rfl
    exact hzero hy
  cases s with
  | buy =>
      rcases m.bestAsk_spec Prices with ⟨_, hempty⟩ | ⟨hmem, hmin⟩
      · exact absurd (hempty x (mem_occupied.mp hx).1) (mem_occupied.mp hx).2
      · have hle := hmin x hx
        have hlt : ¬ m.bestAsk Prices ≤ p :=
          fun hle => h ⟨hx0 _ (mem_occupied.mp hmem).1, hle⟩
        show p < x
        omega
  | sell =>
      rcases m.bestBuy_spec Prices with ⟨_, hempty⟩ | ⟨hmem, hmax⟩
      · exact absurd (hempty x (mem_occupied.mp hx).1) (mem_occupied.mp hx).2
      · have hle := hmax x hx
        have hlt : ¬ p ≤ m.bestBuy Prices :=
          fun hle => h ⟨hx0 _ (mem_occupied.mp hmem).1, hle⟩
        show x < p
        omega

/-! ## References -/

/-- The references of a level. -/
def refsAt (m : BookMatching Ref) (s : Side) (p : Int) : List Ref := (m.book s p).map Entry.ref

/-- No reference twice in a level, and none in two levels. -/
structure Unique (Prices : Finset Int) (m : BookMatching Ref) : Prop where
  nodup : ∀ s, ∀ p ∈ Prices, (m.refsAt s p).Nodup
  apart : ∀ s₁, ∀ p₁ ∈ Prices, ∀ s₂, ∀ p₂ ∈ Prices, ¬ (s₁ = s₂ ∧ p₁ = p₂) →
    ∀ r ∈ m.refsAt s₁ p₁, r ∉ m.refsAt s₂ p₂

/-- The specification's pairs of positions say that no reference rests twice. -/
theorem refUnique_iff : m.RefUnique Prices ↔ m.Unique Prices := by
  constructor
  · intro h
    refine ⟨fun s p hp => ?_, fun s₁ p₁ hp₁ s₂ p₂ hp₂ hne r hr₁ hr₂ => ?_⟩
    · refine List.nodup_iff_getElem?_ne_getElem?.mpr fun i j hij hj heq => ?_
      unfold refsAt at hj heq
      rw [List.length_map] at hj
      have hi : i < (m.book s p).length := Nat.lt_trans hij hj
      rw [List.getElem?_map, List.getElem?_map, List.getElem?_eq_getElem hi,
        List.getElem?_eq_getElem hj] at heq
      exact h s p hp i _ (List.getElem?_eq_getElem hi) s p hp j _ (List.getElem?_eq_getElem hj)
        (Or.inr (Or.inr (Nat.ne_of_lt hij))) (Option.some.inj heq)
    · obtain ⟨e₁, he₁, hr₁⟩ := List.mem_map.mp hr₁
      obtain ⟨e₂, he₂, hr₂⟩ := List.mem_map.mp hr₂
      obtain ⟨i, hi⟩ := List.mem_iff_getElem?.mp he₁
      obtain ⟨j, hj⟩ := List.mem_iff_getElem?.mp he₂
      refine h s₁ p₁ hp₁ i e₁ hi s₂ p₂ hp₂ j e₂ hj ?_ (hr₁.trans hr₂.symm)
      by_cases hs : s₁ = s₂
      · exact Or.inr (Or.inl fun hp => hne ⟨hs, hp⟩)
      · exact Or.inl hs
  · intro h s₁ p₁ hp₁ i e₁ hi s₂ p₂ hp₂ j e₂ hj hdiff heq
    by_cases hsame : s₁ = s₂ ∧ p₁ = p₂
    · obtain ⟨rfl, rfl⟩ := hsame
      have hij : i ≠ j := by
        rcases hdiff with hs | hp | hij
        · exact absurd rfl hs
        · exact absurd rfl hp
        · exact hij
      have hget : (m.refsAt s₁ p₁)[i]? = (m.refsAt s₁ p₁)[j]? := by
        unfold refsAt
        rw [List.getElem?_map, List.getElem?_map, hi, hj, Option.map_some, Option.map_some, heq]
      have hlt : i < (m.refsAt s₁ p₁).length := by
        unfold refsAt
        rw [List.length_map]
        exact (List.getElem?_eq_some_iff.mp hi).1
      exact hij ((List.getElem?_inj hlt (h.nodup s₁ p₁ hp₁)).mp hget)
    · refine h.apart s₁ p₁ hp₁ s₂ p₂ hp₂ hsame e₁.ref ?_ ?_
      · exact List.mem_map.mpr ⟨e₁, List.mem_of_getElem? hi, rfl⟩
      · rw [heq]
        exact List.mem_map.mpr ⟨e₂, List.mem_of_getElem? hj, rfl⟩

/-! ## Actions that only shorten queues -/

/-- The references left are some of those that were there, in their order. -/
def Shrinks (m m' : BookMatching Ref) : Prop := ∀ s p, (m'.refsAt s p).Sublist (m.refsAt s p)

theorem Shrinks.occupied (h : m.Shrinks m') {s : Side} {x : Int}
    (hx : x ∈ m'.occupied Prices s) : x ∈ m.occupied Prices s := by
  obtain ⟨hp, hne⟩ := mem_occupied.mp hx
  refine mem_occupied.mpr ⟨hp, fun hnil => hne ?_⟩
  have hsub := h s x
  unfold refsAt at hsub
  rw [hnil, List.map_nil, List.sublist_nil] at hsub
  exact List.map_eq_nil_iff.mp hsub

/-- Taking away keeps the sides apart. -/
theorem Shrinks.separated (h : m.Shrinks m') (hs : m.Separated Prices) : m'.Separated Prices :=
  fun b hb a ha => hs b (h.occupied hb) a (h.occupied ha)

/-- Taking away brings no reference to rest twice. -/
theorem Shrinks.unique (h : m.Shrinks m') (hu : m.Unique Prices) : m'.Unique Prices where
  nodup := fun s p hp => (hu.nodup s p hp).sublist (h s p)
  apart := fun s₁ p₁ hp₁ s₂ p₂ hp₂ hne r hr₁ hr₂ =>
    hu.apart s₁ p₁ hp₁ s₂ p₂ hp₂ hne r ((h s₁ p₁).subset hr₁) ((h s₂ p₂).subset hr₂)

theorem shrinks_except {s : Side} {p : Int} {l : List (Entry Ref)} {agg : Side → Int → Int}
    (h : (l.map Entry.ref).Sublist (m.refsAt s p)) : m.Shrinks ⟨except m.book s p l, agg⟩ := by
  intro s' p'
  show ((except m.book s p l s' p').map Entry.ref).Sublist (m.refsAt s' p')
  by_cases hsame : s' = s ∧ p' = p
  · rw [hsame.1, hsame.2, except_self]
    exact h
  · rw [except_other hsame]
    exact List.Sublist.refl _

/-! ## One action -/

/-- What the totals and the entries of one level must satisfy. -/
structure LevelOk (Refs : Set Ref) (MaxQty : Int) (l : List (Entry Ref)) (total : Int) : Prop where
  entries : ∀ e ∈ l, e.ref ∈ Refs ∧ 1 ≤ e.qty ∧ e.qty ≤ MaxQty
  total : total = sumSeq l

/-- Every level is typed and adds up. -/
def LevelsOk (Refs : Set Ref) (Prices : Finset Int) (MaxQty : Int) (m : BookMatching Ref) : Prop :=
  ∀ s, ∀ p ∈ Prices, LevelOk Refs MaxQty (m.book s p) (m.agg s p)

/-- The invariants, as an action keeps them. -/
structure Sound (Refs : Set Ref) (Prices : Finset Int) (MaxQty : Int) (m : BookMatching Ref) :
    Prop where
  levels : LevelsOk Refs Prices MaxQty m
  separated : m.Separated Prices
  unique : m.Unique Prices

theorem Sound.inv (hzero : (0 : Int) ∉ Prices) (h : Sound Refs Prices MaxQty m) :
    m.Inv Refs Prices MaxQty where
  typeOK := fun s p hp => (h.levels s p hp).entries
  conservation := fun s p hp => (h.levels s p hp).total
  noCrossedBook := (noCrossedBook_iff hzero).mpr h.separated
  refUnique := refUnique_iff.mpr h.unique
  qtyPositive := by
    intro s p hp
    rw [(h.levels s p hp).total]
    exact sumSeq_nonneg fun e he => ((h.levels s p hp).entries e he).2.1

/-- Nothing rests in the beginning. -/
theorem sound_init : Sound Refs Prices MaxQty (init : BookMatching Ref) where
  levels := fun _ _ _ => ⟨fun _ he => absurd he List.not_mem_nil, rfl⟩
  separated := fun _ hb => absurd rfl (mem_occupied.mp hb).2
  unique := ⟨fun _ _ _ => List.nodup_nil, fun _ _ _ _ _ _ _ _ hr => absurd hr List.not_mem_nil⟩

theorem levelsOk_except (h : LevelsOk Refs Prices MaxQty m) {s : Side} {p : Int}
    {l : List (Entry Ref)} {total : Int} (hl : LevelOk Refs MaxQty l total) :
    LevelsOk Refs Prices MaxQty ⟨except m.book s p l, except m.agg s p total⟩ := by
  intro s' p' hp'
  show LevelOk Refs MaxQty (except m.book s p l s' p') (except m.agg s p total s' p')
  by_cases hsame : s' = s ∧ p' = p
  · rw [hsame.1, hsame.2, except_self, except_self]
    exact hl
  · rw [except_other hsame, except_other hsame]
    exact h s' p' hp'

/-- An action that shortens one level. -/
theorem Sound.shorten (h : Sound Refs Prices MaxQty m) {s : Side} {p : Int}
    {l : List (Entry Ref)} {total : Int} (hl : LevelOk Refs MaxQty l total)
    (hsub : (l.map Entry.ref).Sublist (m.refsAt s p)) :
    Sound Refs Prices MaxQty ⟨except m.book s p l, except m.agg s p total⟩ where
  levels := levelsOk_except h.levels hl
  separated := (shrinks_except hsub).separated h.separated
  unique := (shrinks_except hsub).unique h.unique

/-- An order that crosses nothing may rest. -/
theorem Sound.rest (h : Sound Refs Prices MaxQty m) (hzero : (0 : Int) ∉ Prices) {ref : Ref}
    {s : Side} {p q : Int} (href : ref ∈ Refs) (hp : p ∈ Prices) (hq : 1 ≤ q ∧ q ≤ MaxQty)
    (hcross : ¬ m.wouldCross Prices s p) (hunused : m.refUnused Prices ref) :
    Sound Refs Prices MaxQty (m.rest ref s p q) := by
  have hrefs : ∀ s' p', (m.rest ref s p q).refsAt s' p'
      = if s' = s ∧ p' = p then m.refsAt s p ++ [ref] else m.refsAt s' p' := by
    intro s' p'
    unfold refsAt BookMatching.rest
    dsimp only
    by_cases hsame : s' = s ∧ p' = p
    · rw [if_pos hsame, hsame.1, hsame.2, except_self, List.map_append]
      rfl
    · rw [if_neg hsame, except_other hsame]
  have hfresh : ∀ s', ∀ p' ∈ Prices, ref ∉ m.refsAt s' p' := by
    intro s' p' hp' hmem
    obtain ⟨e, he, heq⟩ := List.mem_map.mp hmem
    exact hunused s' p' hp' e he heq
  refine ⟨?_, ?_, ?_, ?_⟩
  · refine levelsOk_except h.levels ⟨?_, ?_⟩
    · intro e he
      rcases List.mem_append.mp he with hold | hnew
      · exact (h.levels s p hp).entries e hold
      · rw [List.mem_singleton.mp hnew]
        exact ⟨href, hq⟩
    · rw [sumSeq_append, ← (h.levels s p hp).total]
      simp [sumSeq]
  · have hclear := not_wouldCross hzero hcross
    -- the level that is new may only be on one side
    have hocc : ∀ s', ∀ x ∈ (m.rest ref s p q).occupied Prices s',
        x ∈ m.occupied Prices s' ∨ s' = s ∧ x = p := by
      intro s' x hx
      obtain ⟨hxp, hne⟩ := mem_occupied.mp hx
      by_cases hsame : s' = s ∧ x = p
      · exact Or.inr hsame
      · refine Or.inl (mem_occupied.mpr ⟨hxp, ?_⟩)
        have : (m.rest ref s p q).book s' x = m.book s' x := except_other hsame
        rwa [this] at hne
    intro b hb a ha
    rcases hocc _ b hb with hbold | ⟨rfl, rfl⟩
    · rcases hocc _ a ha with haold | ⟨rfl, rfl⟩
      · exact h.separated b hbold a haold
      · exact hclear b hbold
    · rcases hocc _ a ha with haold | ⟨hs, -⟩
      · exact hclear a haold
      · cases hs
  · intro s' p' hp'
    rw [hrefs]
    split
    · refine List.nodup_append.mpr ⟨h.unique.nodup s p hp, List.nodup_singleton ref, ?_⟩
      rintro r hr r' hr' rfl
      rw [List.mem_singleton.mp hr'] at hr
      exact hfresh s p hp hr
    · exact h.unique.nodup s' p' hp'
  · intro s₁ p₁ hp₁ s₂ p₂ hp₂ hne r hr₁ hr₂
    rw [hrefs] at hr₁ hr₂
    by_cases h₁ : s₁ = s ∧ p₁ = p
    · have h₂ : ¬ (s₂ = s ∧ p₂ = p) := fun h₂ => hne ⟨h₁.1.trans h₂.1.symm, h₁.2.trans h₂.2.symm⟩
      rw [if_pos h₁] at hr₁
      rw [if_neg h₂] at hr₂
      rcases List.mem_append.mp hr₁ with hold | hnew
      · refine h.unique.apart s p hp s₂ p₂ hp₂ ?_ r hold hr₂
        exact fun hsame => h₂ ⟨hsame.1.symm, hsame.2.symm⟩
      · rw [List.mem_singleton.mp hnew] at hr₂
        exact hfresh s₂ p₂ hp₂ hr₂
    · rw [if_neg h₁] at hr₁
      by_cases h₂ : s₂ = s ∧ p₂ = p
      · rw [if_pos h₂] at hr₂
        rcases List.mem_append.mp hr₂ with hold | hnew
        · exact h.unique.apart s₁ p₁ hp₁ s p hp h₁ r hr₁ hold
        · rw [List.mem_singleton.mp hnew] at hr₁
          exact hfresh s₁ p₁ hp₁ hr₁
      · rw [if_neg h₂] at hr₂
        exact h.unique.apart s₁ p₁ hp₁ s₂ p₂ hp₂ hne r hr₁ hr₂

/-- An order may be taken out of its queue. -/
theorem Sound.cancelIdx (h : Sound Refs Prices MaxQty m) {s : Side} {p : Int} {i : Nat}
    {e : Entry Ref} (hp : p ∈ Prices) (hi : 1 ≤ i) (he : (m.book s p)[i - 1]? = some e) :
    Sound Refs Prices MaxQty (m.cancelIdx s p i e) := by
  have hlen : i ≤ (m.book s p).length := by
    have := (List.getElem?_eq_some_iff.mp he).1
    omega
  unfold BookMatching.cancelIdx
  rw [removeAt_eq hi]
  have hlevel := h.levels s p hp
  refine h.shorten ⟨fun e' he' => ?_, ?_⟩ ?_
  · exact hlevel.entries e' ((List.eraseIdx_sublist _ _).subset he')
  · rw [sumSeq_eraseIdx he, ← hlevel.total]
  · exact (List.eraseIdx_sublist _ _).map _

/-- The front order may lose some of its quantity, or all. -/
theorem Sound.deplete (h : Sound Refs Prices MaxQty m) {s : Side} {p q : Int} {e : Entry Ref}
    {tail : List (Entry Ref)} (hp : p ∈ Prices) (hq : 1 ≤ q) (hhead : m.book s p = e :: tail) :
    Sound Refs Prices MaxQty (m.deplete s p q e tail) := by
  have hlevel := h.levels s p hp
  rw [hhead] at hlevel
  obtain ⟨href, hpos, hmax⟩ := hlevel.entries e List.mem_cons_self
  have htail : ∀ e' ∈ tail, e'.ref ∈ Refs ∧ 1 ≤ e'.qty ∧ e'.qty ≤ MaxQty :=
    fun e' he' => hlevel.entries e' (List.mem_cons_of_mem e he')
  have hsum := hlevel.total
  rw [sumSeq_cons] at hsum
  unfold BookMatching.deplete
  dsimp only
  have hrefs : m.refsAt s p = e.ref :: tail.map Entry.ref := by
    unfold refsAt
    rw [hhead]
    rfl
  by_cases hall : min q e.qty = e.qty
  · rw [if_pos hall]
    refine h.shorten ⟨htail, by omega⟩ ?_
    rw [hrefs]
    exact List.sublist_cons_self _ _
  · rw [if_neg hall]
    refine h.shorten ⟨fun e' he' => ?_, ?_⟩ ?_
    · rcases List.mem_cons.mp he' with rfl | hmem
      · exact ⟨href, by dsimp only; omega, by dsimp only; omega⟩
      · exact htail e' hmem
    · rw [sumSeq_cons]
      dsimp only
      omega
    · rw [hrefs]
      exact List.Sublist.refl _

/-- A level may be taken whole. -/
theorem Sound.takeLevel (h : Sound Refs Prices MaxQty m) (s : Side) (p : Int) :
    Sound Refs Prices MaxQty (m.takeLevel s p) :=
  h.shorten ⟨fun _ he => absurd he List.not_mem_nil, rfl⟩ (List.nil_sublist _)

/-- **A step of the specification** keeps all this. -/
theorem Sound.next (hzero : (0 : Int) ∉ Prices) (h : Sound Refs Prices MaxQty m)
    (hn : Next Refs Prices MaxQty m m') : Sound Refs Prices MaxQty m' := by
  cases hn with
  | rest ref s p q href hp hq hcross hunused => exact h.rest hzero href hp hq hcross hunused
  | cancel s p i e href hp hi he => exact h.cancelIdx hp hi he
  | deplete s p q e tail hp hq hhead => exact h.deplete hp hq.1 hhead
  | marketTake s bound p hbound hp hne hthrough => exact h.takeLevel s p

/-- **Every run keeps all this.** -/
theorem sound_reachable (hzero : (0 : Int) ∉ Prices) (h : m.Reachable Refs Prices MaxQty) :
    Sound Refs Prices MaxQty m := by
  induction h with
  | refl => exact sound_init
  | tail _ hn ih => exact ih.next hzero hn

/-- **The specification is sound without its bounds**: for any references, any prices and any
largest quantity, every state it reaches satisfies what the model checker checks. -/
theorem spec_sound (Refs : Set Ref) (Prices : Finset Int) (MaxQty : Int)
    (hzero : (0 : Int) ∉ Prices) (h : m.Reachable Refs Prices MaxQty) :
    m.Inv Refs Prices MaxQty :=
  (sound_reachable hzero h).inv hzero

/-- A bid and an ask rest, and the bid is hit for part of its quantity. -/
theorem spec_sound_depleted :
    ((((init : BookMatching Nat).rest 1 .buy 997 2).rest 2 .sell 998 1).deplete .buy 997 1
      ⟨1, 2⟩ []).Inv {1, 2} {997, 998} 2 := by
  refine spec_sound {1, 2} {997, 998} 2 (by decide) ?_
  refine ((Relation.ReflTransGen.refl.tail (Next.rest _ 1 .buy 997 2 ?_ ?_ ?_ ?_ ?_)).tail
    (Next.rest _ 2 .sell 998 1 ?_ ?_ ?_ ?_ ?_)).tail (Next.deplete _ .buy 997 1 ⟨1, 2⟩ [] ?_ ?_ ?_)
  · exact Or.inl rfl
  · decide
  · decide
  · exact fun hcross => hcross.1 (by decide)
  · exact fun _ _ _ _ he => absurd he List.not_mem_nil
  · exact Or.inr rfl
  · decide
  · decide
  · exact fun hcross => absurd hcross.2 (by decide)
  · intro s p hp e he
    have hall : ∀ s ∈ [Side.buy, Side.sell], ∀ p ∈ [(997 : Int), 998],
        ∀ e ∈ ((init : BookMatching Nat).rest 1 .buy 997 2).book s p, e.ref ≠ 2 := by decide
    refine hall s (by cases s <;> decide) p ?_ e he
    simpa using hp
  · decide
  · decide
  · decide

end BookMatching

end Mog
