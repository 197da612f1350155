import Mathlib.Data.List.Nodup
import Mathlib.Tactic.SplitIfs
import Mathlib.Tactic.ByContra

/-!
# Intrusive doubly linked chains

Cells are numbered, and two memories `nxt` and `prv` give each cell's links; one
number, `null`, is no cell. `Chain nxt prv null head tail l` says that walking
from `head` visits exactly the cells of `l`, that the backward links agree, and
that `tail` is the last cell.

The three updates (append at the tail, insert at the head, unlink anywhere) are
stated pointwise: a caller shows what its new memory holds at the cells of the
chain and needs not exhibit the memory as a particular sequence of writes.
-/

namespace LinkedChain

/-- Walk the forward links from `i`, over at most `fuel` cells. -/
def walk (nxt : Nat → Nat) (null : Nat) : Nat → Nat → List Nat
  | 0, _ => []
  | fuel + 1, i => if i = null then [] else i :: walk nxt null fuel (nxt i)

/-- From `cur`, entered from `p`, the links run through `l` and arrive at `stop`. -/
def Seg (nxt prv : Nat → Nat) : Nat → Nat → Nat → List Nat → Prop
  | _, cur, stop, [] => cur = stop
  | p, cur, stop, a :: l => cur = a ∧ prv a = p ∧ Seg nxt prv a (nxt a) stop l

/-- A whole chain. -/
structure Chain (nxt prv : Nat → Nat) (null head tail : Nat) (l : List Nat) : Prop where
  seg : Seg nxt prv null head null l
  ne_null : null ∉ l
  nodup : l.Nodup
  tail : tail = l.getLastD null

variable {nxt prv nxt' prv' : Nat → Nat} {null head tail p cur stop a : Nat} {l : List Nat}

theorem Seg.congr (h : Seg nxt prv p cur stop l) (hn : ∀ x ∈ l, nxt' x = nxt x)
    (hp : ∀ x ∈ l, prv' x = prv x) : Seg nxt' prv' p cur stop l := by
  induction l generalizing p cur with
  | nil => exact h
  | cons b l ih =>
      obtain ⟨h1, h2, h3⟩ := h
      refine ⟨h1, by rw [hp b (by simp)]; exact h2, ?_⟩
      rw [hn b (by simp)]
      exact ih h3 (fun x hx => hn x (by simp [hx])) (fun x hx => hp x (by simp [hx]))

/-- Changing the links of other cells leaves a chain alone. -/
theorem Chain.congr (h : Chain nxt prv null head tail l) (hn : ∀ x ∈ l, nxt' x = nxt x)
    (hp : ∀ x ∈ l, prv' x = prv x) : Chain nxt' prv' null head tail l :=
  ⟨h.seg.congr hn hp, h.ne_null, h.nodup, h.tail⟩

theorem chain_nil : Chain nxt prv null null null [] := ⟨rfl, by simp, by simp, rfl⟩

/-- The head of a chain is `null` exactly when the chain is empty. -/
theorem Chain.head_eq_null (h : Chain nxt prv null head tail l) : head = null ↔ l = [] := by
  cases l with
  | nil => exact ⟨fun _ => rfl, fun _ => h.seg⟩
  | cons b l =>
      have hb : head = b := h.seg.1
      have hne : b ≠ null := fun he => h.ne_null (by simp [he])
      simp [hb, hne]

theorem Chain.tail_eq_null (h : Chain nxt prv null head tail l) : tail = null ↔ l = [] := by
  rw [h.tail]
  cases l with
  | nil => simp
  | cons b l =>
      have hmem : (b :: l).getLastD null ∈ b :: l := by
        rw [List.getLastD_cons]
        cases l with
        | nil => simp
        | cons c l => rw [List.getLastD_eq_getLast?]; simp [List.getLast?_eq_getLast_of_ne_nil]
      have hne : (b :: l).getLastD null ≠ null := fun he => h.ne_null (he ▸ hmem)
      simp only [hne, reduceCtorEq]

/-- The head of a nonempty chain is its first cell. -/
theorem Chain.head_cons (h : Chain nxt prv null head tail (a :: l)) : head = a := h.seg.1

/-- Walking a chain with enough fuel visits exactly its cells. -/
theorem Seg.walk_eq (h : Seg nxt prv p cur null l) (hne : null ∉ l) {fuel : Nat}
    (hfuel : l.length ≤ fuel) : walk nxt null fuel cur = l := by
  induction l generalizing p cur fuel with
  | nil =>
      have hc : cur = null := h
      cases fuel with
      | zero => rfl
      | succ fuel => rw [walk, if_pos hc]
  | cons b l ih =>
      obtain ⟨h1, _, h3⟩ := h
      subst h1
      cases fuel with
      | zero => simp at hfuel
      | succ fuel =>
          have hb : cur ≠ null := fun he => hne (by simp [he])
          rw [walk, if_neg hb, ih h3 (fun hm => hne (by simp [hm])) (by simpa using hfuel)]

theorem Chain.walk_eq (h : Chain nxt prv null head tail l) {fuel : Nat}
    (hfuel : l.length ≤ fuel) : walk nxt null fuel head = l :=
  h.seg.walk_eq h.ne_null hfuel

/-! ## Appending at the tail -/

theorem Seg.snoc (h : Seg nxt prv p cur stop l) (ha : a ∉ l) (hnd : l.Nodup)
    (hn : ∀ x ∈ l, x ≠ l.getLastD p → nxt' x = nxt x) (hp : ∀ x ∈ l, prv' x = prv x)
    (hlast : l ≠ [] → nxt' (l.getLastD p) = a) (hpa : prv' a = l.getLastD p) :
    Seg nxt' prv' p (if l = [] then a else cur) (nxt' a) (l ++ [a]) := by
  induction l generalizing p cur with
  | nil => exact ⟨by simp, by simpa using hpa, rfl⟩
  | cons b l ih =>
      obtain ⟨h1, h2, h3⟩ := h
      rw [List.nodup_cons] at hnd
      simp only [List.getLastD_cons] at hn hlast hpa
      refine ⟨by simpa using h1, by rw [hp b (by simp)]; exact h2, ?_⟩
      have hrest := ih h3 (fun hm => ha (by simp [hm])) hnd.2
        (fun x hx hne => hn x (by simp [hx]) hne) (fun x hx => hp x (by simp [hx]))
        (fun _ => hlast (by simp)) hpa
      by_cases hl : l = []
      · subst hl
        have hba : nxt' b = a := hlast (by simp)
        rw [hba]
        simpa using hrest
      · rw [if_neg hl] at hrest
        have hbne : b ≠ l.getLastD b := by
          intro he
          have hmem : l.getLastD b ∈ l := by
            rw [List.getLastD_eq_getLast?, List.getLast?_eq_getLast_of_ne_nil hl]
            exact List.getLast_mem hl
          exact hnd.1 (he ▸ hmem)
        rw [hn b (by simp) hbne]
        exact hrest

/-- **Append at the tail.** -/
theorem Chain.snoc (h : Chain nxt prv null head tail l) (ha : a ∉ l) (hnull : a ≠ null)
    (hn : ∀ x ∈ l, x ≠ tail → nxt' x = nxt x) (hp : ∀ x ∈ l, prv' x = prv x)
    (hlast : tail ≠ null → nxt' tail = a) (hna : nxt' a = null) (hpa : prv' a = tail) :
    Chain nxt' prv' null (if tail = null then a else head) a (l ++ [a]) where
  seg := by
    have ht := h.tail_eq_null
    have hs : Seg nxt' prv' null (if l = [] then a else head) (nxt' a) (l ++ [a]) :=
      h.seg.snoc ha h.nodup
      (by rw [← h.tail]; exact hn) hp
      (fun hl => by rw [← h.tail]; exact hlast (fun he => hl (ht.mp he)))
      (by rw [← h.tail]; exact hpa)
    rw [hna] at hs
    by_cases hl : l = []
    · rw [if_pos hl] at hs; rwa [if_pos (ht.mpr hl)]
    · rw [if_neg hl] at hs; rwa [if_neg (fun he => hl (ht.mp he))]
  ne_null := by simp [h.ne_null, hnull.symm]
  nodup := by
    rw [List.nodup_append]
    exact ⟨h.nodup, by simp, fun x hx y hy he => ha (by simp at hy; rwa [← hy, ← he])⟩
  tail := by simp

/-! ## Inserting at the head -/

/-- **Insert at the head.** -/
theorem Chain.cons (h : Chain nxt prv null head tail l) (ha : a ∉ l) (hnull : a ≠ null)
    (hn : ∀ x ∈ l, nxt' x = nxt x) (hp : ∀ x ∈ l, prv' x = if x = head then a else prv x)
    (hna : nxt' a = head) (hpa : prv' a = null) :
    Chain nxt' prv' null a ((a :: l).getLastD null) (a :: l) where
  seg := by
    refine ⟨rfl, hpa, ?_⟩
    rw [hna]
    cases l with
    | nil => exact h.seg
    | cons b l =>
        obtain ⟨h1, _, h3⟩ := h.seg
        have hnd := List.nodup_cons.mp h.nodup
        refine ⟨h1, by rw [hp b (by simp), if_pos h1.symm], ?_⟩
        rw [hn b (by simp)]
        refine h3.congr (fun x hx => hn x (by simp [hx])) (fun x hx => ?_)
        rw [hp x (by simp [hx]), if_neg (fun he => hnd.1 (by rw [← h1, ← he]; exact hx))]
  ne_null := by simp [h.ne_null, hnull.symm]
  nodup := List.nodup_cons.mpr ⟨ha, h.nodup⟩
  tail := rfl

/-! ## Unlinking -/

/-- A cell is entered from the cell before it: `p` for the first, a cell of the list otherwise. -/
theorem Seg.prv_mem (h : Seg nxt prv p cur stop l) (ha : a ∈ l) :
    (cur = a ∧ prv a = p) ∨ prv a ∈ l := by
  induction l generalizing p cur with
  | nil => simp at ha
  | cons b l ih =>
      obtain ⟨h1, h2, h3⟩ := h
      rcases List.mem_cons.mp ha with hab | hal
      · exact Or.inl ⟨by rw [h1, hab], by rw [hab, h2]⟩
      · rcases ih h3 hal with ⟨_, hb⟩ | hm
        · exact Or.inr (by simp [hb])
        · exact Or.inr (by simp [hm])

/-- A cell leads to `stop` or to a cell of the rest of the list. -/
theorem Seg.nxt_mem {b : Nat} (h : Seg nxt prv p cur stop (b :: l)) (ha : a ∈ b :: l) :
    nxt a = stop ∨ nxt a ∈ l := by
  induction l generalizing p cur b with
  | nil =>
      obtain ⟨_, _, h3⟩ := h
      simp only [List.mem_singleton] at ha
      exact Or.inl (by rw [ha]; exact h3)
  | cons c l ih =>
      obtain ⟨_, _, h3⟩ := h
      rcases List.mem_cons.mp ha with hab | hal
      · exact Or.inr (by rw [hab, h3.1]; simp)
      · rcases ih h3 hal with hs | hm
        · exact Or.inl hs
        · exact Or.inr (by simp [hm])

theorem Seg.unlink (h : Seg nxt prv p cur stop l) (ha : a ∈ l) (hpl : p ∉ l) (hstop : stop ∉ l)
    (hnd : l.Nodup)
    (hn : ∀ x ∈ l, x ≠ a → nxt' x = if x = prv a then nxt a else nxt x)
    (hp : ∀ x ∈ l, x ≠ a → prv' x = if x = nxt a then prv a else prv x) :
    Seg nxt' prv' p (if p = prv a then nxt a else cur) stop (l.erase a) := by
  induction l generalizing p cur with
  | nil => simp at ha
  | cons b l ih =>
      have hseg := h
      obtain ⟨h1, h2, h3⟩ := h
      obtain ⟨hbl, hndl⟩ := List.nodup_cons.mp hnd
      by_cases hab : a = b
      · -- the first cell leaves: its successor is entered from `p`
        subst hab
        rw [List.erase_cons_head, if_pos h2.symm]
        cases l with
        | nil => exact h3
        | cons c l =>
            obtain ⟨hc1, hc2, hc3⟩ := h3
            obtain ⟨hcl, _⟩ := List.nodup_cons.mp hndl
            have hca : c ≠ a := fun he => hbl (by simp [he])
            have hcp : c ≠ prv a := fun he => hpl (by rw [← h2, ← he]; simp)
            refine ⟨hc1, by rw [hp c (by simp) hca, if_pos hc1.symm, h2], ?_⟩
            rw [hn c (by simp) hca, if_neg hcp]
            refine hc3.congr (fun x hx => ?_) (fun x hx => ?_)
            · have hxa : x ≠ a := fun he => hbl (by simp [← he, hx])
              rw [hn x (by simp [hx]) hxa, if_neg (fun he => hpl (by rw [← h2, ← he]; simp [hx]))]
            · have hxa : x ≠ a := fun he => hbl (by simp [← he, hx])
              rw [hp x (by simp [hx]) hxa, if_neg (fun he => hcl (by rw [← hc1, ← he]; exact hx))]
      · have hal : a ∈ l := (List.mem_cons.mp ha).resolve_left hab
        have hprv : prv a ∈ b :: l := by
          rcases hseg.prv_mem ha with ⟨he, _⟩ | hm
          · exact absurd (he.symm.trans h1) hab
          · exact hm
        have hpne : p ≠ prv a := fun he => hpl (he ▸ hprv)
        have hbn : b ≠ nxt a := by
          intro he
          rcases hseg.nxt_mem ha with hs | hm
          · exact hstop (by rw [← hs, ← he]; simp)
          · exact hbl (he ▸ hm)
        rw [if_neg hpne, List.erase_cons_tail (by simpa using Ne.symm hab)]
        refine ⟨h1, by rw [hp b (by simp) (Ne.symm hab), if_neg hbn]; exact h2, ?_⟩
        rw [hn b (by simp) (Ne.symm hab)]
        exact ih h3 hal hbl (fun hm => hstop (by simp [hm])) hndl
          (fun x hx => hn x (by simp [hx])) (fun x hx => hp x (by simp [hx]))

theorem Seg.getLastD_erase (h : Seg nxt prv p cur stop l) (ha : a ∈ l) (hstop : stop ∉ l)
    (hnd : l.Nodup) :
    (l.erase a).getLastD p = if nxt a = stop then prv a else l.getLastD p := by
  induction l generalizing p cur with
  | nil => simp at ha
  | cons b l ih =>
      have hseg := h
      obtain ⟨_, h2, h3⟩ := h
      obtain ⟨hbl, hndl⟩ := List.nodup_cons.mp hnd
      by_cases hab : a = b
      · subst hab
        rw [List.erase_cons_head, h2, List.getLastD_cons]
        cases l with
        | nil =>
            have hs : nxt a = stop := h3
            rw [if_pos hs]; rfl
        | cons c l =>
            have hne : nxt a ≠ stop := fun he => hstop (by rw [← he, h3.1]; simp)
            rw [if_neg hne, List.getLastD_cons, List.getLastD_cons]
      · have hal : a ∈ l := (List.mem_cons.mp ha).resolve_left hab
        rw [List.erase_cons_tail (by simpa using Ne.symm hab), List.getLastD_cons,
          List.getLastD_cons, ih h3 hal (fun hm => hstop (by simp [hm])) hndl]

/-- **Unlink a cell.** -/
theorem Chain.unlink (h : Chain nxt prv null head tail l) (ha : a ∈ l)
    (hn : ∀ x ∈ l, x ≠ a → nxt' x = if x = prv a then nxt a else nxt x)
    (hp : ∀ x ∈ l, x ≠ a → prv' x = if x = nxt a then prv a else prv x) :
    Chain nxt' prv' null (if prv a = null then nxt a else head)
      (if nxt a = null then prv a else tail) (l.erase a) where
  seg := by
    have hs := h.seg.unlink ha h.ne_null h.ne_null h.nodup hn hp
    simpa only [eq_comm (a := null)] using hs
  ne_null := fun hm => h.ne_null (List.mem_of_mem_erase hm)
  nodup := h.nodup.erase a
  tail := by rw [h.seg.getLastD_erase ha h.ne_null h.nodup, h.tail]

/-- The links of a chain's cells are cells of the chain or `null`. -/
theorem Chain.nxt_mem (h : Chain nxt prv null head tail l) (ha : a ∈ l) :
    nxt a = null ∨ nxt a ∈ l := by
  cases l with
  | nil => simp at ha
  | cons b l => exact (h.seg.nxt_mem ha).imp id (List.mem_cons_of_mem b)

theorem Chain.prv_mem (h : Chain nxt prv null head tail l) (ha : a ∈ l) :
    prv a = null ∨ prv a ∈ l :=
  (h.seg.prv_mem ha).imp (fun hh => hh.2) id

theorem Chain.tail_mem (h : Chain nxt prv null head tail l) (ht : tail ≠ null) : tail ∈ l := by
  have hl : l ≠ [] := fun he => ht (h.tail_eq_null.mpr he)
  rw [h.tail, List.getLastD_eq_getLast?, List.getLast?_eq_getLast_of_ne_nil hl]
  exact List.getLast_mem hl

end LinkedChain
