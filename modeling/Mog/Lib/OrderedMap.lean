import Mathlib.Data.List.Nodup
import Mathlib.Data.List.Perm.Subperm
import Mathlib.Order.RelClasses

/-!
# Ordered maps

A map kept as the list of its entries, in the order of their keys. What it holds is what a search
finds, so two orders of the same keys hold the same entries, and the first entry is the one whose
key comes before all others.

A search stops at the first entry whose key is not before its own, so changes are made there as
well: an entry is written over, put in front, or dropped. What each change does is said of the
search alone, so that a caller reasons about the map as a partial function.
-/

namespace Mog

/-- A map whose entries stand in the order `lt` of their keys. -/
structure OrderedMap (κ ν : Type) (lt : κ → κ → Prop) where
  entries : List (κ × ν)
  sorted : entries.Pairwise fun a b => lt a.1 b.1

namespace OrderedMap

variable {κ ν : Type} {lt : κ → κ → Prop}

def empty : OrderedMap κ ν lt := ⟨[], .nil⟩

/-- The entry that an iteration meets first. -/
def first? (m : OrderedMap κ ν lt) : Option (κ × ν) := m.entries.head?

def size (m : OrderedMap κ ν lt) : Nat := m.entries.length

/-! ## Sorted entries -/

/-- What is put at a key has that key. -/
theorem mem_put {k : κ} {o : Option ν} {e : κ × ν} (h : e ∈ (o.map fun v => (k, v)).toList) :
    e.1 = k := by
  obtain ⟨v, -, rfl⟩ := Option.map_eq_some_iff.mp (Option.mem_toList.mp h)
  rfl

/-- At most one entry goes in front of a sorted list that it comes before. -/
theorem sorted_put {k : κ} {o : Option ν} {l : List (κ × ν)}
    (hl : l.Pairwise fun a b => lt a.1 b.1) (hk : ∀ e ∈ l, lt k e.1) :
    ((o.map fun v => (k, v)).toList ++ l).Pairwise fun a b => lt a.1 b.1 := by
  refine List.pairwise_append.mpr ⟨?_, hl, fun a ha b hb => ?_⟩
  · cases o with
    | none => exact .nil
    | some v => exact List.pairwise_singleton _ _
  · rw [mem_put ha]
    exact hk b hb

section Order

variable [IsStrictTotalOrder κ lt]

theorem before_tail {k : κ} {e : κ × ν} {l : List (κ × ν)}
    (h : (e :: l).Pairwise fun a b => lt a.1 b.1) (hk : lt k e.1) : ∀ a ∈ e :: l, lt k a.1 := by
  intro a ha
  rcases List.mem_cons.mp ha with rfl | ha
  · exact hk
  · exact trans_of lt hk ((List.pairwise_cons.mp h).1 a ha)

/-- A key before all others is none of them. -/
theorem ne_of_before {k : κ} {l : List (κ × ν)} (h : ∀ e ∈ l, lt k e.1) : ∀ e ∈ l, e.1 ≠ k :=
  fun e he heq => irrefl_of lt k (heq ▸ h e he)

/-- A map binds no key twice. -/
theorem keys_nodup (m : OrderedMap κ ν lt) : (m.entries.map Prod.fst).Nodup := by
  rw [List.Nodup, List.pairwise_map]
  refine m.sorted.imp fun {a b} hlt => ?_
  rintro heq
  rw [heq] at hlt
  exact irrefl_of lt b.1 hlt

end Order

/-! ## What a search finds -/

section Search

variable [DecidableEq κ]

def lookup (k : κ) (l : List (κ × ν)) : Option ν := (l.find? fun e => e.1 = k).map Prod.snd

/-- The value bound to a key. -/
def find? (m : OrderedMap κ ν lt) (k : κ) : Option ν := lookup k m.entries

@[simp] theorem find?_empty (k : κ) : (empty : OrderedMap κ ν lt).find? k = none := rfl

theorem lookup_cons (k : κ) (e : κ × ν) (l : List (κ × ν)) :
    lookup k (e :: l) = if e.1 = k then some e.2 else lookup k l := by
  unfold lookup
  rw [List.find?_cons]
  by_cases hk : e.1 = k
  · rw [if_pos hk, decide_eq_true hk]
    rfl
  · rw [if_neg hk, decide_eq_false hk]

/-- A key that no entry has is not bound. -/
theorem lookup_absent {k : κ} {l : List (κ × ν)} (h : ∀ e ∈ l, e.1 ≠ k) : lookup k l = none := by
  unfold lookup
  rw [Option.map_eq_none_iff, List.find?_eq_none]
  exact fun e he => by simpa using h e he

section Found

variable [IsStrictTotalOrder κ lt]

/-- The entries are what a search finds. -/
theorem mem_entries (m : OrderedMap κ ν lt) {k : κ} {v : ν} :
    (k, v) ∈ m.entries ↔ m.find? k = some v := by
  obtain ⟨l, hsorted⟩ := m
  show (k, v) ∈ l ↔ lookup k l = some v
  induction l with
  | nil => exact ⟨fun h => absurd h List.not_mem_nil, fun h => by cases h⟩
  | cons a l ih =>
      obtain ⟨hhead, htail⟩ := List.pairwise_cons.mp hsorted
      rw [lookup_cons, List.mem_cons]
      split
      · rename_i hk
        constructor
        · rintro (rfl | hmem)
          · rfl
          · exact absurd hk.symm (ne_of_before hhead _ hmem)
        · rintro hv
          exact Or.inl (Prod.ext hk.symm (Option.some.inj hv).symm)
      · rename_i hk
        rw [← ih htail]
        exact ⟨fun h => h.resolve_left fun heq => hk (by rw [← heq]), Or.inr⟩

/-- Two lists of distinct keys that hold the same are rearrangements of each other. -/
theorem entries_perm (m : OrderedMap κ ν lt) {l : List (κ × ν)} (hl : l.Nodup)
    (h : ∀ k v, (k, v) ∈ l ↔ m.find? k = some v) : l.Perm m.entries :=
  (List.perm_ext_iff_of_nodup hl (List.Nodup.of_map Prod.fst m.keys_nodup)).mpr fun e =>
    (h e.1 e.2).trans m.mem_entries.symm

/-- A map without a first entry binds nothing. -/
theorem first?_eq_none (m : OrderedMap κ ν lt) : m.first? = none ↔ ∀ k, m.find? k = none := by
  unfold first?
  rw [List.head?_eq_none_iff]
  constructor
  · intro h k
    unfold find?
    rw [h]
    rfl
  · intro h
    refine List.eq_nil_iff_forall_not_mem.mpr fun e he => ?_
    rw [show e = (e.1, e.2) from rfl, m.mem_entries, h e.1] at he
    cases he

/-- The first entry is held, and its key comes before every other. -/
theorem first?_eq_some (m : OrderedMap κ ν lt) {e : κ × ν} (h : m.first? = some e) :
    m.find? e.1 = some e.2 ∧ ∀ k v, m.find? k = some v → k = e.1 ∨ lt e.1 k := by
  unfold first? at h
  obtain ⟨l, hl⟩ := List.head?_eq_some_iff.mp h
  have hsorted := m.sorted
  refine ⟨m.mem_entries.mp (by rw [hl]; exact List.mem_cons_self), fun k v hk => ?_⟩
  rw [← m.mem_entries, hl] at hk
  rw [hl] at hsorted
  rcases List.mem_cons.mp hk with rfl | hmem
  · exact Or.inl rfl
  · exact Or.inr ((List.pairwise_cons.mp hsorted).1 _ hmem)

end Found

/-! ## Change -/

variable [DecidableRel lt]

/-- `f` decides from what is held under `k` what is held there next. -/
def alterEntries (lt : κ → κ → Prop) [DecidableRel lt] (k : κ) (f : Option ν → Option ν) :
    List (κ × ν) → List (κ × ν)
  | [] => ((f none).map fun v => (k, v)).toList
  | e :: l =>
      if k = e.1 then ((f (some e.2)).map fun v => (k, v)).toList ++ l
      else if lt k e.1 then ((f none).map fun v => (k, v)).toList ++ e :: l
      else e :: alterEntries lt k f l

theorem mem_alterEntries {k : κ} {f : Option ν → Option ν} {l : List (κ × ν)} {e : κ × ν}
    (h : e ∈ alterEntries lt k f l) : e.1 = k ∨ e ∈ l := by
  induction l with
  | nil => exact Or.inl (mem_put h)
  | cons a l ih =>
      rw [alterEntries] at h
      split at h
      · rcases List.mem_append.mp h with hput | hl
        · exact Or.inl (mem_put hput)
        · exact Or.inr (List.mem_cons_of_mem a hl)
      · split at h
        · rcases List.mem_append.mp h with hput | hl
          · exact Or.inl (mem_put hput)
          · exact Or.inr hl
        · rcases List.mem_cons.mp h with rfl | hl
          · exact Or.inr List.mem_cons_self
          · exact (ih hl).imp_right (List.mem_cons_of_mem a)

variable [IsStrictTotalOrder κ lt]

/-- Altering keeps the entries in order. -/
theorem sorted_alterEntries (k : κ) (f : Option ν → Option ν) {l : List (κ × ν)}
    (h : l.Pairwise fun a b => lt a.1 b.1) :
    (alterEntries lt k f l).Pairwise fun a b => lt a.1 b.1 := by
  induction l with
  | nil =>
      have hput := sorted_put (k := k) (o := f none) h fun e he => absurd he List.not_mem_nil
      rwa [List.append_nil] at hput
  | cons a l ih =>
      obtain ⟨hhead, htail⟩ := List.pairwise_cons.mp h
      rw [alterEntries]
      split
      · rename_i heq
        exact sorted_put htail (heq ▸ hhead)
      · rename_i hne
        split
        · rename_i hlt
          exact sorted_put h (before_tail h hlt)
        · rename_i hnlt
          refine List.pairwise_cons.mpr ⟨fun e he => ?_, ih htail⟩
          rcases mem_alterEntries he with hk | he
          · rw [hk]
            rcases trichotomous_of lt k a.1 with hlt | heq | hgt
            · exact absurd hlt hnlt
            · exact absurd heq hne
            · exact hgt
          · exact hhead e he

/-- Rebinds a key by a function of what it was bound to. -/
def alter (m : OrderedMap κ ν lt) (k : κ) (f : Option ν → Option ν) : OrderedMap κ ν lt :=
  ⟨alterEntries lt k f m.entries, sorted_alterEntries k f m.sorted⟩

def insert (m : OrderedMap κ ν lt) (k : κ) (v : ν) : OrderedMap κ ν lt := m.alter k fun _ => some v

def erase (m : OrderedMap κ ν lt) (k : κ) : OrderedMap κ ν lt := m.alter k fun _ => none

theorem lookup_put {k : κ} (o : Option ν) {l : List (κ × ν)} (k' : κ) (h : ∀ e ∈ l, e.1 ≠ k) :
    lookup k' ((o.map fun v => (k, v)).toList ++ l) = if k' = k then o else lookup k' l := by
  cases o with
  | none =>
      show lookup k' l = _
      split
      · rename_i hk
        rw [hk]
        exact lookup_absent h
      · rfl
  | some v =>
      show lookup k' ((k, v) :: l) = _
      rw [lookup_cons]
      exact if_congr eq_comm rfl rfl

/-- Altering one key leaves what the others are bound to. -/
theorem lookup_alterEntries (k k' : κ) (f : Option ν → Option ν) {l : List (κ × ν)}
    (h : l.Pairwise fun a b => lt a.1 b.1) :
    lookup k' (alterEntries lt k f l) = if k' = k then f (lookup k l) else lookup k' l := by
  induction l with
  | nil =>
      have hput := lookup_put (k := k) (f none) (l := ([] : List (κ × ν))) k'
        fun e he => absurd he List.not_mem_nil
      rwa [List.append_nil] at hput
  | cons a l ih =>
      obtain ⟨hhead, htail⟩ := List.pairwise_cons.mp h
      rw [alterEntries]
      split
      · rename_i heq
        rw [lookup_put _ k' (ne_of_before (heq ▸ hhead)), lookup_cons k a, if_pos heq.symm]
        split
        · rfl
        · rename_i hne
          rw [lookup_cons, if_neg fun hk => hne (hk.symm.trans heq.symm)]
      · rename_i hne
        split
        · rename_i hlt
          have habsent := ne_of_before (before_tail h hlt)
          rw [lookup_put _ k' habsent, lookup_absent habsent]
        · rw [lookup_cons, lookup_cons, lookup_cons, if_neg (Ne.symm hne), ih htail]
          split
          · rename_i hk
            rw [if_neg fun hk' => hne (hk'.symm.trans hk.symm)]
          · rfl

theorem find?_alter (m : OrderedMap κ ν lt) (k k' : κ) (f : Option ν → Option ν) :
    (m.alter k f).find? k' = if k' = k then f (m.find? k) else m.find? k' :=
  lookup_alterEntries k k' f m.sorted

end Search

end OrderedMap

end Mog
