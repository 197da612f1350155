import Mathlib.Data.List.AList

/-!
# Trees of owned structures

A structure owns a block of memory and the structures inside it. To release it is to
release what is inside and to give its block back; a structure that has been released, or
moved elsewhere, is dead, and its release does nothing. A consumer holds structures,
releases them and moves structures out of others, in any order. Memory then holds exactly
the blocks of what is alive, so that nothing is given back twice, nothing alive is lost,
and nothing stays behind when all is dead.
-/

namespace OwnedTree

variable {α β : Type}

/-! ## Memory -/

/-- The blocks that are taken, by address. -/
abbrev Memory (β : Type) := AList fun _ : Nat => β

/-- Giving back a block that is not taken has no meaning. -/
def free (m : Memory β) (p : Nat) : Option (Memory β) := if p ∈ m then some (m.erase p) else none

/-- An allocator gives an address that is not taken. -/
structure Allocator (β : Type) where
  pick : Memory β → Nat
  fresh : ∀ m, pick m ∉ m

/-- The allocator that never looks back. -/
def Allocator.bump : Allocator β where
  pick m := m.keys.foldr max 0 + 1
  fresh := by
    intro m hm
    have hle : ∀ (l : List Nat) {x : Nat}, x ∈ l → x ≤ l.foldr max 0 := by
      intro l
      induction l with
      | nil => exact fun h => absurd h List.not_mem_nil
      | cons y l ih =>
          intro x hx
          rcases List.mem_cons.mp hx with rfl | hx
          · exact Nat.le_max_left _ _
          · exact Nat.le_trans (ih hx) (Nat.le_max_right _ _)
    exact absurd (hle _ (AList.mem_keys.mp hm)) (Nat.not_succ_le_self _)

/-- Memory holds these blocks and no others. -/
def Holds (content : α → β) (m : Memory β) (l : List (Nat × α)) : Prop :=
  m.entries.Perm (l.map fun x => ⟨x.1, content x.2⟩)

section

variable {content : α → β} {m : Memory β} {l l' : List (Nat × α)}

theorem Holds.empty : Holds content (∅ : Memory β) [] := List.Perm.refl _

theorem Holds.perm (h : Holds content m l) (hp : l.Perm l') : Holds content m l' :=
  h.trans (hp.map _)

theorem Holds.lookup (h : Holds content m l) {p : Nat} {d : α} (hx : (p, d) ∈ l) :
    m.lookup p = some (content d) := by
  refine AList.mem_lookup_iff.mpr (h.mem_iff.mpr ?_)
  exact List.mem_map_of_mem (f := fun x : Nat × α => (⟨x.1, content x.2⟩ : Sigma fun _ => β)) hx

theorem Holds.alloc (h : Holds content m l) {p : Nat} (hp : p ∉ m) (d : α) :
    Holds content (m.insert p (content d)) ((p, d) :: l) := by
  unfold Holds
  rw [AList.entries_insert_of_notMem hp, List.map_cons]
  exact h.cons _

/-- A block that is held can be given back. -/
theorem Holds.free {p : Nat} {d : α} (h : Holds content m ((p, d) :: l)) :
    ∃ m', free m p = some m' ∧ Holds content m' l := by
  have hmem : p ∈ m := by
    rw [← AList.lookup_isSome, h.lookup List.mem_cons_self]
    rfl
  refine ⟨m.erase p, if_pos hmem, ?_⟩
  have herase := List.Perm.kerase (a := p) m.nodupKeys h
  rw [List.map_cons, List.kerase_cons_eq (by rfl)] at herase
  exact herase

theorem Holds.eq_empty (h : Holds content m []) : m = ∅ :=
  AList.ext (List.Perm.eq_nil h)

end

/-! ## Structures -/

/-- A structure as it is meant: its data and the structures inside it. -/
inductive Plan (α : Type) where
  | mk (data : α) (children : List (Plan α))

/-- A structure in memory. -/
inductive Node (α : Type) where
  | mk (data : α) (block : Nat) (live : Bool) (children : List (Node α))

namespace Node

def data : Node α → α
  | mk d _ _ _ => d

def block : Node α → Nat
  | mk _ p _ _ => p

def live : Node α → Bool
  | mk _ _ b _ => b

def children : Node α → List (Node α)
  | mk _ _ _ cs => cs

end Node

/-- The part of a plan that is at some place inside it. -/
inductive Part : Plan α → Plan α → Prop where
  | self (q : Plan α) : Part q q
  | inside {x q : Plan α} {d : α} {qs : List (Plan α)} : q ∈ qs → Part x q → Part x (.mk d qs)

theorem Part.trans {x y z : Plan α} (hxy : Part x y) (hyz : Part y z) : Part x z := by
  induction hyz with
  | self => exact hxy
  | inside hq _ ih => exact Part.inside hq ih

variable (A : Allocator β) (content : α → β)

mutual

/-- What is inside is made first. -/
def build : Memory β → Plan α → Memory β × Node α
  | m, .mk d qs =>
      let r := buildAll m qs
      let p := A.pick r.1
      (r.1.insert p (content d), .mk d p true r.2)

def buildAll : Memory β → List (Plan α) → Memory β × List (Node α)
  | m, [] => (m, [])
  | m, q :: qs =>
      let r := build m q
      let rs := buildAll r.1 qs
      (rs.1, r.2 :: rs.2)

end

mutual

/-- The release of a structure: nothing, where it is dead. -/
def release : Memory β → Node α → Option (Memory β × Node α)
  | m, .mk d p false cs => some (m, .mk d p false cs)
  | m, .mk d p true cs =>
      (releaseAll m cs).bind fun r => (free r.1 p).map fun m' => (m', .mk d p false r.2)

def releaseAll : Memory β → List (Node α) → Option (Memory β × List (Node α))
  | m, [] => some (m, [])
  | m, c :: cs =>
      (release m c).bind fun r => (releaseAll r.1 cs).map fun rs => (rs.1, r.2 :: rs.2)

end

/-- Move the structure at a place out: what is left, where it is dead now, and what was moved. -/
def moveOut : Node α → List Nat → Option (Node α × Node α)
  | .mk _ _ false _, _ => none
  | .mk d p true cs, [] => some (.mk d p false cs, .mk d p true cs)
  | .mk d p true cs, i :: path =>
      match cs[i]? with
      | none => none
      | some c => (moveOut c path).map fun r => (.mk d p true (cs.set i r.1), r.2)

mutual

/-- The plan of a structure, dead or alive. -/
def plan : Node α → Plan α
  | .mk d _ _ cs => .mk d (plans cs)

def plans : List (Node α) → List (Plan α)
  | [] => []
  | c :: cs => plan c :: plans cs

end

mutual

/-- The blocks of what is alive in a structure. -/
def owned : Node α → List (Nat × α)
  | .mk _ _ false _ => []
  | .mk d p true cs => ownedAll cs ++ [(p, d)]

def ownedAll : List (Node α) → List (Nat × α)
  | [] => []
  | c :: cs => owned c ++ ownedAll cs

end

/-! ## What each operation does -/

theorem ownedAll_append (cs cs' : List (Node α)) :
    ownedAll (cs ++ cs') = ownedAll cs ++ ownedAll cs' := by
  induction cs with
  | nil => rfl
  | cons c cs ih => rw [List.cons_append, ownedAll, ownedAll, ih, List.append_assoc]

theorem owned_dead {n : Node α} (h : n.live = false) : owned n = [] := by
  cases n with
  | mk d p b cs =>
      cases h
      rw [owned]

theorem mem_owned {n : Node α} (h : n.live = true) : (n.block, n.data) ∈ owned n := by
  rcases n with ⟨d, p, b, cs⟩
  cases h
  rw [owned]
  exact List.mem_append_right _ (List.mem_singleton_self _)

theorem mem_ownedAll {cs : List (Node α)} {c : Node α} (hc : c ∈ cs) {x : Nat × α}
    (hx : x ∈ owned c) : x ∈ ownedAll cs := by
  obtain ⟨l, l', rfl⟩ := List.append_of_mem hc
  rw [ownedAll_append, ownedAll]
  exact List.mem_append_right _ (List.mem_append_left _ hx)

/-- What is alive inside what is alive. -/
theorem mem_owned_child {n c : Node α} (h : n.live = true) (hc : c ∈ n.children) {x : Nat × α}
    (hx : x ∈ owned c) : x ∈ owned n := by
  rcases n with ⟨d, p, b, cs⟩
  cases h
  rw [owned]
  exact List.mem_append_left _ (mem_ownedAll hc hx)

theorem plans_eq (cs : List (Node α)) : plans cs = cs.map plan := by
  induction cs with
  | nil => rfl
  | cons c cs ih => rw [plans, ih, List.map_cons]

/-- What is alive in a list, when one of its structures is replaced. -/
theorem ownedAll_set {cs : List (Node α)} {i : Nat} {c : Node α} (h : cs[i]? = some c)
    {l : List (Nat × α)} {c' : Node α} (hp : (owned c).Perm (l ++ owned c')) :
    (ownedAll cs).Perm (l ++ ownedAll (cs.set i c')) := by
  induction cs generalizing i with
  | nil => exact absurd h (by simp)
  | cons x cs ih =>
      cases i with
      | zero =>
          cases h
          rw [List.set_cons_zero, ownedAll, ownedAll, ← List.append_assoc]
          exact hp.append_right _
      | succ i =>
          have hrest := ih (i := i) h
          rw [List.set_cons_succ, ownedAll, ownedAll]
          refine (hrest.append_left _).trans ?_
          rw [← List.append_assoc, ← List.append_assoc]
          exact List.perm_append_comm.append_right _

mutual

theorem build_spec {m : Memory β} {l : List (Nat × α)} (h : Holds content m l) (q : Plan α) :
    Holds content (build A content m q).1 (owned (build A content m q).2 ++ l)
      ∧ plan (build A content m q).2 = q ∧ (build A content m q).2.live = true := by
  cases q with
  | mk d qs =>
      obtain ⟨hall, hplans⟩ := buildAll_spec h qs
      rw [build]
      refine ⟨?_, ?_, rfl⟩
      · rw [owned]
        refine (hall.alloc (A.fresh _) d).perm ?_
        rw [List.append_assoc, List.singleton_append]
        exact (List.perm_middle).symm
      · rw [plan, hplans]

theorem buildAll_spec {m : Memory β} {l : List (Nat × α)} (h : Holds content m l)
    (qs : List (Plan α)) :
    Holds content (buildAll A content m qs).1 (ownedAll (buildAll A content m qs).2 ++ l)
      ∧ plans (buildAll A content m qs).2 = qs := by
  cases qs with
  | nil => exact ⟨h, rfl⟩
  | cons q qs =>
      obtain ⟨hone, hplan, -⟩ := build_spec h q
      obtain ⟨hall, hplans⟩ := buildAll_spec hone qs
      rw [buildAll, ownedAll, plans, hplan, hplans]
      refine ⟨hall.perm ?_, rfl⟩
      rw [← List.append_assoc]
      exact List.perm_append_comm.append_right _

end

variable {content}

mutual

/-- **A release gives back what is alive**, and nothing else. -/
theorem release_spec {m : Memory β} {l : List (Nat × α)} (n : Node α)
    (h : Holds content m (owned n ++ l)) :
    ∃ m' n', release m n = some (m', n') ∧ Holds content m' l ∧ n'.live = false
      ∧ plan n' = plan n := by
  rcases n with ⟨d, p, b, cs⟩
  cases b with
  | false =>
      rw [owned] at h
      exact ⟨m, _, rfl, h, rfl, rfl⟩
  | true =>
      rw [owned, List.append_assoc] at h
      obtain ⟨m₁, cs', hcs, hrest, hplans⟩ := releaseAll_spec cs h
      obtain ⟨m₂, hfree, hm₂⟩ := Holds.free hrest
      refine ⟨m₂, .mk d p false cs', ?_, hm₂, rfl, ?_⟩
      · rw [release, hcs, Option.bind_some, hfree]
        rfl
      · rw [plan, plan, hplans]

theorem releaseAll_spec {m : Memory β} {l : List (Nat × α)} (cs : List (Node α))
    (h : Holds content m (ownedAll cs ++ l)) :
    ∃ m' cs', releaseAll m cs = some (m', cs') ∧ Holds content m' l ∧ plans cs' = plans cs := by
  cases cs with
  | nil => exact ⟨m, [], rfl, h, rfl⟩
  | cons c cs =>
      rw [ownedAll, List.append_assoc] at h
      obtain ⟨m₁, c', hc, hm₁, -, hplan⟩ := release_spec c h
      obtain ⟨m₂, cs', hcs, hm₂, hplans⟩ := releaseAll_spec cs hm₁
      refine ⟨m₂, c' :: cs', ?_, hm₂, ?_⟩
      · rw [releaseAll, hc, Option.bind_some, hcs]
        rfl
      · rw [plans, plans, hplan, hplans]

end

/-- **What is moved out is owned once**, where it is now. -/
theorem moveOut_spec {path : List Nat} : ∀ {n n' x : Node α}, moveOut n path = some (n', x) →
    (owned n).Perm (owned x ++ owned n') ∧ plan n' = plan n ∧ Part (plan x) (plan n)
      ∧ x.live = true := by
  induction path with
  | nil =>
      intro n n' x h
      rcases n with ⟨d, p, b, cs⟩
      cases b with
      | false => exact nomatch h
      | true =>
          cases h
          refine ⟨?_, rfl, Part.self _, rfl⟩
          rw [owned_dead (n := .mk d p false cs) rfl, List.append_nil]
  | cons i path ih =>
      intro n n' x h
      rcases n with ⟨d, p, b, cs⟩
      cases b with
      | false => exact nomatch h
      | true =>
          rw [moveOut] at h
          cases hc : cs[i]? with
          | none =>
              rw [hc] at h
              exact nomatch h
          | some c =>
              rw [hc] at h
              obtain ⟨⟨c', y⟩, hmove, heq⟩ := Option.map_eq_some_iff.mp h
              obtain ⟨rfl, rfl⟩ := Prod.mk.inj heq
              obtain ⟨hperm, hplan, hpart, hlive⟩ := ih hmove
              obtain ⟨hlt, hget⟩ := List.getElem?_eq_some_iff.mp hc
              refine ⟨?_, ?_, ?_, hlive⟩
              · rw [owned, owned, ← List.append_assoc]
                exact (ownedAll_set hc hperm).append_right _
              · rw [plan, plan, plans_eq, plans_eq, List.map_set, hplan, ← hget]
                congr 1
                rw [← List.getElem_map plan (h := by simpa using hlt), List.set_getElem_self]
              · rw [plan, plans_eq]
                refine Part.inside ?_ hpart
                rw [← hget]
                exact List.mem_map_of_mem (List.getElem_mem hlt)

/-! ## A consumer -/

/-- What happens to the structures that a consumer holds. -/
inductive Event (α : Type) where
  | build (q : Plan α)
  | release (i : Nat)
  | move (i : Nat) (path : List Nat)

structure Pool (α β : Type) where
  memory : Memory β := ∅
  held : List (Node α) := []

/-- One event: none, where a block is given back that is not taken. What cannot be done
because nothing alive is there is not done. -/
def step (A : Allocator β) (content : α → β) (s : Pool α β) : Event α → Option (Pool α β)
  | .build q =>
      let r := build A content s.memory q
      some { memory := r.1, held := s.held ++ [r.2] }
  | .release i =>
      match s.held[i]? with
      | none => some s
      | some n => (release s.memory n).map fun r => { memory := r.1, held := s.held.set i r.2 }
  | .move i path =>
      match s.held[i]? with
      | none => some s
      | some n =>
          match moveOut n path with
          | none => some s
          | some r => some { s with held := s.held.set i r.1 ++ [r.2] }

def run (A : Allocator β) (content : α → β) (es : List (Event α)) (s : Pool α β) :
    Option (Pool α β) :=
  es.foldlM (step A content) s

/-- What has been built. -/
def built (es : List (Event α)) : List (Plan α) :=
  es.filterMap fun
    | .build q => some q
    | _ => none

/-- **What holds in every run**, of the plans `qs` that have been built. -/
structure Safe (content : α → β) (qs : List (Plan α)) (s : Pool α β) : Prop where
  memory : Holds content s.memory (ownedAll s.held)
  origin : ∀ n ∈ s.held, ∃ q ∈ qs, Part (plan n) q

namespace Safe

variable {qs : List (Plan α)} {s : Pool α β}

theorem start : Safe content [] ({} : Pool α β) where
  memory := Holds.empty
  origin := fun _ h => absurd h List.not_mem_nil

theorem build (h : Safe content qs s) (A : Allocator β) (q : Plan α) :
    ∃ s', step A content s (.build q) = some s' ∧ Safe content (qs ++ [q]) s' := by
  obtain ⟨hmem, hplan, -⟩ := build_spec A content h.memory q
  refine ⟨_, rfl, ?_, ?_⟩
  · rw [ownedAll_append, ownedAll, ownedAll, List.append_nil]
    exact hmem.perm List.perm_append_comm
  · intro n hn
    rcases List.mem_append.mp hn with hn | hn
    · obtain ⟨q', hq', hpart⟩ := h.origin n hn
      exact ⟨q', List.mem_append_left _ hq', hpart⟩
    · rw [List.mem_singleton.mp hn, hplan]
      exact ⟨q, List.mem_append_right _ (List.mem_singleton_self q), Part.self q⟩

theorem release (h : Safe content qs s) (A : Allocator β) (i : Nat) :
    ∃ s', step A content s (.release i) = some s' ∧ Safe content qs s' := by
  cases hi : s.held[i]? with
  | none =>
      refine ⟨s, ?_, h⟩
      rw [step, hi]
  | some n =>
      have hgone : owned (.mk n.data n.block false n.children : Node α) = [] := owned_dead rfl
      have hsplit := ownedAll_set hi (by rw [hgone, List.append_nil] : (owned n).Perm
        (owned n ++ owned (.mk n.data n.block false n.children)))
      obtain ⟨m', n', hrel, hm', hdead, hplan⟩ := release_spec n (h.memory.perm hsplit)
      have hset := ownedAll_set hi (by rw [owned_dead hdead, List.append_nil] : (owned n).Perm
        (owned n ++ owned n'))
      refine ⟨{ memory := m', held := s.held.set i n' }, ?_, ?_, ?_⟩
      · rw [step, hi]
        dsimp only
        rw [hrel]
        rfl
      · exact hm'.perm ((List.perm_append_left_iff _).mp (hsplit.symm.trans hset))
      · intro x hx
        rcases List.mem_or_eq_of_mem_set hx with hx | rfl
        · exact h.origin x hx
        · rw [hplan]
          exact h.origin n (List.mem_of_getElem? hi)

theorem move (h : Safe content qs s) (A : Allocator β) (i : Nat) (path : List Nat) :
    ∃ s', step A content s (.move i path) = some s' ∧ Safe content qs s' := by
  cases hi : s.held[i]? with
  | none =>
      refine ⟨s, ?_, h⟩
      rw [step, hi]
  | some n =>
      cases hmove : moveOut n path with
      | none =>
          refine ⟨s, ?_, h⟩
          rw [step, hi]
          dsimp only
          rw [hmove]
      | some r =>
          obtain ⟨n', x⟩ := r
          obtain ⟨hperm, hplan, hpart, -⟩ := moveOut_spec hmove
          refine ⟨{ s with held := s.held.set i n' ++ [x] }, ?_, ?_, ?_⟩
          · rw [step, hi]
            dsimp only
            rw [hmove]
          · rw [ownedAll_append, ownedAll, ownedAll, List.append_nil]
            exact h.memory.perm ((ownedAll_set hi hperm).trans List.perm_append_comm)
          · intro y hy
            obtain ⟨q, hq, hn⟩ := h.origin n (List.mem_of_getElem? hi)
            rcases List.mem_append.mp hy with hy | hy
            · rcases List.mem_or_eq_of_mem_set hy with hy | rfl
              · exact h.origin y hy
              · rw [hplan]
                exact ⟨q, hq, hn⟩
            · rw [List.mem_singleton.mp hy]
              exact ⟨q, hq, hpart.trans hn⟩

/-- **One event.** -/
theorem step (h : Safe content qs s) (A : Allocator β) (e : Event α) :
    ∃ s', OwnedTree.step A content s e = some s' ∧ Safe content (qs ++ built [e]) s' := by
  cases e with
  | build q => exact h.build A q
  | release i =>
      obtain ⟨s', hstep, hs'⟩ := h.release A i
      exact ⟨s', hstep, (List.append_nil qs).symm ▸ hs'⟩
  | move i path =>
      obtain ⟨s', hstep, hs'⟩ := h.move A i path
      exact ⟨s', hstep, (List.append_nil qs).symm ▸ hs'⟩

/-- **Every run is safe.** -/
theorem run (h : Safe content qs s) (A : Allocator β) (es : List (Event α)) :
    ∃ s', OwnedTree.run A content es s = some s' ∧ Safe content (qs ++ built es) s' := by
  induction es generalizing qs s with
  | nil => exact ⟨s, rfl, (List.append_nil qs).symm ▸ h⟩
  | cons e es ih =>
      obtain ⟨s₁, hstep, hs₁⟩ := h.step A e
      obtain ⟨s', hrun, hs'⟩ := ih hs₁
      refine ⟨s', ?_, ?_⟩
      · unfold OwnedTree.run
        rw [List.foldlM_cons, hstep]
        exact hrun
      · rw [List.append_assoc] at hs'
        have hbuilt : built [e] ++ built es = built (e :: es) := (List.filterMap_append).symm
        rw [← hbuilt]
        exact hs'

/-- What is alive is in memory as it was made. -/
theorem lookup (h : Safe content qs s) {n : Node α} (hn : n ∈ s.held) {p : Nat} {d : α}
    (hx : (p, d) ∈ owned n) : s.memory.lookup p = some (content d) :=
  h.memory.lookup (mem_ownedAll hn hx)

/-- When all is dead, nothing is left behind. -/
theorem empty (h : Safe content qs s) (hdead : ∀ n ∈ s.held, n.live = false) : s.memory = ∅ := by
  have hnone : ∀ l : List (Node α), (∀ n ∈ l, n.live = false) → ownedAll l = [] := by
    intro l
    induction l with
    | nil => exact fun _ => rfl
    | cons n l ih =>
        intro hall
        rw [ownedAll, owned_dead (hall n List.mem_cons_self),
          ih fun x hx => hall x (List.mem_cons_of_mem _ hx)]
        rfl
  have hmem := h.memory
  rw [hnone _ hdead] at hmem
  exact hmem.eq_empty

end Safe

end OwnedTree
