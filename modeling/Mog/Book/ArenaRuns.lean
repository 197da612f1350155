import Mog.Book.ArenaProof

/-!
# The life of a handle

What the arena's handles stand for along a whole run: a slot's generation counts its
releases, so a handle kept past its slot's release names a generation that is gone, and no
handle is handed out twice while no slot has been released `2 ^ 32` times.

A history lists what was acquired, released and stored. Its invariant, `Tracks`, ties the
generation of every slot to the number of its releases and the value of every live slot to the
last store through its handle. Acquiring, releasing and storing each keep it, and a handle that
the history has released is told apart by a generation that has moved on.
-/

namespace Mog

namespace Arena

variable {α : Type}

/-! ## Runs -/

/-- A call on an arena. -/
inductive Call (α : Type) where
  | acquire (v : α)
  | release (h : GenHandle)
  /-- An assignment through `at(h)`. -/
  | assign (h : GenHandle) (v : α)

/-- What a call leaves in the history of a run. -/
inductive Event (α : Type) where
  | acquired (h : GenHandle) (v : α)
  | exhausted
  | released (h : GenHandle)
  | assigned (h : GenHandle) (v : α)

/-- The contract on a call's arguments: only valid handles are released or written through. -/
def Call.Legal (a : Arena α) : Call α → Prop
  | .acquire _ => True
  | .release h => a.valid h
  | .assign h _ => a.valid h

instance (a : Arena α) (c : Call α) : Decidable (c.Legal a) := by
  cases c <;> unfold Call.Legal <;> infer_instance

def call [Inhabited α] (a : Arena α) : Call α → Arena α × Event α
  | .acquire v =>
      ((a.acquire v).2, if (a.acquire v).1.isNull then .exhausted else .acquired (a.acquire v).1 v)
  | .release h => (a.release h, .released h)
  | .assign h v => (a.modify h.index (fun _ => v), .assigned h v)

/-- The histories of an arena of `capacity` slots, oldest event first. -/
inductive Runs [Inhabited α] (capacity : Nat) : List (Event α) → Arena α → Prop where
  | start : Runs capacity [] (init capacity)
  | call {es : List (Event α)} {a : Arena α} (h : Runs capacity es a) (c : Call α)
      (hc : c.Legal a) : Runs capacity (es ++ [(a.call c).2]) (a.call c).1

/-! ## What a history says -/

def Event.handle? : Event α → Option GenHandle
  | .acquired h _ => some h
  | _ => none

/-- The handles ever handed out. -/
def handedOut (es : List (Event α)) : List GenHandle := es.filterMap Event.handle?

def Event.frees (i : Nat) : Event α → Bool
  | .released h => h.index = i
  | _ => false

/-- How often slot `i` has been released. -/
def releasesOf (i : Nat) (es : List (Event α)) : Nat := es.countP (Event.frees i)

def Event.live (l : List GenHandle) : Event α → List GenHandle
  | .acquired h _ => h :: l
  | .released h => l.erase h
  | _ => l

/-- The handles handed out and not released since, newest first. -/
def liveHandles (es : List (Event α)) : List GenHandle := es.foldl Event.live []

def Event.store (h : GenHandle) (x : α) : Event α → α
  | .assigned h' v => if h' = h then v else x
  | _ => x

/-- What the history stores through `h` over `v`. -/
def stored (h : GenHandle) (v : α) (es : List (Event α)) : α := es.foldl (Event.store h) v

/-- `h` was handed out to hold `v`, and `post` is what has happened since. -/
def Since (es : List (Event α)) (h : GenHandle) (v : α) (post : List (Event α)) : Prop :=
  ∃ pre, es = pre ++ .acquired h v :: post

section Histories

variable {es post : List (Event α)} {e : Event α} {h : GenHandle} {v : α} {i : Nat}

theorem handedOut_append (es : List (Event α)) (e : Event α) :
    handedOut (es ++ [e]) = handedOut es ++ e.handle?.toList := by
  rw [handedOut, List.filterMap_append, handedOut]
  cases he : e.handle? <;> simp [he]

theorem releasesOf_append (i : Nat) (es : List (Event α)) (e : Event α) :
    releasesOf i (es ++ [e]) = releasesOf i es + if e.frees i then 1 else 0 := by
  rw [releasesOf, List.countP_append, releasesOf, List.countP_singleton]

theorem liveHandles_append (es : List (Event α)) (e : Event α) :
    liveHandles (es ++ [e]) = e.live (liveHandles es) := by
  rw [liveHandles, List.foldl_append]
  rfl

theorem stored_append (h : GenHandle) (v : α) (es : List (Event α)) (e : Event α) :
    stored h v (es ++ [e]) = e.store h (stored h v es) := by
  rw [stored, List.foldl_append]
  rfl

theorem Since.mem (hs : Since es h v post) : h ∈ handedOut es := by
  obtain ⟨pre, rfl⟩ := hs
  rw [handedOut, List.filterMap_append]
  exact List.mem_append_right _ List.mem_cons_self

theorem since_of_mem (hm : h ∈ handedOut es) : ∃ v post, Since es h v post := by
  obtain ⟨e, he, hh⟩ := List.mem_filterMap.mp hm
  cases e with
  | acquired h' v =>
      cases hh
      obtain ⟨pre, post, hes⟩ := List.append_of_mem he
      exact ⟨v, post, pre, hes⟩
  | exhausted | released | assigned => cases hh

/-- A live handle has been handed out. -/
theorem mem_handedOut (hm : h ∈ liveHandles es) : h ∈ handedOut es := by
  induction es using List.reverseRecOn with
  | nil => exact absurd hm List.not_mem_nil
  | append_singleton es e ih =>
      rw [liveHandles_append] at hm
      rw [handedOut_append, List.mem_append]
      cases e with
      | acquired h' v =>
          rcases List.mem_cons.mp hm with rfl | hm
          · exact Or.inr List.mem_cons_self
          · exact Or.inl (ih hm)
      | released h' => exact Or.inl (ih (List.mem_of_mem_erase hm))
      | exhausted | assigned => exact Or.inl (ih hm)

/-- What has happened since, one event on. -/
theorem since_append (hs : Since (es ++ [e]) h v post) :
    (e = .acquired h v ∧ post = []) ∨ ∃ post', post = post' ++ [e] ∧ Since es h v post' := by
  obtain ⟨pre, heq⟩ := hs
  rcases List.eq_nil_or_concat post with rfl | ⟨post', x, rfl⟩
  · obtain ⟨_, h2⟩ := List.append_inj' heq rfl
    exact Or.inl ⟨List.head_eq_of_cons_eq h2, rfl⟩
  · rw [List.concat_eq_append, ← List.cons_append, ← List.append_assoc] at heq
    obtain ⟨h1, h2⟩ := List.append_inj' heq rfl
    rw [List.head_eq_of_cons_eq h2, List.concat_eq_append]
    exact Or.inr ⟨post', rfl, pre, h1⟩

end Histories

/-! ## The invariant of a run -/

/-- The arena `a` against the history `es` that has led to it. -/
structure Tracks (es : List (Event α)) (a : Arena α) : Prop where
  inv : ∃ fl, a.Inv fl
  generation : ∀ i, (a.slots i).generation = releasesOf i es
  unused : ∀ i, a.watermark ≤ i → releasesOf i es = 0
  once : (handedOut es).Nodup
  nodup : (liveHandles es).Nodup
  valid : ∀ h, a.valid h ↔ h ∈ liveHandles es
  /-- A handle that is not live any more names a generation that is gone. -/
  stale : ∀ h ∈ handedOut es, h ∉ liveHandles es → h.generation < releasesOf h.index es
  since : ∀ h v post, Since es h v post →
    (h ∈ liveHandles es ↔ .released h ∉ post) ∧ (h ∈ liveHandles es → a.deref h = stored h v post)
  count : a.liveCount = (liveHandles es).length

section Steps

variable {es : List (Event α)} {a a' : Arena α} {h : GenHandle} {v : α} {fl : List Nat}

theorem tracks_start [Inhabited α] {capacity : Nat} (hc : capacity < kNullIndex) :
    Tracks [] (init capacity : Arena α) where
  inv := ⟨[], inv_init hc⟩
  generation _ := rfl
  unused _ _ := rfl
  once := List.nodup_nil
  nodup := List.nodup_nil
  valid _ := iff_of_false (fun hv => Bool.noConfusion hv.2.1) List.not_mem_nil
  stale _ hh := absurd hh List.not_mem_nil
  since _ _ _ hs := absurd hs.mem List.not_mem_nil
  count := rfl

theorem valid_inj {h' : GenHandle} (hv : a.valid h) (hv' : a.valid h') (hi : h.index = h'.index) :
    h = h' := by
  have hg : h.generation = h'.generation := by rw [← hv.2.2, ← hv'.2.2, hi]
  cases h
  cases h'
  simp_all

/-- A slot is handed out in the generation it has. -/
theorem acquire_generation [Inhabited α] (hunused : ∀ i, a.watermark ≤ i → (a.slots i).generation = 0)
    (hnull : ¬ (a.acquire v).1.isNull) :
    (a.acquire v).1.generation = (a.slots (a.acquire v).1.index).generation
      ∧ a.watermark ≤ (a.acquire v).2.watermark := by
  unfold acquire at hnull ⊢
  split
  · rename_i hhead
    rw [if_pos hhead] at hnull
    split
    · rename_i hfull
      rw [if_pos hfull] at hnull
      exact absurd rfl hnull
    · exact ⟨(hunused _ (Nat.le_refl _)).symm, Nat.le_succ _⟩
  · exact ⟨rfl, Nat.le_refl _⟩

theorem isNull_iff [Inhabited α] (h : a.Inv fl) (v : α) :
    (a.acquire v).1.isNull ↔ a.liveCount = a.capacity := by
  constructor
  · intro hnull
    by_contra hne
    have hle := h.liveCount_le
    exact (acquire_spec h (by omega) v).1 hnull
  · intro hfull
    rw [acquire_full h hfull]
    rfl

/-- **A slot handed out.** -/
theorem Tracks.acquired [Inhabited α] (ht : Tracks es a) (hnull : ¬ (a.acquire v).1.isNull) :
    Tracks (es ++ [.acquired (a.acquire v).1 v]) (a.acquire v).2 := by
  obtain ⟨fl, hinv⟩ := ht.inv
  have hroom : a.liveCount < a.capacity := by
    have hle := hinv.liveCount_le
    have hne := mt (isNull_iff hinv v).mpr hnull
    omega
  have hacq := (acquire_spec hinv hroom v).2
  have hzero : ∀ i, a.watermark ≤ i → (a.slots i).generation = 0 := fun i hi => by
    rw [ht.generation, ht.unused i hi]
  obtain ⟨hgen, hmark⟩ := acquire_generation hzero hnull
  generalize (a.acquire v).1 = h at *
  generalize (a.acquire v).2 = a' at *
  obtain ⟨fl', hinv'⟩ := hacq.inv
  have hdead : ¬ a.valid h := fun hv => by
    have := hv.2.1
    rw [hacq.fresh] at this
    exact Bool.noConfusion this
  have hnew : h ∉ liveHandles es := fun hm => hdead ((ht.valid h).mpr hm)
  -- a stale handle of this slot would name an older generation
  have hfresh : h ∉ handedOut es := fun hm => by
    have := ht.stale h hm hnew
    rw [hgen, ht.generation] at this
    exact Nat.lt_irrefl _ this
  have hrel : ∀ i, releasesOf i (es ++ [.acquired h v]) = releasesOf i es := fun i => by
    rw [releasesOf_append]
    rfl
  have hlive : liveHandles (es ++ [.acquired h v]) = h :: liveHandles es := liveHandles_append _ _
  have hvalid : ∀ h', a'.valid h' ↔ h' = h ∨ a.valid h' := by
    intro h'
    by_cases hi : h'.index = h.index
    · have hself : a'.valid h := ⟨hinv'.lt_capacity hacq.live, hacq.live, hacq.generation⟩
      refine ⟨fun hv => Or.inl (valid_inj hv hself hi), ?_⟩
      rintro (rfl | hv)
      · exact hself
      · have := hv.2.1
        rw [hi, hacq.fresh] at this
        exact Bool.noConfusion this
    · unfold Arena.valid
      rw [hacq.frame _ hi, hacq.capacity]
      exact (or_iff_right (fun he => hi (congrArg GenHandle.index he))).symm
  refine { inv := hacq.inv, generation := ?_, unused := ?_, once := ?_, nodup := ?_, valid := ?_,
           stale := ?_, since := ?_, count := ?_ }
  · intro i
    rw [hrel, ← ht.generation]
    by_cases hi : i = h.index
    · rw [hi, hacq.generation, hgen]
    · rw [hacq.frame i hi]
  · intro i hi
    rw [hrel]
    exact ht.unused i (Nat.le_trans hmark hi)
  · rw [handedOut_append]
    exact List.nodup_append.mpr ⟨ht.once, List.nodup_singleton _, fun x hx y hy he =>
      hfresh (by rw [← List.mem_singleton.mp hy, ← he]; exact hx)⟩
  · rw [hlive]
    exact List.nodup_cons.mpr ⟨hnew, ht.nodup⟩
  · intro h'
    rw [hlive, hvalid, ht.valid, List.mem_cons]
  · intro h' hh' hno
    rw [hlive, List.mem_cons, not_or] at hno
    rw [hrel]
    rw [handedOut_append] at hh'
    rcases List.mem_append.mp hh' with hm | hm
    · exact ht.stale h' hm hno.2
    · exact absurd (List.mem_singleton.mp hm) hno.1
  · intro h' v' post hs
    rw [hlive, List.mem_cons]
    rcases since_append hs with ⟨he, rfl⟩ | ⟨post', rfl, hs'⟩
    · cases he
      exact ⟨iff_of_true (Or.inl rfl) List.not_mem_nil, fun _ => hacq.value⟩
    · have hne : h' ≠ h := fun he => hfresh (he ▸ hs'.mem)
      obtain ⟨h1, h2⟩ := ht.since h' v' post' hs'
      refine ⟨?_, fun hm => ?_⟩
      · rw [or_iff_right hne, h1]
        simp
      · have hm' := hm.resolve_left hne
        have hi : h'.index ≠ h.index := fun hi => by
          have := ((ht.valid h').mpr hm').2.1
          rw [hi, hacq.fresh] at this
          exact Bool.noConfusion this
        rw [stored_append, deref, atIndex, hacq.frame _ hi]
        exact h2 hm'
  · rw [hlive, hacq.count, ht.count, List.length_cons]

/-- **A slot released**: its generation is gone for good. -/
theorem Tracks.released (ht : Tracks es a) (hv : a.valid h)
    (hfew : releasesOf h.index (es ++ [.released h]) < 2 ^ 32) :
    Tracks (es ++ [.released h]) (a.release h) := by
  obtain ⟨fl, hinv⟩ := ht.inv
  have hrelease := release_spec h hinv hv.2.1
  have hslot : (a.release h).slots h.index
      = { a.slots h.index with
          live := false
          generation := ((a.slots h.index).generation + 1) % 2 ^ 32
          freeNext := a.freeHead } := Function.update_self ..
  have hmark : (a.release h).watermark = a.watermark := rfl
  generalize a.release h = a' at *
  have hmem := (ht.valid h).mp hv
  have hrel : ∀ i, releasesOf i (es ++ [.released h])
      = releasesOf i es + if h.index = i then 1 else 0 := fun i => by
    rw [releasesOf_append]
    simp [Event.frees]
  have hlive : ∀ h', h' ∈ liveHandles (es ++ [.released h]) ↔ h' ≠ h ∧ h' ∈ liveHandles es := by
    intro h'
    rw [liveHandles_append]
    exact ht.nodup.mem_erase_iff
  have hvalid : ∀ h', a'.valid h' ↔ h' ≠ h ∧ a.valid h' := by
    intro h'
    by_cases hi : h'.index = h.index
    · refine iff_of_false (fun hv' => ?_) (fun hh => hh.1 (valid_inj hh.2 hv hi))
      have := hv'.2.1
      rw [hi, hrelease.dead] at this
      exact Bool.noConfusion this
    · unfold Arena.valid
      rw [hrelease.frame _ hi, hrelease.capacity]
      exact (and_iff_right (fun he => hi (congrArg GenHandle.index he))).symm
  refine { inv := hrelease.inv, generation := ?_, unused := ?_, once := ?_, nodup := ?_, valid := ?_,
           stale := ?_, since := ?_, count := ?_ }
  · intro i
    by_cases hi : i = h.index
    · rw [hi] at *
      rw [hrel, if_pos rfl] at hfew ⊢
      rw [hslot]
      show ((a.slots h.index).generation + 1) % 2 ^ 32 = _
      rw [ht.generation]
      exact Nat.mod_eq_of_lt hfew
    · rw [hrelease.frame i hi, ht.generation, hrel, if_neg (fun he => hi he.symm), Nat.add_zero]
  · intro i hi
    have hlt := hinv.lt_watermark hv.2.1
    rw [hmark] at hi
    rw [hrel, ht.unused i hi, if_neg (by omega)]
  · rw [handedOut_append]
    exact (List.append_nil _).symm ▸ ht.once
  · rw [liveHandles_append]
    exact ht.nodup.erase h
  · intro h'
    rw [hvalid, hlive, ht.valid]
  · intro h' hh' hno
    rw [handedOut_append] at hh'
    rw [hrel]
    by_cases he : h' = h
    · -- it was live, in the slot's generation
      rw [he, if_pos rfl, ← hv.2.2, ht.generation]
      exact Nat.lt_succ_self _
    · have hold : h' ∉ liveHandles es := fun hm => hno ((hlive h').mpr ⟨he, hm⟩)
      have := ht.stale h' (List.append_nil (handedOut es) ▸ hh') hold
      omega
  · intro h' v' post hs
    rcases since_append hs with ⟨he, _⟩ | ⟨post', rfl, hs'⟩
    · cases he
    · obtain ⟨h1, h2⟩ := ht.since h' v' post' hs'
      rw [hlive, h1]
      refine ⟨by simp [eq_comm, and_comm], fun hm => ?_⟩
      have hm' := h1.mpr hm.2
      have hi : h'.index ≠ h.index := fun hi =>
        hm.1 (valid_inj ((ht.valid h').mpr hm') hv hi)
      rw [stored_append, deref, atIndex, hrelease.frame _ hi]
      exact h2 hm'
  · have hlen := List.length_erase_of_mem hmem
    have hpos := List.length_pos_of_mem hmem
    have hcount := hrelease.count
    rw [liveHandles_append]
    show a'.liveCount = ((liveHandles es).erase h).length
    rw [ht.count] at hcount
    omega

/-- A call that neither hands out a slot nor takes one back. -/
theorem Tracks.quiet {e : Event α} (ht : Tracks es a) (hshape : SameShape a a')
    (hhandle : e.handle? = none) (hfrees : ∀ i, e.frees i = false)
    (hstore : ∀ h ∈ liveHandles es, a'.deref h = e.store h (a.deref h)) :
    Tracks (es ++ [e]) a' := by
  obtain ⟨fl, hinv⟩ := ht.inv
  have hlive : liveHandles (es ++ [e]) = liveHandles es := by
    rw [liveHandles_append]
    cases e with
    | acquired h v => cases hhandle
    | released h => exact absurd (hfrees h.index) (by simp [Event.frees])
    | exhausted | assigned => rfl
  have hhanded : handedOut (es ++ [e]) = handedOut es := by
    rw [handedOut_append, hhandle]
    exact List.append_nil _
  have hrel : ∀ i, releasesOf i (es ++ [e]) = releasesOf i es := fun i => by
    rw [releasesOf_append, hfrees i]
    rfl
  refine { inv := ⟨fl, hinv.congr hshape⟩, generation := ?_, unused := ?_, once := ?_, nodup := ?_,
           valid := ?_, stale := ?_, since := ?_, count := ?_ }
  · intro i
    rw [hshape.generation, hrel, ht.generation]
  · intro i hi
    rw [hrel]
    exact ht.unused i (hshape.watermark ▸ hi)
  · rw [hhanded]
    exact ht.once
  · rw [hlive]
    exact ht.nodup
  · intro h
    rw [hlive, ← ht.valid]
    unfold Arena.valid
    rw [hshape.capacity, hshape.live, hshape.generation]
  · intro h hh hno
    rw [hhanded] at hh
    rw [hlive] at hno
    rw [hrel]
    exact ht.stale h hh hno
  · intro h v post hs
    rcases since_append hs with ⟨rfl, _⟩ | ⟨post', rfl, hs'⟩
    · cases hhandle
    · obtain ⟨h1, h2⟩ := ht.since h v post' hs'
      have hne : .released h ≠ e := fun he => by
        rw [← he] at hfrees
        exact absurd (hfrees h.index) (by simp [Event.frees])
      rw [hlive]
      refine ⟨by rw [h1, List.mem_append, List.mem_singleton, or_iff_left hne], fun hm => ?_⟩
      rw [stored_append, hstore h hm, h2 hm]
  · rw [hlive, hshape.liveCount]
    exact ht.count

/-- **A value stored** through a handle stays clear of every other. -/
theorem Tracks.assigned (ht : Tracks es a) (hv : a.valid h) (v : α) :
    Tracks (es ++ [.assigned h v]) (a.modify h.index (fun _ => v)) := by
  refine ht.quiet (sameShape_modify a h.index _) rfl (fun _ => rfl) (fun h' hm => ?_)
  rw [deref, modify_atIndex, Event.store]
  by_cases hi : h'.index = h.index
  · rw [if_pos hi, if_pos (valid_inj ((ht.valid h').mpr hm) hv hi).symm]
  · rw [if_neg hi, if_neg (fun he => hi (congrArg GenHandle.index he).symm)]
    rfl

end Steps

/-! ## Whole runs -/

section

variable [Inhabited α] {capacity : Nat} {es : List (Event α)} {a : Arena α}

theorem acquire_capacity (a : Arena α) (v : α) : (a.acquire v).2.capacity = a.capacity := by
  unfold acquire
  split
  · split <;> rfl
  · rfl

theorem Runs.capacity_eq (h : Runs capacity es a) : a.capacity = capacity := by
  induction h with
  | start => rfl
  | call h c hc ih =>
      cases c with
      | acquire v => exact (acquire_capacity _ v).trans ih
      | release h => exact ih
      | assign h v => exact ih

/-- **What a run keeps.** -/
theorem Runs.tracks (hcap : capacity < kNullIndex) (h : Runs capacity es a)
    (hfew : ∀ i, releasesOf i es < 2 ^ 32) : Tracks es a := by
  induction h with
  | start => exact tracks_start hcap
  | @call es a h c hc ih =>
      have ht := ih (fun i => Nat.lt_of_le_of_lt
        ((releasesOf_append i es _).symm ▸ Nat.le_add_right _ _) (hfew i))
      cases c with
      | acquire v =>
          by_cases hnull : (a.acquire v).1.isNull
          · -- nothing is left to hand out, and nothing changes
            obtain ⟨fl, hinv⟩ := ht.inv
            have hfull := acquire_full hinv ((isNull_iff hinv v).mp hnull) v
            have hcall : a.call (.acquire v) = (a, .exhausted) := by
              show ((a.acquire v).2, _) = _
              rw [if_pos hnull, hfull]
            rw [hcall]
            exact ht.quiet (SameShape.refl a) rfl (fun _ => rfl) (fun _ _ => rfl)
          · have hcall : a.call (.acquire v)
                = ((a.acquire v).2, .acquired (a.acquire v).1 v) := by
              show ((a.acquire v).2, _) = _
              rw [if_neg hnull]
            rw [hcall]
            exact ht.acquired hnull
      | release h => exact ht.released hc (hfew h.index)
      | assign h v => exact ht.assigned hc v

/-- Handles never alias: what a run's history says of a handle is what the arena says. -/
structure NoAlias (capacity : Nat) (es : List (Event α)) (a : Arena α) : Prop where
  /-- No handle is handed out twice. -/
  once : (handedOut es).Nodup
  valid : ∀ h v post, Since es h v post → (a.valid h ↔ .released h ∉ post)
  live : ∀ h, h ∈ liveHandles es ↔ ∃ v post, Since es h v post ∧ .released h ∉ post
  distinct : ∀ h ∈ liveHandles es, ∀ h' ∈ liveHandles es, h ≠ h' → h.index ≠ h'.index
  /-- A live handle holds what was last stored through it. -/
  value : ∀ h v post, Since es h v post → .released h ∉ post → a.deref h = stored h v post
  exhausted : ∀ v, (a.acquire v).1.isNull ↔ (liveHandles es).length = capacity
  nodup : (liveHandles es).Nodup
  count : a.liveCount = (liveHandles es).length

/-- **Handles never alias** along any run that releases no slot `2 ^ 32` times. -/
theorem handles_never_alias (hcap : capacity < kNullIndex) (h : Runs capacity es a)
    (hfew : ∀ i, releasesOf i es < 2 ^ 32) : NoAlias capacity es a := by
  have ht := h.tracks hcap hfew
  obtain ⟨fl, hinv⟩ := ht.inv
  refine { once := ht.once, valid := fun x v post hs => ?_, live := fun x => ?_,
           distinct := fun x hx y hy hne hi => ?_, value := fun x v post hs hno => ?_,
           exhausted := fun v => ?_, nodup := ht.nodup, count := ht.count }
  · rw [ht.valid, (ht.since x v post hs).1]
  · constructor
    · intro hx
      obtain ⟨v, post, hs⟩ := since_of_mem (mem_handedOut hx)
      exact ⟨v, post, hs, (ht.since x v post hs).1.mp hx⟩
    · rintro ⟨v, post, hs, hno⟩
      exact (ht.since x v post hs).1.mpr hno
  · exact hne (valid_inj ((ht.valid x).mpr hx) ((ht.valid y).mpr hy) hi)
  · obtain ⟨h1, h2⟩ := ht.since x v post hs
    exact h2 (h1.mpr hno)
  · rw [isNull_iff hinv v, ht.count, h.capacity_eq]

end

/-- A slot released and handed out again. -/
theorem handles_never_alias_reused :
    NoAlias 1 [.acquired ⟨0, 0⟩ 5, .assigned ⟨0, 0⟩ 6, .released ⟨0, 0⟩, .acquired ⟨0, 1⟩ 7, .exhausted]
      (((((init 1 : Arena Nat).call (.acquire 5)).1.call (.assign ⟨0, 0⟩ 6)).1.call
        (.release ⟨0, 0⟩)).1.call (.acquire 7)).1 := by
  have h1 : Runs 1 [.acquired ⟨0, 0⟩ 5] ((init 1 : Arena Nat).call (.acquire 5)).1 :=
    Runs.call .start (.acquire 5) trivial
  have h2 := h1.call (.assign ⟨0, 0⟩ 6) (by decide)
  have h3 := h2.call (.release ⟨0, 0⟩) (by decide)
  have h4 := h3.call (.acquire 7) trivial
  have h5 := h4.call (.acquire 8) trivial
  refine handles_never_alias (by decide) h5 (fun i => ?_)
  have hle : releasesOf i ([.acquired ⟨0, 0⟩ 5, .assigned ⟨0, 0⟩ 6, .released ⟨0, 0⟩,
      .acquired ⟨0, 1⟩ 7, .exhausted] : List (Event Nat)) ≤ 5 := List.countP_le_length
  exact Nat.lt_of_le_of_lt hle (by decide)

end Arena

end Mog
