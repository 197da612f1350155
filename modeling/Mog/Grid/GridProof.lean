import Mog.Grid.GridRunner

/-!
# Every task of a grid runs once

Whatever the order of the workers' accesses, no task is claimed by two of them, the task
function is called once for each task, and when the threads are joined the result of a task
stands at its place with its id. The runs are bounded by the grid.

The invariant follows a task through its life: not yet claimed, claimed by exactly one worker
that is at its call, its store or its label, or settled. The counter of the next task is what
separates the first from the rest, and it overshoots by at most one for each worker that has
left. A budget of four accesses a task and one a worker bounds the runs.
-/

namespace Mog

open Threads

namespace Grid

variable {returns : GridTask → GridResult → Prop} {tasks : List GridTask} {workers : Nat}
variable {g : Grid} {s : System (Fin workers) Grid WorkerPc}

/-! ## The log of the calls -/

theorem returned_call_self (idx : Nat) (r : GridResult) :
    ({ g with calls := g.calls ++ [(idx, r)] } : Grid).returned idx = g.returned idx ++ [r] := by
  unfold returned
  rw [List.filter_append, List.map_append]
  simp

theorem returned_call_other {idx j : Nat} (h : j ≠ idx) (r : GridResult) :
    ({ g with calls := g.calls ++ [(idx, r)] } : Grid).returned j = g.returned j := by
  unfold returned
  rw [List.filter_append, List.map_append]
  simp [Ne.symm h]

theorem mem_calls_of_returned {idx : Nat} {r : GridResult} (h : r ∈ g.returned idx) :
    (idx, r) ∈ g.calls := by
  obtain ⟨p, hp, hr⟩ := List.mem_map.mp h
  obtain ⟨hmem, hidx⟩ := List.mem_filter.mp hp
  have hfst : p.1 = idx := of_decide_eq_true hidx
  rw [← hfst, ← hr]
  exact hmem

/-! ## What holds between two accesses -/

/-- Where the result of a claimed task stands, by the place of the worker that claimed it. -/
def Holding (g : Grid) : WorkerPc → Prop
  | .fetch => True
  | .call idx => g.returned idx = []
  | .store idx r => g.returned idx = [r]
  | .label idx => ∃ r, g.returned idx = [r] ∧ g.results[idx]? = some r
  | .done => True

/-- The task has been called once and its result stands at its place. -/
def Settled (tasks : List GridTask) (g : Grid) (idx : Nat) : Prop :=
  ∃ task r, tasks[idx]? = some task ∧ g.returned idx = [r]
    ∧ g.results[idx]? = some (r.labelled task)

def leaver : WorkerPc → Nat
  | .done => 1
  | _ => 0

theorem leaver_le (p : WorkerPc) : leaver p ≤ 1 := by
  cases p <;> first | exact Nat.le_refl 1 | exact Nat.zero_le 1

theorem leaver_eq_zero {p : WorkerPc} (h : p ≠ .done) : leaver p = 0 := by
  cases p with
  | done => exact absurd rfl h
  | _ => rfl

theorem not_done_of_claim {p : WorkerPc} {idx : Nat} (h : p.claim = some idx) : p ≠ .done := by
  rintro rfl
  cases h

/-- The places of two workers: they have not claimed the same task. -/
def Foreign (a b : WorkerPc) : Prop := ∀ idx, a.claim = some idx → b.claim ≠ some idx

theorem Foreign.symm {a b : WorkerPc} (h : Foreign a b) : Foreign b a :=
  fun idx hb ha => h idx ha hb

/-- The bounds of a place: a claim is below the counter and inside the grid, and a worker
leaves past the end. -/
structure Within (tasks : List GridTask) (g : Grid) (p : WorkerPc) : Prop where
  claims : ∀ idx, p.claim = some idx → idx < g.nextIndex ∧ idx < tasks.length
  left : p = .done → tasks.length ≤ g.nextIndex

structure Inv (returns : GridTask → GridResult → Prop) (tasks : List GridTask)
    (s : System (Fin workers) Grid WorkerPc) : Prop where
  /-- The counter passes the grid once for each worker that left. -/
  counter : s.shared.nextIndex ≤ tasks.length + ∑ w, leaver (s.locals w)
  length : s.shared.results.length = tasks.length
  within : ∀ w, Within tasks s.shared (s.locals w)
  apart : s.Apart Foreign
  holding : ∀ w, s.shared.Holding (s.locals w)
  waiting : ∀ idx, s.shared.nextIndex ≤ idx → s.shared.returned idx = []
  progress : ∀ idx, idx < s.shared.nextIndex → idx < tasks.length →
    (∃ w, (s.locals w).claim = some idx) ∨ Settled tasks s.shared idx
  honest : ∀ idx r, (idx, r) ∈ s.shared.calls → ∃ task, tasks[idx]? = some task ∧ returns task r

theorem inv_start : Inv returns tasks (start tasks workers) where
  counter := Nat.zero_le _
  length := List.length_replicate
  within := fun _ => ⟨fun _ h => (by cases h), fun h => (by cases h)⟩
  apart := fun _ _ _ _ h => by cases h
  holding := fun _ => trivial
  waiting := fun _ _ => rfl
  progress := fun idx h => absurd h (Nat.not_lt_zero idx)
  honest := fun _ _ h => absurd h List.not_mem_nil

/-- A step that touches the result and the calls of one claimed task leaves the others' alone. -/
theorem Holding.other {g' : Grid} {idx : Nat} {p q : WorkerPc} (h : g.Holding q)
    (hp : p.claim = some idx) (hq : Foreign p q)
    (hcalls : ∀ j, j ≠ idx → g'.returned j = g.returned j)
    (hresults : ∀ j : Nat, j ≠ idx → g'.results[j]? = g.results[j]?) : g'.Holding q := by
  have hne : ∀ j, q.claim = some j → j ≠ idx := by
    intro j hj hji
    rw [hji] at hj
    exact hq idx hp hj
  cases q with
  | fetch => trivial
  | done => trivial
  | call j => exact (hcalls j (hne j rfl)).trans h
  | store j r => exact (hcalls j (hne j rfl)).trans h
  | label j =>
      obtain ⟨r, hret, hres⟩ := h
      exact ⟨r, (hcalls j (hne j rfl)).trans hret, (hresults j (hne j rfl)).trans hres⟩

theorem Holding.returned_length {p : WorkerPc} {idx : Nat} (h : g.Holding p)
    (hp : p.claim = some idx) : (g.returned idx).length ≤ 1 := by
  cases p with
  | fetch | done => cases hp
  | call j =>
      obtain rfl : j = idx := Option.some.inj hp
      rw [show g.returned j = [] from h]
      exact Nat.zero_le 1
  | store j r =>
      obtain rfl : j = idx := Option.some.inj hp
      rw [show g.returned j = [r] from h]
      exact Nat.le_refl 1
  | label j =>
      obtain rfl : j = idx := Option.some.inj hp
      obtain ⟨r, hret, -⟩ := h
      rw [hret]
      exact Nat.le_refl 1

theorem Settled.other {g' : Grid} {idx j : Nat} (h : Settled tasks g j) (hne : j ≠ idx)
    (hcalls : ∀ j, j ≠ idx → g'.returned j = g.returned j)
    (hresults : ∀ j : Nat, j ≠ idx → g'.results[j]? = g.results[j]?) : Settled tasks g' j := by
  obtain ⟨task, r, ht, hret, hres⟩ := h
  exact ⟨task, r, ht, (hcalls j hne).trans hret, (hresults j hne).trans hres⟩

theorem Within.same {g' : Grid} {p : WorkerPc} (h : Within tasks g p)
    (hnext : g'.nextIndex = g.nextIndex) : Within tasks g' p := by
  obtain ⟨hclaims, hleft⟩ := h
  rw [← hnext] at hclaims hleft
  exact ⟨hclaims, hleft⟩

/-- The counter has moved on. -/
theorem Within.later {p : WorkerPc} (h : Within tasks g p) :
    Within tasks { g with nextIndex := g.nextIndex + 1 } p where
  claims := fun idx hidx => ⟨Nat.lt_succ_of_lt (h.claims idx hidx).1, (h.claims idx hidx).2⟩
  left := fun hd => Nat.le_succ_of_le (h.left hd)

/-! ## One access -/

theorem leavers_le (s : System (Fin workers) Grid WorkerPc) : ∑ w, leaver (s.locals w) ≤ workers := by
  have h := Finset.sum_le_card_nsmul Finset.univ (fun w => leaver (s.locals w)) 1
    fun w _ => leaver_le _
  simpa using h

theorem Inv.claim (h : Inv returns tasks s) (hsize : 2 * tasks.length < 2 ^ 64) {w : Fin workers}
    (hw : s.locals w = .fetch) (hlt : s.shared.nextIndex < tasks.length) :
    Inv returns tasks (s.after w
      { s.shared with nextIndex := (s.shared.nextIndex + 1) % 2 ^ 64 }
      (.call s.shared.nextIndex)) := by
  have hnext : (s.shared.nextIndex + 1) % 2 ^ 64 = s.shared.nextIndex + 1 :=
    Nat.mod_eq_of_lt (by omega)
  rw [hnext]
  refine
    { counter := ?_, length := h.length, within := ?_, apart := ?_, holding := ?_
      waiting := fun idx hidx => h.waiting idx (Nat.le_of_succ_le hidx), progress := ?_
      honest := h.honest }
  · show s.shared.nextIndex + 1 ≤ _
    omega
  · refine System.after_cases (P := fun _ => Within tasks _) ?_ fun v _ => (h.within v).later
    refine ⟨fun idx hidx => ?_, fun hd => (by cases hd)⟩
    obtain rfl : s.shared.nextIndex = idx := Option.some.inj hidx
    exact ⟨Nat.lt_succ_self _, hlt⟩
  · refine h.apart.after (fun _ _ => Foreign.symm) ?_
    intro v _ idx hidx hv
    obtain rfl : s.shared.nextIndex = idx := Option.some.inj hidx
    exact Nat.lt_irrefl _ ((h.within v).claims _ hv).1
  · refine System.after_cases (P := fun _ => Holding _) ?_ fun v _ => h.holding v
    exact h.waiting _ (Nat.le_refl _)
  · intro idx hidx htask
    rcases Nat.lt_succ_iff_lt_or_eq.mp hidx with hbelow | rfl
    · rcases h.progress idx hbelow htask with ⟨v, hv⟩ | hsettled
      · refine Or.inl ⟨v, ?_⟩
        have hvw : v ≠ w := fun hvw => by rw [hvw, hw] at hv; cases hv
        rw [System.after_other hvw]
        exact hv
      · exact Or.inr hsettled
    · exact Or.inl ⟨w, by rw [System.after_self]; rfl⟩

theorem Inv.leave (h : Inv returns tasks s) (hsize : 2 * tasks.length < 2 ^ 64)
    (hworkers : workers ≤ tasks.length) {w : Fin workers} (hw : s.locals w = .fetch)
    (hge : tasks.length ≤ s.shared.nextIndex) :
    Inv returns tasks (s.after w
      { s.shared with nextIndex := (s.shared.nextIndex + 1) % 2 ^ 64 } .done) := by
  have hsum := s.sum_after leaver w
    { s.shared with nextIndex := (s.shared.nextIndex + 1) % 2 ^ 64 } .done
  rw [hw] at hsum
  have hbound := leavers_le (s.after w
    { s.shared with nextIndex := (s.shared.nextIndex + 1) % 2 ^ 64 } WorkerPc.done)
  have hcounter := h.counter
  have hone : leaver .done = 1 := rfl
  have hzero : leaver .fetch = 0 := rfl
  have hnext : (s.shared.nextIndex + 1) % 2 ^ 64 = s.shared.nextIndex + 1 :=
    Nat.mod_eq_of_lt (by omega)
  rw [hnext] at hsum ⊢
  refine
    { counter := ?_, length := h.length, within := ?_, apart := ?_, holding := ?_
      waiting := fun idx hidx => h.waiting idx (Nat.le_of_succ_le hidx), progress := ?_
      honest := h.honest }
  · show s.shared.nextIndex + 1 ≤ _
    omega
  · refine System.after_cases (P := fun _ => Within tasks _) ?_ fun v _ => (h.within v).later
    exact ⟨fun _ hidx => (by cases hidx), fun _ => Nat.le_succ_of_le hge⟩
  · exact h.apart.after (fun _ _ => Foreign.symm) fun _ _ _ hidx => by cases hidx
  · exact System.after_cases (P := fun _ => Holding _) trivial fun v _ => h.holding v
  · intro idx _ htask
    rcases h.progress idx (Nat.lt_of_lt_of_le htask hge) htask with ⟨v, hv⟩ | hsettled
    · refine Or.inl ⟨v, ?_⟩
      have hvw : v ≠ w := fun hvw => by rw [hvw, hw] at hv; cases hv
      rw [System.after_other hvw]
      exact hv
    · exact Or.inr hsettled

/-- A step inside a task: the worker keeps its claim, or gives it up for a settled task. -/
theorem Inv.work (h : Inv returns tasks s) {w : Fin workers} {idx : Nat}
    (hw : (s.locals w).claim = some idx) {g' : Grid} {p : WorkerPc}
    (hnext : g'.nextIndex = s.shared.nextIndex) (hlength : g'.results.length = tasks.length)
    (hcalls : ∀ j, j ≠ idx → g'.returned j = s.shared.returned j)
    (hresults : ∀ j : Nat, j ≠ idx → g'.results[j]? = s.shared.results[j]?)
    (hhonest : ∀ j r, (j, r) ∈ g'.calls → ∃ task, tasks[j]? = some task ∧ returns task r)
    (hp : p.claim = some idx ∨ p = .fetch ∧ Settled tasks g' idx) (hhold : g'.Holding p) :
    Inv returns tasks (s.after w g' p) := by
  obtain ⟨hbelow, htask⟩ := (h.within w).claims idx hw
  have hdone : p ≠ .done := by
    rcases hp with hp | ⟨rfl, -⟩
    · exact not_done_of_claim hp
    · exact fun hd => by cases hd
  have hclaim : ∀ j, p.claim = some j → j = idx := by
    intro j hj
    rcases hp with hp | ⟨rfl, -⟩
    · exact Option.some.inj (hj.symm.trans hp)
    · cases hj
  -- The worker keeps to its task, which no other worker has claimed.
  have hforeign : ∀ v, v ≠ w → Foreign (s.locals w) (s.locals v) :=
    fun v hv => h.apart w v (Ne.symm hv)
  refine
    { counter := ?_, length := hlength, within := ?_, apart := ?_, holding := ?_
      waiting := ?_, progress := ?_, honest := hhonest }
  -- No index is handed out and nobody leaves, so the counter stands.
  · have hsum := s.sum_after leaver w g' p
    rw [leaver_eq_zero (not_done_of_claim hw), leaver_eq_zero hdone] at hsum
    have hcounter := h.counter
    show g'.nextIndex ≤ _
    omega
  · refine System.after_cases (P := fun _ => Within tasks g') ?_ fun v _ => (h.within v).same hnext
    refine ⟨fun j hj => ?_, fun hd => absurd hd hdone⟩
    rw [hnext, hclaim j hj]
    exact ⟨hbelow, htask⟩
  · refine h.apart.after (fun _ _ => Foreign.symm) ?_
    intro v hv j hj
    rw [hclaim j hj]
    exact hforeign v hv idx hw
  · exact System.after_cases (P := fun _ => g'.Holding) hhold fun v hv =>
      (h.holding v).other hw (hforeign v hv) hcalls hresults
  · show ∀ j, g'.nextIndex ≤ j → g'.returned j = []
    intro j hj
    rw [hnext] at hj
    rw [hcalls j (by omega)]
    exact h.waiting j hj
  -- The task is still claimed, or it is settled now; every other one is where it was.
  · show ∀ j, j < g'.nextIndex → _
    intro j hj hjtask
    rw [hnext] at hj
    by_cases hji : j = idx
    · rcases hp with hp | ⟨-, hsettled⟩
      · exact Or.inl ⟨w, by rw [System.after_self, hji]; exact hp⟩
      · exact Or.inr (hji ▸ hsettled)
    · rcases h.progress j hj hjtask with ⟨v, hv⟩ | hsettled
      · refine Or.inl ⟨v, ?_⟩
        have hvw : v ≠ w := fun hvw => hji (Option.some.inj (by rw [← hv, hvw, hw]))
        rw [System.after_other hvw]
        exact hv
      · exact Or.inr (hsettled.other hji hcalls hresults)

/-- **Every access keeps the invariant.** -/
theorem Inv.access (h : Inv returns tasks s) (hsize : 2 * tasks.length < 2 ^ 64)
    (hworkers : workers ≤ tasks.length) (w : Fin workers) (g' : Grid) (p : WorkerPc)
    (ha : Access returns tasks s.shared (s.locals w) g' p) :
    Inv returns tasks (s.after w g' p) := by
  generalize hpc : s.locals w = q at ha
  have hhold := h.holding w
  rw [hpc] at hhold
  cases ha with
  | claim hlt => exact h.claim hsize hpc hlt
  | leave hge => exact h.leave hsize hworkers hpc hge
  | call idx task r ht hr =>
      refine h.work (show (s.locals w).claim = some idx by rw [hpc]; rfl) rfl h.length
        (fun j hj => returned_call_other hj r) (fun _ _ => rfl) ?_ (Or.inl rfl) ?_
      · intro j r' hmem
        rcases List.mem_append.mp hmem with hold | hnew
        · exact h.honest j r' hold
        · obtain ⟨rfl, rfl⟩ := Prod.mk.inj (List.mem_singleton.mp hnew)
          exact ⟨task, ht, hr⟩
      · show Grid.returned _ idx = [r]
        rw [returned_call_self, show s.shared.returned idx = [] from hhold]
        rfl
  | store idx r =>
      have hidx : idx < s.shared.results.length := by
        rw [h.length]
        exact ((h.within w).claims idx (by rw [hpc]; rfl)).2
      refine h.work (show (s.locals w).claim = some idx by rw [hpc]; rfl) rfl ?_ (fun _ _ => rfl) ?_
        h.honest
        (Or.inl rfl) ⟨r, hhold, ?_⟩
      · rw [List.length_set]
        exact h.length
      · exact fun j hj => List.getElem?_set_ne (Ne.symm hj)
      · exact List.getElem?_set_self hidx
  | label idx task ht =>
      obtain ⟨r, hret, hres⟩ := hhold
      refine h.work (show (s.locals w).claim = some idx by rw [hpc]; rfl) rfl ?_ (fun _ _ => rfl) ?_
        h.honest
        (Or.inr ⟨rfl, task, r, ht, hret, ?_⟩) trivial
      · rw [List.length_modify]
        exact h.length
      · exact fun j hj => List.getElem?_modify_ne _ _ (Ne.symm hj)
      · rw [List.getElem?_modify_eq, hres]
        rfl

theorem inv_reachable (hsize : 2 * tasks.length < 2 ^ 64) (hworkers : workers ≤ tasks.length)
    (h : Reachable (Access returns tasks) (start tasks workers) s) : Inv returns tasks s :=
  h.keeps inv_start fun _ w g' p hi ha => hi.access hsize hworkers w g' p ha

/-- No task is called twice. -/
theorem Inv.returned_length (h : Inv returns tasks s) (idx : Nat) :
    (s.shared.returned idx).length ≤ 1 := by
  rcases Nat.lt_or_ge idx s.shared.nextIndex with hlt | hge
  · rcases Nat.lt_or_ge idx tasks.length with htask | hbeyond
    · rcases h.progress idx hlt htask with ⟨w, hw⟩ | ⟨task, r, -, hret, -⟩
      · exact (h.holding w).returned_length hw
      · rw [hret]
        exact Nat.le_refl 1
    · have hnone : s.shared.returned idx = [] := by
        refine List.eq_nil_iff_forall_not_mem.mpr fun r hr => ?_
        obtain ⟨task, ht, -⟩ := h.honest idx r (mem_calls_of_returned hr)
        rw [List.getElem?_eq_none hbeyond] at ht
        cases ht
      rw [hnone]
      exact Nat.zero_le 1
  · rw [h.waiting idx hge]
    exact Nat.zero_le 1

/-! ## How long a run is -/

/-- The accesses ahead of a worker before it has left, if it claims nothing more. -/
def ahead : WorkerPc → Nat
  | .fetch => 1
  | .call _ => 4
  | .store _ _ => 3
  | .label _ => 2
  | .done => 0

/-- The accesses that are left: four for a task that is not claimed, and those of the workers. -/
def budget (tasks : List GridTask) (s : System (Fin workers) Grid WorkerPc) : Nat :=
  4 * (tasks.length - s.shared.nextIndex) + ∑ w, ahead (s.locals w)

theorem budget_lt (hsize : 2 * tasks.length < 2 ^ 64) (hworkers : workers ≤ tasks.length)
    (h : Inv returns tasks s) {w : Fin workers} {g' : Grid} {p : WorkerPc}
    (ha : Access returns tasks s.shared (s.locals w) g' p) :
    budget tasks (s.after w g' p) < budget tasks s := by
  have hsum := s.sum_after ahead w g' p
  have hcounter := h.counter
  have hleavers := leavers_le s
  unfold budget
  rw [System.after_shared]
  generalize hold : s.locals w = q at ha hsum
  cases ha with
  | claim hlt =>
      have hnext : (s.shared.nextIndex + 1) % 2 ^ 64 = s.shared.nextIndex + 1 :=
        Nat.mod_eq_of_lt (by omega)
      have hfrom : ahead .fetch = 1 := rfl
      have hto : ahead (.call s.shared.nextIndex) = 4 := rfl
      show 4 * (tasks.length - (s.shared.nextIndex + 1) % 2 ^ 64) + _ < _
      omega
  | leave hge =>
      have hfrom : ahead .fetch = 1 := rfl
      have hto : ahead .done = 0 := rfl
      show 4 * (tasks.length - (s.shared.nextIndex + 1) % 2 ^ 64) + _ < _
      have hnext : (s.shared.nextIndex + 1) % 2 ^ 64 = s.shared.nextIndex + 1 :=
        Nat.mod_eq_of_lt (by omega)
      omega
  | call idx task r =>
      have hfrom : ahead (.call idx) = 4 := rfl
      have hto : ahead (.store idx r) = 3 := rfl
      dsimp only
      omega
  | store idx r =>
      have hfrom : ahead (.store idx r) = 3 := rfl
      have hto : ahead (.label idx) = 2 := rfl
      dsimp only
      omega
  | label idx =>
      have hfrom : ahead (.label idx) = 2 := rfl
      have hto : ahead .fetch = 1 := rfl
      dsimp only
      omega

/-- A worker that has not left can move, if the task function returns. -/
theorem exists_access (h : Inv returns tasks s) (hreturns : ∀ task ∈ tasks, ∃ r, returns task r)
    {w : Fin workers} (hw : s.locals w ≠ .done) :
    ∃ g' p, Access returns tasks s.shared (s.locals w) g' p := by
  have hwithin := h.within w
  generalize s.locals w = q at hw hwithin ⊢
  have htask : ∀ idx, q.claim = some idx → ∃ task, tasks[idx]? = some task := fun idx hidx =>
    ⟨_, List.getElem?_eq_getElem (hwithin.claims idx hidx).2⟩
  cases q with
  | fetch =>
      rcases Nat.lt_or_ge s.shared.nextIndex tasks.length with hlt | hge
      · exact ⟨_, _, .claim _ hlt⟩
      · exact ⟨_, _, .leave _ hge⟩
  | call idx =>
      obtain ⟨task, ht⟩ := htask idx rfl
      obtain ⟨r, hr⟩ := hreturns task (List.mem_of_getElem? ht)
      exact ⟨_, _, .call _ idx task r ht hr⟩
  | store idx r => exact ⟨_, _, .store _ idx r⟩
  | label idx =>
      obtain ⟨task, ht⟩ := htask idx rfl
      exact ⟨_, _, .label _ idx task ht⟩
  | done => exact absurd rfl hw

/-- Some order of the accesses joins the workers. -/
theorem exists_joined (hsize : 2 * tasks.length < 2 ^ 64) (hworkers : workers ≤ tasks.length)
    (hreturns : ∀ task ∈ tasks, ∃ r, returns task r) (s : System (Fin workers) Grid WorkerPc)
    (h : Reachable (Access returns tasks) (start tasks workers) s) :
    ∃ t, Reachable (Access returns tasks) (start tasks workers) t ∧ Joined t := by
  by_cases hjoined : Joined s
  · exact ⟨s, h, hjoined⟩
  · obtain ⟨w, hw⟩ := not_forall.mp hjoined
    have hi := inv_reachable hsize hworkers h
    obtain ⟨g', p, ha⟩ := exists_access hi hreturns hw
    have := budget_lt hsize hworkers hi ha
    exact exists_joined hsize hworkers hreturns _ (h.tail (.access w g' p ha))
termination_by budget tasks s

/-- **When the workers are joined, every task is settled.** -/
theorem Inv.joined (h : Inv returns tasks s) (hworker : 0 < workers) (hj : Joined s) {idx : Nat}
    (hidx : idx < tasks.length) : Settled tasks s.shared idx := by
  have hnext := (h.within ⟨0, hworker⟩).left (hj _)
  rcases h.progress idx (Nat.lt_of_lt_of_le hidx hnext) hidx with ⟨w, hw⟩ | hsettled
  · exact absurd (hj w) (not_done_of_claim hw)
  · exact hsettled

end Grid

/-! ## The grid as a whole -/

variable {returns : GridTask → GridResult → Prop} {tasks : List GridTask}

theorem ParallelGridRunner.workers_le (g : ParallelGridRunner) (tasks : List GridTask) :
    g.workers tasks ≤ tasks.length := Nat.min_le_right _ _

theorem ParallelGridRunner.workers_pos (g : ParallelGridRunner) (h : tasks ≠ []) :
    0 < g.workers tasks :=
  Nat.lt_min.mpr ⟨g.pos, List.length_pos_iff.mpr h⟩

/-- **Every task of a grid runs exactly once**, in every order of the workers' accesses. A vector
of tasks has fewer than half as many as a 64-bit number can count. -/
theorem grid_exact (g : ParallelGridRunner) (returns : GridTask → GridResult → Prop)
    (tasks : List GridTask) (hsize : 2 * tasks.length < 2 ^ 64) {n : Nat}
    {s : System (Fin (g.workers tasks)) Grid WorkerPc}
    (h : Runs (Grid.Access returns tasks) (Grid.start tasks (g.workers tasks)) n s) :
    -- the run is bounded by the grid, and does not stop early
    n ≤ 4 * tasks.length + g.workers tasks
    ∧ ((∀ task ∈ tasks, ∃ r, returns task r) → ¬ Joined s →
      ∃ t, Step (Grid.Access returns tasks) s t)
    -- two workers are never inside one task
    ∧ (∀ v w idx, (s.locals v).claim = some idx → (s.locals w).claim = some idx → v = w)
    -- no task is called twice, and the joined workers have called them all
    ∧ (∀ idx, (s.shared.returned idx).length ≤ 1)
    ∧ (tasks ≠ [] → Joined s → s.shared.results.length = tasks.length
      ∧ ∀ idx task, tasks[idx]? = some task → ∃ r, returns task r
        ∧ s.shared.returned idx = [r] ∧ s.shared.results[idx]? = some (r.labelled task)) := by
  have hworkers := g.workers_le tasks
  have hinv := Grid.inv_reachable hsize hworkers h.reachable
  refine ⟨?_, ?_, ?_, ?_, ?_⟩
  · have hrun := h.length_le (μ := Grid.budget tasks) fun s w g' p hs ha =>
      Grid.budget_lt hsize hworkers (Grid.inv_reachable hsize hworkers hs) ha
    have hstart : Grid.budget tasks (Grid.start tasks (g.workers tasks))
        = 4 * tasks.length + g.workers tasks := by
      simp [Grid.budget, Grid.start, Grid.ahead]
    omega
  · intro hreturns hjoined
    obtain ⟨w, hw⟩ := not_forall.mp hjoined
    obtain ⟨g', p, ha⟩ := Grid.exists_access hinv hreturns hw
    exact ⟨_, .access w g' p ha⟩
  · intro v w idx hv hw
    by_contra hvw
    exact hinv.apart v w hvw idx hv hw
  · exact hinv.returned_length
  · intro hne hjoined
    refine ⟨hinv.length, fun idx task ht => ?_⟩
    obtain ⟨hlt, -⟩ := List.getElem?_eq_some_iff.mp ht
    obtain ⟨task', r, ht', hret, hres⟩ := hinv.joined (g.workers_pos hne) hjoined hlt
    obtain rfl : task = task' := Option.some.inj (ht.symm.trans ht')
    have hmem : (idx, r) ∈ s.shared.calls :=
      Grid.mem_calls_of_returned (by rw [hret]; exact List.mem_singleton_self r)
    obtain ⟨task', ht', hr⟩ := hinv.honest idx r hmem
    obtain rfl : task = task' := Option.some.inj (ht.symm.trans ht')
    exact ⟨r, hr, hret, hres⟩

/-- A grid of three tasks, and two threads for it. -/
def threeTasks : List GridTask :=
  [7, 3, 5].map fun taskId =>
    { taskId
      config := { book := { arenaCapacity := 1, ladder := { loTick := 0, hiTick := 1, pagePool := 1 } } } }

def twoThreads : ParallelGridRunner := .init 2 1

/-- What a task function that counts its fills returns. -/
def countFills (task : GridTask) : GridResult := { taskId := 0, totalFills := task.taskId + 1 }

/-- Both workers have claimed a task. -/
def bothInside : System (Fin (twoThreads.workers threeTasks)) Grid WorkerPc :=
  let s := Grid.start threeTasks (twoThreads.workers threeTasks)
  (s.after ⟨0, by decide⟩ { s.shared with nextIndex := 1 } (.call 0)).after ⟨1, by decide⟩
    { s.shared with nextIndex := 2 } (.call 1)

theorem runs_bothInside : Runs (Grid.Access (GridTask.Returns countFills) threeTasks)
    (Grid.start threeTasks (twoThreads.workers threeTasks)) 2 bothInside := by
  let s := Grid.start threeTasks (twoThreads.workers threeTasks)
  have hfirst : Step (Grid.Access (GridTask.Returns countFills) threeTasks) s
      (s.after ⟨0, by decide⟩ { s.shared with nextIndex := 1 } (.call 0)) :=
    Step.access (⟨0, by decide⟩ : Fin (twoThreads.workers threeTasks)) _ _
      (Grid.Access.claim s.shared (by decide))
  have hsecond : Step (Grid.Access (GridTask.Returns countFills) threeTasks)
      (s.after ⟨0, by decide⟩ { s.shared with nextIndex := 1 } (.call 0)) bothInside :=
    Step.access (⟨1, by decide⟩ : Fin (twoThreads.workers threeTasks)) _ _
      (Grid.Access.claim { s.shared with nextIndex := 1 } (by decide))
  exact (Runs.start.step hfirst).step hsecond

/-- **Both workers inside**: the run goes on from there, ends after at most 14 accesses, and the
second task's result stands in the second place. -/
theorem grid_exact_threeTasks :
    (∃ t, Step (Grid.Access (GridTask.Returns countFills) threeTasks) bothInside t)
      ∧ ∃ n s, Runs (Grid.Access (GridTask.Returns countFills) threeTasks)
          (Grid.start threeTasks (twoThreads.workers threeTasks)) n s
        ∧ Joined s ∧ n ≤ 14 ∧ s.shared.results.length = 3
        ∧ s.shared.returned 1 = [{ taskId := 0, totalFills := 4 }]
        ∧ s.shared.results[1]? = some { taskId := 3, totalFills := 4 } := by
  have hreturns : ∀ task ∈ threeTasks, ∃ r, GridTask.Returns countFills task r :=
    fun task _ => ⟨countFills task, rfl⟩
  have hinside := grid_exact twoThreads _ threeTasks (by decide) runs_bothInside
  refine ⟨hinside.2.1 hreturns fun hjoined => absurd (hjoined ⟨0, by decide⟩) (by decide), ?_⟩
  obtain ⟨s, hs, hjoined⟩ := Grid.exists_joined (by decide) (twoThreads.workers_le threeTasks)
    hreturns _ runs_bothInside.reachable
  obtain ⟨n, hrun⟩ := hs.runs
  have hexact := grid_exact twoThreads _ threeTasks (by decide) hrun
  obtain ⟨hlength, hresults⟩ := hexact.2.2.2.2 (List.cons_ne_nil _ _) hjoined
  obtain ⟨r, rfl, hret, hres⟩ := hresults 1 _ rfl
  exact ⟨n, s, hrun, hjoined, hexact.1, hlength, hret, hres⟩

/-- **A parallel grid returns what a sequential one does**: for a task function without state, the
results in the order of the tasks, whatever the number of threads. -/
theorem runGrid_iff (g : ParallelGridRunner) (f : GridTask → GridResult) (tasks : List GridTask)
    (hsize : 2 * tasks.length < 2 ^ 64) (out : List GridResult) :
    RunGrid g (GridTask.Returns f) tasks out
      ↔ out = tasks.map fun task => (f task).labelled task := by
  unfold RunGrid
  by_cases hnil : tasks = []
  · rw [if_pos hnil, hnil]
    rfl
  · rw [if_neg hnil]
    have hresult : ∀ s, Reachable (Grid.Access (GridTask.Returns f) tasks)
        (Grid.start tasks (g.workers tasks)) s → Joined s →
        s.shared.results = tasks.map fun task => (f task).labelled task := by
      intro s hs hjoined
      have hinv := Grid.inv_reachable hsize (g.workers_le tasks) hs
      refine List.ext_getElem? fun idx => ?_
      rcases Nat.lt_or_ge idx tasks.length with hlt | hge
      · obtain ⟨task, r, ht, hret, hres⟩ := hinv.joined (g.workers_pos hnil) hjoined hlt
        obtain ⟨task', ht', hr⟩ := hinv.honest idx r
          (Grid.mem_calls_of_returned (by rw [hret]; exact List.mem_singleton_self r))
        obtain rfl : task = task' := Option.some.inj (ht.symm.trans ht')
        rw [hres, List.getElem?_map, ht, show r = f task from hr]
        rfl
      · rw [List.getElem?_eq_none (by rw [hinv.length]; exact hge),
          List.getElem?_eq_none (by rw [List.length_map]; exact hge)]
    constructor
    · rintro ⟨s, hs, hjoined, rfl⟩
      exact hresult s hs hjoined
    · rintro rfl
      have hreturns : ∀ task ∈ tasks, ∃ r, GridTask.Returns f task r := fun task _ => ⟨f task, rfl⟩
      obtain ⟨s, hs, hjoined⟩ := Grid.exists_joined hsize (g.workers_le tasks) hreturns _
        Relation.ReflTransGen.refl
      exact ⟨s, hs, hjoined, (hresult s hs hjoined).symm⟩

theorem runGrid_iff_threeTasks :
    RunGrid twoThreads (GridTask.Returns countFills) threeTasks
        [{ taskId := 7, totalFills := 8 }, { taskId := 3, totalFills := 4 },
          { taskId := 5, totalFills := 6 }]
      ∧ ¬ RunGrid twoThreads (GridTask.Returns countFills) threeTasks
        [{ taskId := 3, totalFills := 4 }, { taskId := 7, totalFills := 8 },
          { taskId := 5, totalFills := 6 }] := by
  have h := runGrid_iff twoThreads countFills threeTasks (by decide)
  exact ⟨(h _).mpr rfl, fun hrun => absurd ((h _).mp hrun) (by decide)⟩

end Mog
