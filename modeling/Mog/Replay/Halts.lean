import Mog.Replay.Trades

/-!
# Halt windows against the history of trading actions

The windows of all locates share one list, and each locate keeps the positions of its own.
Per locate they say what the actions said: the locate is halted from a halt or a pause to
the next resumption.

`Indexed` says that the positions kept for a locate are those of its windows, in order, and
`Timeline` that the windows say what the actions said. A halt of a halted locate adds nothing, a
resumption ends every open window of its locate, and an action of another locate is not seen.
-/

namespace Mog

namespace Session

/-- A trading action as the feed delivers it. -/
structure Action where
  locate : Nat
  state : UInt8
  reason : List UInt8
  tsNs : Nat

/-- `H` or `P`. -/
def Action.Halts (a : Action) : Prop := a.state = 72 ∨ a.state = 80

instance (a : Action) : Decidable a.Halts := inferInstanceAs (Decidable (_ ∨ _))

/-- `T`. -/
def Action.Resumes (a : Action) : Prop := a.state = 84

instance (a : Action) : Decidable a.Resumes := inferInstanceAs (Decidable (_ = _))

/-- The action says whether the locate trades. -/
def Action.Speaks (locate : Nat) (a : Action) : Prop := a.locate = locate ∧ (a.Halts ∨ a.Resumes)

instance (locate : Nat) (a : Action) : Decidable (a.Speaks locate) :=
  inferInstanceAs (Decidable (_ ∧ _))

/-- The last action that says whether the locate trades is a halt or a pause. -/
def HaltedBy (locate : Nat) (acts : List Action) : Prop :=
  ∃ a, (acts.filter fun a => a.Speaks locate).getLast? = some a ∧ a.Halts

namespace Model

def onAction (m : Model) (a : Action) : Model := m.onTradingAction a.locate a.state a.reason a.tsNs

def runActions (m : Model) (acts : List Action) : Model := acts.foldl onAction m

end Model

/-! ## Maps -/

theorem find_assign_self {α : Type} (l : List (Nat × α)) (key : Nat) (value : α) :
    find (assign l key value) key = some value := by
  unfold find assign
  rw [List.find?_cons_of_pos (by simp)]
  rfl

theorem find_assign_of_ne {α : Type} (l : List (Nat × α)) {key key' : Nat} (value : α)
    (h : key' ≠ key) : find (assign l key value) key' = find l key' := by
  unfold find assign
  rw [List.find?_cons_of_neg (by simpa using h.symm), List.find?_filter]
  congr 2
  funext p
  by_cases hp : p.1 = key'
  · simp [hp, h]
  · simp [hp]

/-! ## The windows of a locate -/

namespace Model

variable {m : Model}

/-- The windows of a locate, in the order in which they were opened. -/
def windowsAt (m : Model) (locate : Nat) : List HaltWindow :=
  (m.windowsOf locate).filterMap fun idx => m.windows[idx]?

/-- Each locate's positions are those of its own windows, in order. -/
structure Indexed (m : Model) : Prop where
  sound : ∀ locate, ∀ idx ∈ m.windowsOf locate, ∃ w, m.windows[idx]? = some w ∧ w.locate = locate
  complete : ∀ idx w, m.windows[idx]? = some w → idx ∈ m.windowsOf w.locate
  filtered : ∀ locate, m.windowsAt locate = m.windows.filter fun w => w.locate = locate

/-- A position belongs to the locate of its window. -/
theorem Indexed.mem_iff (h : m.Indexed) {idx locate : Nat} {w : HaltWindow}
    (hidx : m.windows[idx]? = some w) : idx ∈ m.windowsOf locate ↔ w.locate = locate := by
  constructor
  · intro hmem
    obtain ⟨w', hidx', hl⟩ := h.sound locate idx hmem
    rw [hidx] at hidx'
    cases hidx'
    exact hl
  · intro hl
    subst hl
    exact h.complete idx w hidx

theorem isHalted_iff (h : m.Indexed) (locate : Nat) :
    m.isHalted locate = true ↔ ∃ w ∈ m.windowsAt locate, w.endNs = 0 := by
  unfold isHalted windowsAt
  rw [List.any_eq_true]
  constructor
  · rintro ⟨idx, hidx, hopen⟩
    obtain ⟨w, hw, -⟩ := h.sound locate idx hidx
    unfold openWindow at hopen
    rw [hw] at hopen
    exact ⟨w, List.mem_filterMap.mpr ⟨idx, hidx, hw⟩, of_decide_eq_true hopen⟩
  · rintro ⟨w, hw, hzero⟩
    obtain ⟨idx, hidx, hw⟩ := List.mem_filterMap.mp hw
    refine ⟨idx, hidx, ?_⟩
    unfold openWindow
    rw [hw]
    exact decide_eq_true hzero

theorem wasHaltedAt_iff (h : m.Indexed) (locate t : Nat) : m.wasHaltedAt locate t = true
    ↔ ∃ w ∈ m.windowsAt locate, w.startNs ≤ t ∧ (w.endNs = 0 ∨ t < w.endNs) := by
  unfold wasHaltedAt windowsAt
  rw [List.any_eq_true]
  constructor
  · rintro ⟨idx, hidx, hin⟩
    obtain ⟨w, hw, -⟩ := h.sound locate idx hidx
    rw [hw] at hin
    refine ⟨w, List.mem_filterMap.mpr ⟨idx, hidx, hw⟩, ?_⟩
    simpa using hin
  · rintro ⟨w, hw, hin⟩
    obtain ⟨idx, hidx, hw⟩ := List.mem_filterMap.mp hw
    refine ⟨idx, hidx, ?_⟩
    rw [hw]
    simpa using hin

/-- What an action makes of the windows of a locate. -/
def stepWindows (locate : Nat) (ws : List HaltWindow) (a : Action) : List HaltWindow :=
  if a.locate ≠ locate then ws
  else if a.Halts then
    if ∃ w ∈ ws, w.endNs = 0 then ws
    else ws ++ [{ locate, startNs := a.tsNs, endNs := 0, reason := a.reason ++ [0] }]
  else if a.Resumes then
    ws.map fun w => if w.endNs = 0 then { w with endNs := a.tsNs } else w
  else ws

/-- A window more at the end of the list. -/
theorem getElem?_concat_left {w : HaltWindow} {idx : Nat} {x : HaltWindow}
    (h : m.windows[idx]? = some x) : (m.windows ++ [w])[idx]? = some x := by
  have hlt : idx < m.windows.length := (List.getElem?_eq_some_iff.mp h).1
  rw [List.getElem?_append_left hlt]
  exact h

/-- The windows of the other locates stay when one opens a window. -/
theorem filterMap_concat {w : HaltWindow} {idxs : List Nat}
    (h : ∀ idx ∈ idxs, ∃ x, m.windows[idx]? = some x) :
    idxs.filterMap (fun idx => (m.windows ++ [w])[idx]?) = idxs.filterMap fun idx => m.windows[idx]? := by
  refine List.filterMap_congr fun idx hidx => ?_
  obtain ⟨x, hx⟩ := h idx hidx
  rw [hx]
  exact getElem?_concat_left hx

theorem windowsOf_assign {locate locate' : Nat} {idxs : List Nat} :
    (find (assign m.locateToWindows locate idxs) locate').getD []
      = if locate' = locate then idxs else m.windowsOf locate' := by
  by_cases hl : locate' = locate
  · rw [hl, find_assign_self, if_pos rfl]
    rfl
  · rw [find_assign_of_ne _ _ hl, if_neg hl]
    rfl

/-- **A halt** of a locate that trades opens a window. -/
theorem open_windowsAt (h : m.Indexed) {m' : Model} {w : HaltWindow}
    (hw : m'.windows = m.windows ++ [w])
    (hl : m'.locateToWindows
      = assign m.locateToWindows w.locate (m.windowsOf w.locate ++ [m.windows.length])) :
    m'.Indexed ∧ ∀ locate, m'.windowsAt locate
      = if locate = w.locate then m.windowsAt locate ++ [w] else m.windowsAt locate := by
  have hof : ∀ locate, m'.windowsOf locate = if locate = w.locate then
      m.windowsOf w.locate ++ [m.windows.length] else m.windowsOf locate := by
    intro locate
    unfold windowsOf
    rw [hl]
    exact windowsOf_assign
  have hlast : m'.windows[m.windows.length]? = some w := by
    rw [hw, List.getElem?_append_right (Nat.le_refl _), Nat.sub_self]
    rfl
  -- The positions listed before still name the windows they named.
  have hold : ∀ locate, (m.windowsOf locate).filterMap (fun idx => m'.windows[idx]?)
      = m.windowsAt locate := by
    intro locate
    rw [hw]
    refine filterMap_concat fun idx hidx => ?_
    obtain ⟨x, hx, -⟩ := h.sound locate idx hidx
    exact ⟨x, hx⟩
  have hat : ∀ locate, m'.windowsAt locate
      = if locate = w.locate then m.windowsAt locate ++ [w] else m.windowsAt locate := by
    intro locate
    unfold windowsAt
    rw [hof]
    split
    · rename_i heq
      rw [List.filterMap_append, hold, heq, List.filterMap_cons, hlast]
      rfl
    · exact hold locate
  refine ⟨⟨?_, ?_, ?_⟩, hat⟩
  -- Every position listed names a window of its locate, every window is listed, and in order.
  · intro locate idx hidx
    rw [hof] at hidx
    have hstill : ∀ {l}, idx ∈ m.windowsOf l → ∃ x, m'.windows[idx]? = some x ∧ x.locate = l := by
      intro l hmem
      obtain ⟨x, hx, hxl⟩ := h.sound l idx hmem
      rw [hw]
      exact ⟨x, getElem?_concat_left hx, hxl⟩
    split at hidx
    · rename_i heq
      rcases List.mem_append.mp hidx with hidx | hidx
      · rw [heq]
        exact hstill hidx
      · rw [List.mem_singleton.mp hidx, heq]
        exact ⟨w, hlast, rfl⟩
    · exact hstill hidx
  · intro idx x hx
    rw [hof]
    rw [hw] at hx
    by_cases hlt : idx < m.windows.length
    · rw [List.getElem?_append_left hlt] at hx
      have hmem := h.complete idx x hx
      split
      · rename_i heq
        rw [heq] at hmem
        exact List.mem_append_left _ hmem
      · exact hmem
    · rw [List.getElem?_append_right (Nat.not_lt.mp hlt)] at hx
      obtain ⟨hzero, heq⟩ := List.getElem?_eq_some_iff.mp hx
      have hidx : idx = m.windows.length := by
        rw [List.length_singleton] at hzero
        omega
      have hxw : x = w := by
        rw [← heq]
        exact List.getElem_singleton hzero
      rw [hxw, if_pos rfl, hidx]
      exact List.mem_append_right _ (List.mem_singleton_self _)
  · intro locate
    rw [hat, hw, List.filter_append, ← h.filtered]
    by_cases hl : locate = w.locate
    · rw [if_pos hl, List.filter_cons_of_pos (by simpa using hl.symm)]
      rfl
    · rw [if_neg hl, List.filter_cons_of_neg (by simpa using fun he => hl he.symm)]
      exact (List.append_nil _).symm

/-- The positions of a locate are those of its windows, so that the windows ended are these. -/
theorem close_windows (h : m.Indexed) (locate ts : Nat) :
    (m.windows.mapIdx fun i (w : HaltWindow) =>
        if i ∈ m.windowsOf locate ∧ w.endNs = 0 then { w with endNs := ts } else w)
      = m.windows.map fun w =>
        if w.locate = locate ∧ w.endNs = 0 then { w with endNs := ts } else w := by
  refine List.ext_getElem? fun idx => ?_
  rw [List.getElem?_mapIdx, List.getElem?_map]
  cases hidx : m.windows[idx]? with
  | none => rfl
  | some w => exact congrArg some (if_congr (and_congr_left fun _ => h.mem_iff hidx) rfl rfl)

/-- **A resumption** ends the open windows of its locate. -/
theorem close_windowsAt (h : m.Indexed) {m' : Model} {locate ts : Nat}
    (hw : m'.windows = m.windows.mapIdx fun i (w : HaltWindow) =>
      if i ∈ m.windowsOf locate ∧ w.endNs = 0 then { w with endNs := ts } else w)
    (hl : m'.locateToWindows = m.locateToWindows) :
    m'.Indexed ∧ ∀ l, m'.windowsAt l = if l = locate then
      (m.windowsAt l).map fun w => if w.endNs = 0 then { w with endNs := ts } else w
      else m.windowsAt l := by
  -- Closing by position is closing by locate, since a locate's positions are those of its windows.
  rw [close_windows h] at hw
  have hof : ∀ l, m'.windowsOf l = m.windowsOf l := by
    intro l
    unfold windowsOf
    rw [hl]
  have hget : ∀ idx : Nat, m'.windows[idx]? = (m.windows[idx]?).map fun w =>
      if w.locate = locate ∧ w.endNs = 0 then { w with endNs := ts } else w := by
    intro idx
    rw [hw, List.getElem?_map]
  have hat : ∀ l, m'.windowsAt l = if l = locate then
      (m.windowsAt l).map fun w => if w.endNs = 0 then { w with endNs := ts } else w
      else m.windowsAt l := by
    intro l
    unfold windowsAt
    rw [hof]
    by_cases heq : l = locate
    · subst heq
      rw [if_pos rfl, List.map_filterMap]
      refine List.filterMap_congr fun idx hidx => ?_
      obtain ⟨w, hidw, hlw⟩ := h.sound l idx hidx
      rw [hget, hidw, Option.map_some, Option.map_some]
      exact congrArg some (if_congr (and_iff_right hlw) rfl rfl)
    · rw [if_neg heq]
      refine List.filterMap_congr fun idx hidx => ?_
      obtain ⟨w, hidw, hlw⟩ := h.sound l idx hidx
      rw [hget, hidw, Option.map_some, if_neg fun hc => heq (hlw.symm.trans hc.1)]
  refine ⟨⟨?_, ?_, ?_⟩, hat⟩
  -- No window changes its locate or its place, so the positions are sound and complete as before.
  · intro l idx hidx
    rw [hof] at hidx
    obtain ⟨w, hidw, hlw⟩ := h.sound l idx hidx
    rw [hget, hidw, Option.map_some]
    refine ⟨_, rfl, ?_⟩
    split
    · exact hlw
    · exact hlw
  · intro idx x hx
    rw [hget] at hx
    obtain ⟨w, hidw, rfl⟩ := Option.map_eq_some_iff.mp hx
    have hmem := h.complete idx w hidw
    rw [hof]
    split
    · exact hmem
    · exact hmem
  · intro l
    have hkey : (fun w : HaltWindow => decide (w.locate = l)) ∘ (fun w =>
        if w.locate = locate ∧ w.endNs = 0 then { w with endNs := ts } else w)
        = fun w : HaltWindow => decide (w.locate = l) := by
      funext w
      dsimp only [Function.comp]
      split <;> rfl
    rw [hat, hw, List.filter_map, hkey, h.filtered]
    by_cases heq : l = locate
    · rw [if_pos heq]
      refine List.map_congr_left fun w hmem => ?_
      have hloc : w.locate = locate := (of_decide_eq_true (List.mem_filter.mp hmem).2).trans heq
      exact if_congr (and_iff_right hloc).symm rfl rfl
    · rw [if_neg heq]
      refine ((List.map_congr_left fun w hmem => ?_).trans (List.map_id _)).symm
      have hloc : w.locate = l := of_decide_eq_true (List.mem_filter.mp hmem).2
      exact if_neg fun hc => heq (hloc.symm.trans hc.1)

/-- An action that leaves the windows and the positions alone. -/
theorem still_windowsAt (h : m.Indexed) {m' : Model} (hw : m'.windows = m.windows)
    (hl : m'.locateToWindows = m.locateToWindows) :
    m'.Indexed ∧ ∀ locate, m'.windowsAt locate = m.windowsAt locate := by
  have hof : ∀ locate, m'.windowsOf locate = m.windowsOf locate := by
    intro locate
    unfold windowsOf
    rw [hl]
  have hat : ∀ locate, m'.windowsAt locate = m.windowsAt locate := by
    intro locate
    unfold windowsAt
    rw [hof, hw]
  refine ⟨⟨?_, ?_, ?_⟩, hat⟩
  · intro locate idx hidx
    rw [hof] at hidx
    rw [hw]
    exact h.sound locate idx hidx
  · intro idx w hidw
    rw [hof]
    rw [hw] at hidw
    exact h.complete idx w hidw
  · intro locate
    rw [hat, hw]
    exact h.filtered locate

/-- What an action does to the windows and the positions. -/
inductive ActionCase (m : Model) (a : Action) (m' : Model) : Prop where
  | still (hw : m'.windows = m.windows) (hl : m'.locateToWindows = m.locateToWindows)
      (hwhy : (a.Halts ∧ m.isHalted a.locate = true)
        ∨ (¬ a.Halts ∧ (a.Resumes → find m.locateToWindows a.locate = none)))
  | opens (hhalts : a.Halts) (hshut : ¬ m.isHalted a.locate = true)
      (hw : m'.windows = m.windows ++
        [{ locate := a.locate, startNs := a.tsNs, endNs := 0, reason := a.reason ++ [0] }])
      (hl : m'.locateToWindows = assign m.locateToWindows a.locate
        (m.windowsOf a.locate ++ [m.windows.length]))
  | closes (hhalts : ¬ a.Halts) (hresumes : a.Resumes)
      (hw : m'.windows = m.windows.mapIdx fun i (w : HaltWindow) =>
        if i ∈ m.windowsOf a.locate ∧ w.endNs = 0 then { w with endNs := a.tsNs } else w)
      (hl : m'.locateToWindows = m.locateToWindows)

theorem onAction_cases (m : Model) (a : Action) : ActionCase m a (m.onAction a) := by
  unfold onAction onTradingAction
  dsimp only
  by_cases hhalts : a.Halts
  · have hstate : a.state = 72 ∨ a.state = 80 := hhalts
    rw [if_pos hstate]
    by_cases hopen : m.isHalted a.locate = true
    · rw [if_pos hopen]
      exact .still rfl rfl (Or.inl ⟨hhalts, hopen⟩)
    · rw [if_neg hopen]
      exact .opens hhalts hopen rfl rfl
  have hstate : ¬ (a.state = 72 ∨ a.state = 80) := hhalts
  rw [if_neg hstate]
  by_cases hresumes : a.Resumes
  · have hstate' : a.state = 84 := hresumes
    rw [if_pos hstate']
    cases hfind : find m.locateToWindows a.locate with
    | none => exact .still rfl rfl (Or.inr ⟨hhalts, fun _ => hfind⟩)
    | some idxs =>
        have hidxs : m.windowsOf a.locate = idxs := by
          unfold windowsOf
          rw [hfind]
          rfl
        -- the cross of a resumption is recorded elsewhere
        have hcross : ∀ m₁ : Model, (m₁.computeHaltCross a.locate).windows = m₁.windows
            ∧ (m₁.computeHaltCross a.locate).locateToWindows = m₁.locateToWindows := by
          intro m₁
          unfold computeHaltCross
          split
          · exact ⟨rfl, rfl⟩
          · exact ⟨rfl, rfl⟩
        obtain ⟨hcw, hcl⟩ := hcross { m with
          windows := m.windows.mapIdx fun i (w : HaltWindow) =>
            if i ∈ idxs ∧ w.endNs = 0 then { w with endNs := a.tsNs } else w }
        refine .closes hhalts hresumes ?_ hcl
        rw [hidxs]
        exact hcw
  · have hstate' : ¬ a.state = 84 := hresumes
    rw [if_neg hstate']
    exact .still rfl rfl (Or.inr ⟨hhalts, fun hr => absurd hr hresumes⟩)

/-- **An action** does to a locate's windows what it says, and keeps the positions. -/
theorem onAction_windowsAt (h : m.Indexed) (a : Action) : (m.onAction a).Indexed
    ∧ ∀ locate, (m.onAction a).windowsAt locate = stepWindows locate (m.windowsAt locate) a := by
  have hcase := onAction_cases m a
  generalize m.onAction a = m' at hcase ⊢
  unfold stepWindows
  rcases hcase with ⟨hw, hl, hwhy⟩ | ⟨hhalts, hshut, hw, hl⟩ | ⟨hhalts, hresumes, hw, hl⟩
  · obtain ⟨hindexed, hsame⟩ := still_windowsAt h hw hl
    refine ⟨hindexed, fun locate => (hsame locate).trans ?_⟩
    by_cases hloc : a.locate = locate
    · subst hloc
      rw [if_neg (not_not.mpr rfl)]
      rcases hwhy with ⟨hhalts, hopen⟩ | ⟨hhalts, hnone⟩
      · rw [if_pos hhalts, if_pos ((isHalted_iff h a.locate).mp hopen)]
      · rw [if_neg hhalts]
        split
        · -- a locate that was never halted has no window to end
          rename_i hresumes
          have hempty : m.windowsAt a.locate = [] := by
            unfold windowsAt windowsOf
            rw [hnone hresumes]
            rfl
          rw [hempty]
          rfl
        · rfl
    · rw [if_pos hloc]
  · obtain ⟨hindexed, hsame⟩ := open_windowsAt h hw hl
    refine ⟨hindexed, fun locate => (hsame locate).trans ?_⟩
    dsimp only
    by_cases hloc : a.locate = locate
    · subst hloc
      rw [if_pos rfl, if_neg (not_not.mpr rfl), if_pos hhalts,
        if_neg fun hwindow => hshut ((isHalted_iff h a.locate).mpr hwindow)]
    · rw [if_neg fun he => hloc he.symm, if_pos hloc]
  · obtain ⟨hindexed, hsame⟩ := close_windowsAt h hw hl
    refine ⟨hindexed, fun locate => (hsame locate).trans ?_⟩
    by_cases hloc : a.locate = locate
    · subst hloc
      rw [if_pos rfl, if_neg (not_not.mpr rfl), if_neg hhalts, if_pos hresumes]
    · rw [if_neg fun he => hloc he.symm, if_pos hloc]

end Model

/-! ## Windows against history -/

/-- What a locate's windows `ws` say after the actions `acts`, none later than `now`. -/
structure Timeline (locate : Nat) (acts : List Action) (ws : List HaltWindow) (now : Nat) : Prop where
  /-- A window has ended before the next one starts. -/
  ordered : ws.Pairwise fun w w' => w.endNs ≠ 0 ∧ w.endNs ≤ w'.startNs
  spans : ∀ w ∈ ws, w.startNs ≤ now ∧ (w.endNs = 0 ∨ w.startNs ≤ w.endNs ∧ w.endNs ≤ now)
  halted : (∃ w ∈ ws, w.endNs = 0) ↔ HaltedBy locate acts
  covers : ∀ t, (∃ w ∈ ws, w.startNs ≤ t ∧ (w.endNs = 0 ∨ t < w.endNs))
    ↔ HaltedBy locate (acts.filter fun a => a.tsNs ≤ t)

variable {locate now : Nat} {acts : List Action} {ws : List HaltWindow} {a : Action}

theorem timeline_nil (locate : Nat) : Timeline locate [] [] 0 where
  ordered := .nil
  spans _ hw := absurd hw List.not_mem_nil
  halted := by
    constructor
    · intro ⟨w, hw, _⟩
      exact absurd hw List.not_mem_nil
    · intro ⟨a, ha, _⟩
      cases ha
  covers _ := by
    constructor
    · intro ⟨w, hw, _⟩
      exact absurd hw List.not_mem_nil
    · intro ⟨a, ha, _⟩
      cases ha

/-- An action that does not speak of the locate changes nothing. -/
theorem haltedBy_concat_silent (h : ¬ a.Speaks locate) (acts : List Action) :
    HaltedBy locate (acts ++ [a]) ↔ HaltedBy locate acts := by
  unfold HaltedBy
  rw [List.filter_append, List.filter_cons_of_neg (by simpa using h), List.filter_nil,
    List.append_nil]

/-- One that does has the last word. -/
theorem haltedBy_concat (h : a.Speaks locate) (acts : List Action) :
    HaltedBy locate (acts ++ [a]) ↔ a.Halts := by
  unfold HaltedBy
  rw [List.filter_append, List.filter_cons_of_pos (by simpa using h), List.filter_nil,
    List.getLast?_concat]
  constructor
  · intro ⟨b, hb, hhalts⟩
    cases hb
    exact hhalts
  · intro hhalts
    exact ⟨a, rfl, hhalts⟩

theorem filter_concat_le (acts : List Action) (a : Action) (t : Nat) :
    (acts ++ [a]).filter (fun a => a.tsNs ≤ t)
      = acts.filter (fun a => a.tsNs ≤ t) ++ if a.tsNs ≤ t then [a] else [] := by
  rw [List.filter_append]
  by_cases ht : a.tsNs ≤ t
  · rw [List.filter_cons_of_pos (by simpa using ht), if_pos ht]
    rfl
  · rw [List.filter_cons_of_neg (by simpa using ht), if_neg ht]
    rfl

/-- Before an action the history is what it was. -/
theorem covers_before (h : Timeline locate acts ws now) {t : Nat} (ht : ¬ a.tsNs ≤ t) :
    (∃ w ∈ ws, w.startNs ≤ t ∧ (w.endNs = 0 ∨ t < w.endNs))
      ↔ HaltedBy locate ((acts ++ [a]).filter fun a => a.tsNs ≤ t) := by
  rw [filter_concat_le, if_neg ht, List.append_nil]
  exact h.covers t

/-- An action that does not speak of the locate. -/
theorem Timeline.silent (h : Timeline locate acts ws now) (ha : ¬ a.Speaks locate)
    (hts : now ≤ a.tsNs) : Timeline locate (acts ++ [a]) ws a.tsNs where
  ordered := h.ordered
  spans w hw := by
    have hspan := h.spans w hw
    omega
  halted := by rw [haltedBy_concat_silent ha]; exact h.halted
  covers t := by
    rw [filter_concat_le]
    split
    · rw [haltedBy_concat_silent ha]
      exact h.covers t
    · rw [List.append_nil]
      exact h.covers t

/-- **A halt while the locate is halted** is absorbed. -/
theorem Timeline.again (h : Timeline locate acts ws now) (ha : a.Speaks locate) (hhalts : a.Halts)
    (hopen : ∃ w ∈ ws, w.endNs = 0) (hts : now ≤ a.tsNs) :
    Timeline locate (acts ++ [a]) ws a.tsNs where
  ordered := h.ordered
  spans w hw := by
    have hspan := h.spans w hw
    omega
  halted := by
    rw [haltedBy_concat ha]
    exact iff_of_true hopen hhalts
  covers t := by
    by_cases ht : a.tsNs ≤ t
    · rw [filter_concat_le, if_pos ht, haltedBy_concat ha]
      obtain ⟨w, hw, hzero⟩ := hopen
      have hspan := h.spans w hw
      exact iff_of_true ⟨w, hw, by omega, Or.inl hzero⟩ hhalts
    · exact covers_before h ht

/-- **A halt while the locate trades** opens a window. -/
theorem Timeline.opened (h : Timeline locate acts ws now) (ha : a.Speaks locate) (hhalts : a.Halts)
    (hclosed : ¬ ∃ w ∈ ws, w.endNs = 0) (hts : now ≤ a.tsNs) {w : HaltWindow}
    (hstart : w.startNs = a.tsNs) (hend : w.endNs = 0) :
    Timeline locate (acts ++ [a]) (ws ++ [w]) a.tsNs where
  ordered := by
    refine List.pairwise_append.mpr ⟨h.ordered, List.pairwise_singleton _ _, fun x hx y hy => ?_⟩
    rw [List.mem_singleton.mp hy]
    have hspan := h.spans x hx
    have hne : x.endNs ≠ 0 := fun hzero => hclosed ⟨x, hx, hzero⟩
    omega
  spans x hx := by
    rcases List.mem_append.mp hx with hx | hx
    · have hspan := h.spans x hx
      omega
    · rw [List.mem_singleton.mp hx]
      omega
  halted := by
    rw [haltedBy_concat ha]
    exact iff_of_true ⟨w, List.mem_append_right _ (List.mem_singleton_self w), hend⟩ hhalts
  covers t := by
    by_cases ht : a.tsNs ≤ t
    · rw [filter_concat_le, if_pos ht, haltedBy_concat ha]
      exact iff_of_true ⟨w, List.mem_append_right _ (List.mem_singleton_self w), by omega,
        Or.inl hend⟩ hhalts
    · rw [← covers_before h ht]
      constructor
      · intro ⟨x, hx, hin⟩
        rcases List.mem_append.mp hx with hx | hx
        · exact ⟨x, hx, hin⟩
        · rw [List.mem_singleton.mp hx] at hin
          omega
      · intro ⟨x, hx, hin⟩
        exact ⟨x, List.mem_append_left _ hx, hin⟩

/-- **A resumption** ends what is open. -/
theorem Timeline.resumed (h : Timeline locate acts ws now) (ha : a.Speaks locate)
    (hhalts : ¬ a.Halts) (hpos : 0 < a.tsNs) (hts : now ≤ a.tsNs) :
    Timeline locate (acts ++ [a])
      (ws.map fun w => if w.endNs = 0 then { w with endNs := a.tsNs } else w) a.tsNs where
  ordered := by
    refine List.pairwise_map.mpr (h.ordered.imp fun {x y} hxy => ?_)
    rw [if_neg hxy.1]
    refine ⟨hxy.1, ?_⟩
    split
    · exact hxy.2
    · exact hxy.2
  spans x hx := by
    obtain ⟨w, hw, rfl⟩ := List.mem_map.mp hx
    have hspan := h.spans w hw
    split
    · show w.startNs ≤ a.tsNs ∧ (a.tsNs = 0 ∨ w.startNs ≤ a.tsNs ∧ a.tsNs ≤ a.tsNs)
      omega
    · omega
  halted := by
    rw [haltedBy_concat ha]
    refine iff_of_false ?_ hhalts
    intro ⟨x, hx, hzero⟩
    obtain ⟨w, -, rfl⟩ := List.mem_map.mp hx
    split at hzero
    · have hzero : a.tsNs = 0 := hzero
      omega
    · contradiction
  covers t := by
    by_cases ht : a.tsNs ≤ t
    · rw [filter_concat_le, if_pos ht, haltedBy_concat ha]
      refine iff_of_false ?_ hhalts
      intro ⟨x, hx, _, hin⟩
      obtain ⟨w, hw, rfl⟩ := List.mem_map.mp hx
      have hspan := h.spans w hw
      split at hin
      · have hin : a.tsNs = 0 ∨ t < a.tsNs := hin
        omega
      · omega
    · rw [← covers_before h ht]
      constructor
      · intro ⟨x, hx, hstart, hin⟩
        obtain ⟨w, hw, rfl⟩ := List.mem_map.mp hx
        split at hstart
        · rename_i hzero
          exact ⟨w, hw, hstart, Or.inl hzero⟩
        · rename_i hne
          rw [if_neg hne] at hin
          exact ⟨w, hw, hstart, hin⟩
      · intro ⟨w, hw, hstart, hin⟩
        refine ⟨_, List.mem_map.mpr ⟨w, hw, rfl⟩, ?_⟩
        split
        · exact ⟨hstart, Or.inr (Nat.not_le.mp ht)⟩
        · exact ⟨hstart, hin⟩

/-- **One action** keeps the windows of a locate true to the history. -/
theorem Timeline.step (h : Timeline locate acts ws now) (hpos : 0 < a.tsNs) (hts : now ≤ a.tsNs) :
    Timeline locate (acts ++ [a]) (Model.stepWindows locate ws a) a.tsNs := by
  unfold Model.stepWindows
  by_cases hloc : a.locate = locate
  · rw [if_neg (not_not.mpr hloc)]
    by_cases hhalts : a.Halts
    · have ha : a.Speaks locate := ⟨hloc, Or.inl hhalts⟩
      rw [if_pos hhalts]
      by_cases hopen : ∃ w ∈ ws, w.endNs = 0
      · rw [if_pos hopen]
        exact h.again ha hhalts hopen hts
      · rw [if_neg hopen]
        exact h.opened ha hhalts hopen hts rfl rfl
    · rw [if_neg hhalts]
      by_cases hresumes : a.Resumes
      · rw [if_pos hresumes]
        exact h.resumed ⟨hloc, Or.inr hresumes⟩ hhalts hpos hts
      · rw [if_neg hresumes]
        exact h.silent (fun hs => hs.2.elim hhalts hresumes) hts
  · rw [if_pos hloc]
    exact h.silent (fun hs => hloc hs.1) hts

theorem indexed_init : Model.init.Indexed where
  sound _ _ hidx := absurd hidx List.not_mem_nil
  complete _ _ hw := by cases hw
  filtered _ := rfl

/-- **A run** keeps the windows of every locate true to the history. -/
theorem timeline_run (acts : List Action) (hpos : ∀ a ∈ acts, 0 < a.tsNs)
    (hsorted : acts.Pairwise fun a b => a.tsNs ≤ b.tsNs) : (Model.init.runActions acts).Indexed
      ∧ ∃ now, (∀ a ∈ acts, a.tsNs ≤ now) ∧ (now = 0 ∨ ∃ a ∈ acts, a.tsNs = now)
        ∧ ∀ locate, Timeline locate acts ((Model.init.runActions acts).windowsAt locate) now := by
  induction acts using List.reverseRecOn with
  | nil =>
      exact ⟨indexed_init, 0, fun a ha => absurd ha List.not_mem_nil, Or.inl rfl, timeline_nil⟩
  | append_singleton acts a ih =>
      obtain ⟨hbefore, -, hlast⟩ := List.pairwise_append.mp hsorted
      obtain ⟨hindexed, now, hle, hnow, htimeline⟩ :=
        ih (fun x hx => hpos x (List.mem_append_left _ hx)) hbefore
      have hrun : Model.init.runActions (acts ++ [a]) = (Model.init.runActions acts).onAction a := by
        unfold Model.runActions
        rw [List.foldl_append]
        rfl
      have hts : now ≤ a.tsNs := by
        rcases hnow with hzero | ⟨b, hb, hbts⟩
        · omega
        · rw [← hbts]
          exact hlast b hb a (List.mem_singleton_self a)
      obtain ⟨hindexed', hat⟩ := Model.onAction_windowsAt hindexed a
      rw [hrun]
      have hmem : a ∈ acts ++ [a] := List.mem_append_right _ (List.mem_singleton_self a)
      refine ⟨hindexed', a.tsNs, fun x hx => ?_, Or.inr ⟨a, hmem, rfl⟩, fun locate => ?_⟩
      · rcases List.mem_append.mp hx with hx | hx
        · exact Nat.le_trans (hle x hx) hts
        · rw [List.mem_singleton.mp hx]
      · rw [hat]
        exact (htimeline locate).step (hpos a hmem) hts

/-- **Halt windows tell the truth.** For every sequence of trading actions with positive and
nondecreasing timestamps, at every point the windows of each locate start and end one after the
other, only the last of them may be open, and the locate is halted exactly if the last action that
says whether it trades is a halt or a pause; and in the end the locate was halted at a time exactly
if the last such action up to that time is one. -/
theorem halt_windows_truthful (acts : List Action) (hpos : ∀ a ∈ acts, 0 < a.tsNs)
    (hsorted : acts.Pairwise fun a b => a.tsNs ≤ b.tsNs) :
    (∀ past, past <+: acts → ∀ locate,
        (((Model.init.runActions past).windows.filter fun w => w.locate = locate).Pairwise
          fun w w' => w.endNs ≠ 0 ∧ w.endNs ≤ w'.startNs)
        ∧ (∀ w ∈ (Model.init.runActions past).windows, w.endNs = 0 ∨ w.startNs ≤ w.endNs)
        ∧ ((Model.init.runActions past).isHalted locate = true ↔ HaltedBy locate past))
      ∧ ∀ locate t, (Model.init.runActions acts).wasHaltedAt locate t = true
        ↔ HaltedBy locate (acts.filter fun a => a.tsNs ≤ t) := by
  constructor
  · intro past hpast locate
    obtain ⟨hindexed, now, -, -, htimeline⟩ := timeline_run past
      (fun a ha => hpos a (hpast.subset ha)) (hsorted.sublist hpast.sublist)
    refine ⟨?_, fun w hw => ?_, ?_⟩
    · rw [← hindexed.filtered]
      exact (htimeline locate).ordered
    · have hmem : w ∈ (Model.init.runActions past).windowsAt w.locate := by
        rw [hindexed.filtered]
        exact List.mem_filter.mpr ⟨hw, decide_eq_true rfl⟩
      exact ((htimeline w.locate).spans w hmem).2.imp id And.left
    · rw [Model.isHalted_iff hindexed]
      exact (htimeline locate).halted
  · intro locate t
    obtain ⟨hindexed, now, -, -, htimeline⟩ := timeline_run acts hpos hsorted
    rw [Model.wasHaltedAt_iff hindexed]
    exact (htimeline locate).covers t

/-- A halt at 5, a resumption at 7 and a pause at the same time. -/
def haltAndPause : List Action :=
  [{ locate := 1, state := 72, reason := [], tsNs := 5 },
    { locate := 1, state := 84, reason := [], tsNs := 7 },
    { locate := 1, state := 80, reason := [], tsNs := 7 }]

theorem halt_windows_truthful_pause :
    (Model.init.runActions haltAndPause).wasHaltedAt 1 7 = true
      ↔ HaltedBy 1 (haltAndPause.filter fun a => a.tsNs ≤ 7) :=
  (halt_windows_truthful haltAndPause (by decide) (by decide)).2 1 7

end Session

end Mog
