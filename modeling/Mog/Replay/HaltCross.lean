import Mog.Replay.Halts

/-!
# Do halt crosses correspond to resumptions?

A resumption computes the cross of its locate when the locate has ever been halted, not
only when it ends a halt. The records are compared with those that are due, resumption by
resumption.

What is due is defined by the history alone: the resumptions of a locate that was halted when
they came, each with the imbalance last seen before it. The session model keeps a map of what
has ever been halted instead. The two are followed side by side, and they part at the first
resumption of a locate that trades after having been halted once.
-/

namespace Mog

namespace Session

/-- What reaches the model of halts and imbalances. -/
inductive SessionEvent where
  | action (a : Action)
  | noii (snap : NoiiSnapshot)

def SessionEvent.snap? : SessionEvent → Option NoiiSnapshot
  | action _ => none
  | noii snap => some snap

/-- A snapshot with something in it. -/
def NoiiSnapshot.Informative (snap : NoiiSnapshot) : Prop :=
  0 < snap.pairedShares ∨ 0 < snap.imbalanceShares

instance (snap : NoiiSnapshot) : Decidable snap.Informative := inferInstanceAs (Decidable (_ ∨ _))

/-- The last informative snapshot of a locate. -/
def latestInformative (locate : Nat) (past : List SessionEvent) : Option NoiiSnapshot :=
  ((past.filterMap SessionEvent.snap?).filter fun snap =>
    snap.locate = locate ∧ snap.Informative).getLast?

namespace Model

def onEvent (m : Model) : SessionEvent → Model
  | .action a => m.onAction a
  | .noii snap => m.onNoii snap

def runEvents (m : Model) (es : List SessionEvent) : Model := es.foldl onEvent m

/-- A resumption that ends the halt of its locate. -/
def Closes (m : Model) (a : Action) : Prop :=
  a.Resumes ∧ m.isHalted a.locate = true ∧ (m.onAction a).isHalted a.locate = false

instance (m : Model) (a : Action) : Decidable (m.Closes a) := inferInstanceAs (Decidable (_ ∧ _))

/-- The record that an event calls for. -/
def due (m : Model) (past : List SessionEvent) : SessionEvent → List CrossRecord
  | .action a =>
      if m.Closes a then
        (latestInformative a.locate past).toList.map (crossOf .haltIpo a.locate)
      else []
  | .noii _ => []

/-- The records that the events `es` call for, after the events `past`. -/
def dueCrosses : Model → List SessionEvent → List SessionEvent → List CrossRecord
  | _, _, [] => []
  | m, past, e :: es => m.due past e ++ dueCrosses (m.onEvent e) (past ++ [e]) es

/-- A resumption of a locate that has been halted before and has an informative snapshot finds it
halted, and its timestamp is not the mark of an open window. -/
def Fresh (m : Model) (e : SessionEvent) : Prop :=
  ∀ a, e = .action a → a.Resumes → (find m.locateToWindows a.locate).isSome →
    (find m.informative a.locate).isSome → m.isHalted a.locate = true ∧ a.tsNs ≠ 0

/-- `P` holds of each event, where it arrives. -/
def AlongEvents (P : Model → SessionEvent → Prop) : Model → List SessionEvent → Prop
  | _, [] => True
  | m, e :: es => P m e ∧ AlongEvents P (m.onEvent e) es

/-! ## The records that are made -/

/-- The record that an event makes. -/
def made (m : Model) : SessionEvent → List CrossRecord
  | .action a =>
      if a.Resumes ∧ (find m.locateToWindows a.locate).isSome then
        (find m.informative a.locate).toList.map (crossOf .haltIpo a.locate)
      else []
  | .noii _ => []

variable {m : Model} {past : List SessionEvent}

/-- **One event** makes its record and leaves the others. -/
theorem haltCrosses_onEvent (m : Model) (e : SessionEvent) :
    (m.onEvent e).haltCrosses = m.haltCrosses ++ m.made e := by
  cases e with
  | noii snap => exact (List.append_nil _).symm
  | action a =>
      unfold onEvent onAction onTradingAction made
      dsimp only
      by_cases hhalts : a.Halts
      · have hstate : a.state = 72 ∨ a.state = 80 := hhalts
        have hresumes : ¬ a.Resumes := by
          intro hr
          have hr : a.state = 84 := hr
          rw [hr] at hstate
          exact absurd hstate (by decide)
        rw [if_pos hstate, if_neg (not_and_of_not_left _ hresumes)]
        split
        · exact (List.append_nil _).symm
        · exact (List.append_nil _).symm
      have hstate : ¬ (a.state = 72 ∨ a.state = 80) := hhalts
      rw [if_neg hstate]
      by_cases hresumes : a.Resumes
      · have hstate' : a.state = 84 := hresumes
        rw [if_pos hstate']
        cases hfind : find m.locateToWindows a.locate with
        | none =>
            rw [if_neg fun h => absurd h.2 (by simp)]
            exact (List.append_nil _).symm
        | some idxs =>
            rw [if_pos ⟨hresumes, rfl⟩]
            dsimp only
            unfold computeHaltCross
            dsimp only
            cases find m.informative a.locate with
            | none => exact (List.append_nil _).symm
            | some snap => rfl
      · have hstate' : ¬ a.state = 84 := hresumes
        rw [if_neg hstate', if_neg fun h => hresumes h.1]
        exact (List.append_nil _).symm

/-- What holds of the model after the events `past`. -/
structure Follows (m : Model) (past : List SessionEvent) : Prop where
  indexed : m.Indexed
  informative : ∀ locate, find m.informative locate = latestInformative locate past

theorem onAction_informative (m : Model) (a : Action) :
    (m.onAction a).informative = m.informative := by
  unfold onAction onTradingAction
  dsimp only
  split
  · split
    · rfl
    · rfl
  · split
    · split
      · unfold computeHaltCross
        split
        · rfl
        · rfl
      · rfl
    · rfl

theorem Follows.onEvent (h : Follows m past) (e : SessionEvent) :
    Follows (m.onEvent e) (past ++ [e]) := by
  cases e with
  | action a =>
      refine ⟨(onAction_windowsAt h.indexed a).1, fun locate => ?_⟩
      have hsame : latestInformative locate (past ++ [.action a]) = latestInformative locate past := by
        unfold latestInformative
        rw [List.filterMap_append]
        exact congrArg (fun l => (List.filter _ l).getLast?) (List.append_nil _)
      rw [hsame, ← h.informative]
      exact congrArg (find · locate) (onAction_informative m a)
  | noii snap =>
      refine ⟨⟨h.indexed.sound, h.indexed.complete, h.indexed.filtered⟩, fun locate => ?_⟩
      have hsplit : latestInformative locate (past ++ [.noii snap])
          = if snap.locate = locate ∧ snap.Informative then some snap
            else latestInformative locate past := by
        unfold latestInformative
        rw [List.filterMap_append, List.filter_append]
        show (_ ++ List.filter _ [snap]).getLast? = _
        by_cases hnew : snap.locate = locate ∧ snap.Informative
        · rw [List.filter_cons_of_pos (by simpa using hnew), if_pos hnew, List.filter_nil,
            List.getLast?_concat]
        · rw [List.filter_cons_of_neg (by simpa using hnew), if_neg hnew, List.filter_nil,
            List.append_nil]
      rw [hsplit]
      show find (if snap.Informative then assign m.informative snap.locate snap
        else m.informative) locate = _
      by_cases hinf : snap.Informative
      · rw [if_pos hinf]
        by_cases hloc : snap.locate = locate
        · rw [if_pos ⟨hloc, hinf⟩, hloc]
          exact find_assign_self _ _ _
        · rw [if_neg fun hc => hloc hc.1, ← h.informative]
          exact find_assign_of_ne _ _ fun he => hloc he.symm
      · rw [if_neg hinf, if_neg fun hc => hinf hc.2]
        exact h.informative locate

/-- A resumption ends the halt of its locate, unless it is stamped with the mark of an open
window. -/
theorem Follows.closes_iff (h : Follows m past) {a : Action} (hresumes : a.Resumes) :
    m.Closes a ↔ m.isHalted a.locate = true ∧ a.tsNs ≠ 0 := by
  have hhalts : ¬ a.Halts := by
    intro hh
    have hr : a.state = 84 := hresumes
    have hh : a.state = 72 ∨ a.state = 80 := hh
    rw [hr] at hh
    exact absurd hh (by decide)
  obtain ⟨hindexed, hat⟩ := onAction_windowsAt h.indexed a
  have hafter : (m.onAction a).isHalted a.locate = true
      ↔ (∃ w ∈ m.windowsAt a.locate, w.endNs = 0) ∧ a.tsNs = 0 := by
    rw [isHalted_iff hindexed, hat]
    unfold stepWindows
    rw [if_neg (not_not.mpr rfl), if_neg hhalts, if_pos hresumes]
    constructor
    · intro ⟨x, hx, hzero⟩
      obtain ⟨w, hw, rfl⟩ := List.mem_map.mp hx
      split at hzero
      · rename_i hopen
        exact ⟨⟨w, hw, hopen⟩, hzero⟩
      · contradiction
    · intro ⟨⟨w, hw, hopen⟩, hzero⟩
      refine ⟨_, List.mem_map.mpr ⟨w, hw, rfl⟩, ?_⟩
      rw [if_pos hopen]
      exact hzero
  unfold Closes
  rw [← Bool.not_eq_true, hafter, ← isHalted_iff h.indexed]
  constructor
  · intro ⟨_, hhalted, hnot⟩
    exact ⟨hhalted, fun hzero => hnot ⟨hhalted, hzero⟩⟩
  · intro ⟨hhalted, hne⟩
    exact ⟨hresumes, hhalted, fun hboth => hne hboth.2⟩

/-- **The record that is due is the one that is made**, if the event is fresh; otherwise one is made
that is not due. -/
theorem Follows.due_made (h : Follows m past) (e : SessionEvent) :
    (m.Fresh e ∧ m.due past e = m.made e)
      ∨ (¬ m.Fresh e ∧ m.due past e = [] ∧ (m.made e).length = 1) := by
  cases e with
  | noii snap => exact Or.inl ⟨nofun, rfl⟩
  | action a =>
      unfold due made
      dsimp only
      rw [← h.informative]
      by_cases hresumes : a.Resumes
      · have hcloses := h.closes_iff hresumes
        by_cases hwindows : (find m.locateToWindows a.locate).isSome
        · have hmade : a.Resumes ∧ (find m.locateToWindows a.locate).isSome := ⟨hresumes, hwindows⟩
          by_cases hinf : (find m.informative a.locate).isSome
          · by_cases hfresh : m.isHalted a.locate = true ∧ a.tsNs ≠ 0
            · rw [if_pos (hcloses.mpr hfresh), if_pos hmade]
              refine Or.inl ⟨fun b hb _ _ _ => ?_, rfl⟩
              cases hb
              exact hfresh
            · have hopen : ¬ m.Closes a := fun hc => hfresh (hcloses.mp hc)
              rw [if_neg hopen, if_pos hmade]
              refine Or.inr ⟨fun hf => hfresh (hf a rfl hresumes hwindows hinf), rfl, ?_⟩
              obtain ⟨snap, hsnap⟩ := Option.isSome_iff_exists.mp hinf
              rw [hsnap]
              rfl
          · have hnone : find m.informative a.locate = none := Option.not_isSome_iff_eq_none.mp hinf
            rw [hnone]
            refine Or.inl ⟨fun b hb _ _ hsome => ?_, by rw [if_pos hmade]; split <;> rfl⟩
            cases hb
            exact absurd hsome hinf
        · have hhalted : ¬ m.isHalted a.locate = true := by
            unfold isHalted windowsOf
            rw [Option.not_isSome_iff_eq_none.mp hwindows]
            exact Bool.false_ne_true
          have hopen : ¬ m.Closes a := fun hc => hhalted (hcloses.mp hc).1
          rw [if_neg hopen, if_neg (not_and_of_not_right _ hwindows)]
          refine Or.inl ⟨fun b hb _ hsome => ?_, rfl⟩
          cases hb
          exact absurd hsome hwindows
      · have hopen : ¬ m.Closes a := fun hc => hresumes hc.1
        rw [if_neg hopen, if_neg (not_and_of_not_left _ hresumes)]
        refine Or.inl ⟨fun b hb hr => ?_, rfl⟩
        cases hb
        exact absurd hr hresumes

/-- **A run** makes at least the records that are due, and these alone if every event is fresh. -/
theorem Follows.crosses_run (h : Follows m past) (es : List SessionEvent) : ∃ l,
    (m.runEvents es).haltCrosses = m.haltCrosses ++ l
      ∧ (dueCrosses m past es).length ≤ l.length
      ∧ (AlongEvents Fresh m es → dueCrosses m past es = l)
      ∧ (¬ AlongEvents Fresh m es → (dueCrosses m past es).length < l.length) := by
  induction es generalizing m past with
  | nil => exact ⟨[], (List.append_nil _).symm, Nat.le_refl _, fun _ => rfl, fun hn => absurd trivial hn⟩
  | cons e es ih =>
      obtain ⟨l, hl, hle, hsame, hlt⟩ := ih (h.onEvent e)
      refine ⟨m.made e ++ l, ?_, ?_, ?_, ?_⟩
      · rw [← List.append_assoc, ← haltCrosses_onEvent]
        exact hl
      · rw [dueCrosses, List.length_append, List.length_append]
        rcases h.due_made e with ⟨-, hdue⟩ | ⟨-, hdue, hmade⟩
        · rw [hdue]
          omega
        · rw [hdue, hmade, List.length_nil]
          omega
      · intro ⟨hfresh, hrest⟩
        rcases h.due_made e with ⟨-, hdue⟩ | ⟨hnot, -⟩
        · rw [dueCrosses, hdue, hsame hrest]
        · exact absurd hfresh hnot
      · intro hnot
        rw [dueCrosses, List.length_append, List.length_append]
        rcases h.due_made e with ⟨hfresh, hdue⟩ | ⟨-, hdue, hmade⟩
        · have hrest := hlt fun hrest => hnot ⟨hfresh, hrest⟩
          rw [hdue]
          omega
        · rw [hdue, hmade, List.length_nil]
          omega

theorem follows_init : Follows init [] := ⟨indexed_init, fun _ => rfl⟩

/-- **When halt crosses correspond to resumptions.** For every sequence of trading actions and
imbalance snapshots, the records are those of the resumptions that end a halt of a locate with an
informative snapshot, in order and computed from the latest of these, exactly if every resumption
of a locate that has been halted before and has such a snapshot finds it halted, at a time that is
not zero. -/
theorem halt_crosses_iff (es : List SessionEvent) :
    (init.runEvents es).haltCrosses = dueCrosses init [] es ↔ AlongEvents Fresh init es := by
  obtain ⟨l, hl, -, hsame, hlt⟩ := follows_init.crosses_run es
  have hl : (init.runEvents es).haltCrosses = l := hl
  rw [hl]
  constructor
  · intro heq
    by_contra hnot
    have hlen := hlt hnot
    rw [heq] at hlen
    exact Nat.lt_irrefl _ hlen
  · intro hfresh
    exact (hsame hfresh).symm

/-- A snapshot of locate 1, a halt of it, and a resumption for each time given. -/
def resumedAt (times : List Nat) : List SessionEvent :=
  [.noii { tsNs := 1, locate := 1, pairedShares := 5, imbalanceShares := 2, direction := 66
           nearPriceTicks := 10, referencePriceTicks := 10 },
    .action { locate := 1, state := 72, reason := [], tsNs := 2 }]
    ++ times.map fun t => .action { locate := 1, state := 84, reason := [], tsNs := t }

/-- **A second resumption** repeats the record. -/
theorem second_resumption_crosses :
    (init.runEvents (resumedAt [3, 4])).haltCrosses ≠ dueCrosses init [] (resumedAt [3, 4]) := by
  decide +kernel

end Model

end Session

end Mog
