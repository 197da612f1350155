import Mog.Sim.Exact
import Mog.Sim.External

/-!
# External flow and the exact walk

A consumption takes its units off every position of the level before it executes them, and
each order it hits is synced as it is hit: what stands further back ends where the queue has
it. A level that found the table full has no list to subtract from. There the walk is made
up front, and nothing makes up afterwards for what is then executed.

A level's positions are right again after a consumption because everything taken is subtracted
from everyone first and each order that is hit is then set to what the queue says. The twin
recomputes positions by walking the book, and is asked to change nothing. It changes something
exactly where a level has no entry in the tracker table and an execution comes after the walk.
-/

namespace Mog

open QueueSum TrackTable

/-- A consumption of external flow: the state it starts from, its level and its units. -/
structure Consumption (k : Nat) where
  before : ExecutionSimulator k
  side : Side
  price : Int
  qty : Int

namespace ExecutionSimulator

variable {k : Nat} {cfg : SimConfig} {sim sim' : ExecutionSimulator k} {s : Side} {p q : Int}
  {off : Nat → Int}

/-! ## The exact-walk twin -/

/-- Running the exact-walk twin changes no position. -/
def WalkIdle (sim : ExecutionSimulator k) : Prop :=
  ∀ i, (sim.recomputeAllTracked.track.tracked i).qtyAhead = (sim.track.tracked i).qtyAhead

/-- The recorded positions of a level's orders are the queue's. -/
def LevelExact (sim : ExecutionSimulator k) (s : Side) (p : Int) : Prop :=
  ∀ i v, sim.track.at? i = some v → sim.book.OnSide s p i → v.qtyAhead = sim.book.ahead i

theorem exact_iff_ahead : Exact sim.book sim.track
    ↔ ∀ i v, sim.track.at? i = some v → v.qtyAhead = sim.book.ahead i := by
  refine forall_congr' (fun i => forall_congr' (fun v => imp_congr_right (fun _ => ?_)))
  show v.qtyAhead = sim.book.ahead i + 0 ↔ _
  rw [Int.add_zero]

theorem exact_iff_levels : Exact sim.book sim.track ↔ ∀ s p, sim.LevelExact s p := by
  rw [exact_iff_ahead]
  exact ⟨fun h s p i v hv _ => h i v hv, fun h i v hv => h _ _ i v hv ⟨rfl, rfl⟩⟩

/-- **The twin is idle where positions are exact**, and nowhere else. -/
theorem walkIdle_iff (h : SimInv cfg sim) : sim.WalkIdle ↔ Exact sim.book sim.track := by
  rw [exact_iff_ahead]
  obtain ⟨off, hoff⟩ := exists_off sim.book sim.track
  have hspec := recomputeAll_spec h.mirror h.book hoff
  have hat : ∀ i v, sim.track.at? i = some v → ∃ u, (sim.track.recomputeAll sim.book).at? i = some u
      ∧ u.qtyAhead = sim.book.ahead i := by
    intro i v hv
    have hown := (h.mirror.record_of_some hv).1
    obtain ⟨a, ha⟩ := hspec.mirror.own i hown
    exact ⟨_, ha, (hspec.off i _ ha).trans (Int.add_zero _)⟩
  constructor
  · intro hidle i v hv
    obtain ⟨u, hu, hahead⟩ := hat i v hv
    have h1 : ((sim.track.recomputeAll sim.book).tracked i).qtyAhead = u.qtyAhead :=
      congrArg TrackView.qtyAhead (at?_eq_some.mp hu).2
    have h2 : (sim.track.tracked i).qtyAhead = v.qtyAhead :=
      congrArg TrackView.qtyAhead (at?_eq_some.mp hv).2
    rw [← h2, ← hidle i, ← hahead]
    exact h1
  · intro hexact i
    show ((sim.track.recomputeAll sim.book).tracked i).qtyAhead = _
    by_cases hlive : (sim.track.tracked i).live = true
    · obtain ⟨v, hv⟩ := Option.ne_none_iff_exists'.mp ((live_iff i).mp hlive)
      obtain ⟨u, hu, hahead⟩ := hat i v hv
      have h1 : ((sim.track.recomputeAll sim.book).tracked i).qtyAhead = u.qtyAhead :=
        congrArg TrackView.qtyAhead (at?_eq_some.mp hu).2
      have h2 : (sim.track.tracked i).qtyAhead = v.qtyAhead :=
        congrArg TrackView.qtyAhead (at?_eq_some.mp hv).2
      rw [h1, h2, hahead, hexact i v hv]
    · rw [Bool.not_eq_true] at hlive
      rw [recomputeAll_eq, (recomputeLevels_frame sim.book _ sim.track).2.2 i hlive]

/-! ## What a consumption does to positions -/

/-- Where positions stand once a level's consumption has been subtracted up front. -/
def drawnOff (sim : ExecutionSimulator k) (s : Side) (p q : Int) (off : Nat → Int) (j : Nat) : Int :=
  if sim.book.OnSide s p j then
    (if sim.track.levelFind s p = none then 0 else off j - q)
  else off j

/-- `applied` of `q` units have been taken from the head of a level on, starting from `sim`;
positions stood `base` too far back when it began. -/
structure Drawn (cfg : SimConfig) (sim sim' : ExecutionSimulator k) (s : Side) (p q : Int)
    (base : Nat → Int) (applied : Int) (off : Nat → Int) : Prop where
  pos : Off sim'.book sim'.track off
  own : ∀ j, sim'.book.Own cfg.externalRefLimit j →
    sim.book.Own cfg.externalRefLimit j ∧ ∀ s' p', sim'.book.OnSide s' p' j ↔ sim.book.OnSide s' p' j
  /-- Orders of other levels, and those behind all of the units, stay. -/
  kept : ∀ j, sim.book.Own cfg.externalRefLimit j →
    (sim.book.OnSide s p j → q ≤ sim.book.ahead j) → sim'.book.Own cfg.externalRefLimit j
  other : ∀ j, sim'.book.Own cfg.externalRefLimit j → ¬ sim.book.OnSide s p j →
    sim'.book.ahead j = sim.book.ahead j ∧ off j = base j
  /-- An order of the level has moved up by what was taken, or was the last one hit. -/
  level : ∀ j, sim'.book.Own cfg.externalRefLimit j → sim.book.OnSide s p j →
    (sim'.book.ahead j = sim.book.ahead j - applied ∧ off j = base j + applied)
      ∨ (off j = 0 ∧ applied = q ∧ sim.book.ahead j < q)

/-- Nothing has been taken yet. -/
theorem Drawn.start {base : Nat → Int} (hbook : sim'.book = sim.book)
    (hoff : Off sim'.book sim'.track base) : Drawn cfg sim sim' s p q base 0 base where
  pos := hoff
  own := by
    rw [hbook]
    exact fun j hj => ⟨hj, fun _ _ => Iff.rfl⟩
  kept := by
    rw [hbook]
    exact fun j hj _ => hj
  other := by
    rw [hbook]
    exact fun j _ _ => ⟨rfl, rfl⟩
  level := by
    rw [hbook]
    exact fun j _ _ => Or.inl ⟨by omega, by omega⟩

/-- One more execution at the head of the level. -/
theorem Drawn.step {a mid b : ExecutionSimulator k} {base : Nat → Int} {applied take : Int} {i : Nat}
    {l : List Nat} (hd : Drawn cfg sim a s p q base applied off) (ha : SimInv cfg a)
    (hlt : applied < q) (hf : a.book.Front s p i l) (htake : take = min (q - applied) (a.book.rem i))
    (hc : Consumed cfg a mid b i take) :
    Drawn cfg sim b s p q base (applied + take)
      (fun j => if j = i then 0 else off j + if a.book.OnSide s p j then take else 0) := by
  have hown := fun j => (hc.own ha j).1
  have hmove : ∀ j, b.book.Own cfg.externalRefLimit j →
      (∀ s' p', b.book.OnSide s' p' j ↔ a.book.OnSide s' p' j)
        ∧ b.book.ahead j = a.book.ahead j - if j ≠ i ∧ a.book.OnSide s p j then take else 0 := by
    intro j hj
    obtain ⟨hside, hahead⟩ := (hc.own ha j).2 hj
    refine ⟨hside, ?_⟩
    rw [hahead]
    by_cases hji : j = i
    · rw [if_neg (fun hm => ne_of_mem_before hm hji.symm), if_neg (fun hh => hh.1 hji)]
    · have hiff : i ∈ before j (a.book.queueOf j) ↔ j ≠ i ∧ a.book.OnSide s p j :=
        (hf.before_iff hji ha.book).trans ⟨fun hh => ⟨hji, hh⟩, fun hh => hh.2⟩
      simp only [hiff]
  have hhead : a.book.OnSide s p i := ⟨hf.side, hf.price⟩
  have hfirst := ha.book.head_ahead hf.slots
  refine { pos := hc.off ha hf hd.pos, own := fun j hj => ?_, kept := fun j hj hle => ?_,
           other := fun j hj hon => ?_, level := fun j hj hon => ?_ }
  · obtain ⟨h1, h2⟩ := hd.own j ((hown j).mp hj).1
    exact ⟨h1, fun s' p' => ((hmove j hj).1 s' p').trans (h2 s' p')⟩
  · have hja := hd.kept j hj hle
    refine (hown j).mpr ⟨hja, ?_⟩
    -- the head has nothing before it, an order behind all of the units has
    rintro ⟨rfl, _⟩
    have hon := ((hd.own j hja).2 s p).mp hhead
    have hq := hle hon
    rcases hd.level j hja hon with ⟨h1, _⟩ | ⟨_, h2, _⟩
    · omega
    · omega
  · have hja := ((hown j).mp hj).1
    have hona : ¬ a.book.OnSide s p j := fun hh => hon (((hd.own j hja).2 s p).mp hh)
    have hji : j ≠ i := fun he => hona (he ▸ hhead)
    obtain ⟨h1, h2⟩ := hd.other j hja hon
    rw [(hmove j hj).2, if_neg (fun hh => hona hh.2), if_neg hji, if_neg hona]
    exact ⟨by omega, by omega⟩
  · have hja := ((hown j).mp hj).1
    have hona := ((hd.own j hja).2 s p).mpr hon
    rcases hd.level j hja hon with ⟨h1, h2⟩ | ⟨_, h2, _⟩
    · by_cases hji : j = i
      · -- the order that was hit is still there: the units have run out on it
        have hpart : a.book.rem i ≠ take := fun he => ((hown j).mp hj).2 ⟨hji, he⟩
        rw [if_pos hji]
        rw [hji] at h1 ⊢
        exact Or.inr ⟨rfl, by omega, by omega⟩
      · rw [(hmove j hj).2, if_pos ⟨hji, hona⟩, if_neg hji, if_pos hona]
        exact Or.inl ⟨by omega, by omega⟩
    · omega

/-- **What a consumption does to every order of the strategy.** -/
theorem consumeLevel_drawn (h : SimInv cfg sim) (hoff : Off sim.book sim.track off) (hq : 0 ≤ q) :
    ∃ applied off', Drawn cfg sim (sim.consumeLevel cfg s p q) s p q (sim.drawnOff s p q off)
        applied off'
      ∧ (applied = q ∨ (sim.consumeLevel cfg s p q).book.levelSlots s p = []) := by
  have hclear := h.clearSync
  have hsub : Repositioned cfg.externalRefLimit sim.book
      ({ sim.track with recentSync := [] } : TrackTable)
      (({ sim.track with recentSync := [] } : TrackTable).subtractLevel sim.book s p q false)
      (sim.drawnOff s p q off) := by
    have hoff' : Off sim.book ({ sim.track with recentSync := [] } : TrackTable) off := hoff
    obtain ⟨L, hL⟩ := hclear.mirror.inv
    have hfind : ({ sim.track with recentSync := [] } : TrackTable).levelFind s p
      = sim.track.levelFind s p := rfl
    by_cases hent : ({ sim.track with recentSync := [] } : TrackTable).HasEntry s p
    · have hr := subtractLevel_entry hclear.mirror hoff' hent q false
      refine ⟨hr.mirror, hr.off.congr (fun j _ => ?_), hr.same⟩
      have hsome : sim.track.levelFind s p ≠ none := fun hn =>
        (hL.levelFind_eq_none.mp (hfind.trans hn)) hent
      rw [drawnOff, if_neg hsome]
      simp
    · have hr := subtractLevel_vacant hclear.mirror hclear.book hoff' hent q false
      refine ⟨hr.mirror, hr.off.congr (fun j _ => ?_), hr.same⟩
      rw [drawnOff, if_pos (hfind.symm.trans (hL.levelFind_eq_none.mpr hent))]
  have hstart := hclear.repositioned hsub
  have hbase := hsub.off
  unfold consumeLevel
  dsimp only
  generalize ({ sim.track with recentSync := [] } : TrackTable).subtractLevel sim.book s p q false
    = t at *
  have hrule := consumeLoop_rule (s := s) (p := p) (q := q)
    (I := fun applied x => ∃ off', Drawn cfg sim x s p q (sim.drawnOff s p q off) applied off')
    (fun a mid b applied i l take ha ⟨off', hd⟩ hlt hf htake hpos hc =>
      ⟨_, hd.step ha hlt hf htake hc⟩)
    q.toNat 0 { sim with track := t } hstart ⟨_, Drawn.start rfl hbase⟩ hq (by omega)
  generalize consumeLoop cfg s p q q.toNat 0 { sim with track := t } = r at hrule
  obtain ⟨_, ⟨off', hd⟩, _, hend⟩ := hrule
  refine ⟨r.2, off', ?_, ?_⟩
  · split
    · exact ⟨hd.pos, hd.own, hd.kept, hd.other, hd.level⟩
    · exact hd
  · split
    · exact hend
    · exact hend

end ExecutionSimulator

/-! ## Levels that have gone stale -/

namespace Consumption

variable {k : Nat}

/-- The state a consumption leaves. -/
def after (x : Consumption k) (cfg : SimConfig) : ExecutionSimulator k :=
  x.before.consumeLevel cfg x.side x.price x.qty

/-- The level has no entry, and one of the strategy's orders stands behind all of the units. -/
def Stale (x : Consumption k) (cfg : SimConfig) : Prop :=
  0 < x.qty ∧ x.before.track.levelFind x.side x.price = none
    ∧ ∃ j, x.before.book.Own cfg.externalRefLimit j ∧ x.before.book.OnSide x.side x.price j
      ∧ x.qty ≤ x.before.book.ahead j

/-- The consumption is one of level `p` on side `s`. -/
def On (x : Consumption k) (s : Side) (p : Int) : Prop := x.side = s ∧ x.price = p

end Consumption

namespace ExecutionSimulator

variable {k : Nat} {cfg : SimConfig} {sim sim' : ExecutionSimulator k} {s : Side} {p q : Int}
  {off : Nat → Int} {cs cs' : List (Consumption k)}

theorem levelExact_iff (h : SimInv cfg sim) (hoff : Off sim.book sim.track off) :
    sim.LevelExact s p ↔ ∀ j, sim.book.Own cfg.externalRefLimit j → sim.book.OnSide s p j →
      off j = 0 := by
  constructor
  · intro hex j hj hon
    obtain ⟨a, ha⟩ := h.mirror.own j hj
    have h1 := hex j _ ha hon
    have h2 := hoff j _ ha
    omega
  · intro hz j v hv hon
    have h1 := hz j (h.mirror.record_of_some hv).1 hon
    have h2 := hoff j v hv
    omega

/-- A consumption leaves the positions of all other levels as they were. -/
theorem consumeLevel_other (h : SimInv cfg sim) (hq : 0 ≤ q) {s' : Side} {p' : Int}
    (hne : ¬ (s = s' ∧ p = p')) :
    (sim.consumeLevel cfg s p q).LevelExact s' p' ↔ sim.LevelExact s' p' := by
  obtain ⟨off, hoff⟩ := exists_off sim.book sim.track
  obtain ⟨applied, off', hd, _⟩ := consumeLevel_drawn (s := s) (p := p) h hoff hq
  rw [levelExact_iff (h.consumeLevel s p q) hd.pos, levelExact_iff h hoff]
  have hoffLevel : ∀ j, sim.book.OnSide s' p' j → ¬ sim.book.OnSide s p j := by
    rintro j ⟨rfl, rfl⟩ ⟨h1, h2⟩
    exact hne ⟨h1.symm, h2.symm⟩
  have hbase : ∀ j, sim.book.OnSide s' p' j → sim.drawnOff s p q off j = off j :=
    fun j hon => if_neg (hoffLevel j hon)
  constructor
  · intro hz j hj hon
    have hj' := hd.kept j hj (fun hh => absurd hh (hoffLevel j hon))
    have := hz j hj' (((hd.own j hj').2 s' p').mpr hon)
    rwa [(hd.other j hj' (hoffLevel j hon)).2, hbase j hon] at this
  · intro hz j hj' hon'
    obtain ⟨hj, hside⟩ := hd.own j hj'
    have hon := (hside s' p').mp hon'
    rw [(hd.other j hj' (hoffLevel j hon)).2, hbase j hon]
    exact hz j hj hon

/-- **A level with exact positions keeps them** unless it goes stale. -/
theorem consumeLevel_self (h : SimInv cfg sim) (hq : 0 ≤ q) (hex : sim.LevelExact s p) :
    (sim.consumeLevel cfg s p q).LevelExact s p ↔ ¬ (Consumption.mk sim s p q).Stale cfg := by
  obtain ⟨off, hoff⟩ := exists_off sim.book sim.track
  obtain ⟨applied, off', hd, hend⟩ := consumeLevel_drawn (s := s) (p := p) h hoff hq
  have hinv := h.consumeLevel s p q
  have hzero := (levelExact_iff h hoff).mp hex
  rw [levelExact_iff hinv hd.pos]
  generalize sim.consumeLevel cfg s p q = y at *
  -- an order that is still on the level: the units have run out
  have hall : ∀ j, y.book.Own cfg.externalRefLimit j → y.book.OnSide s p j → applied = q := by
    intro j hj hon
    refine hend.resolve_right (fun hempty => ?_)
    have hm := (hinv.book.mem s p j).mpr ⟨hj.1, hon⟩
    rw [hempty] at hm
    exact List.not_mem_nil hm
  constructor
  · rintro hz ⟨hpos, hnone, j, hj, hon, hle⟩
    dsimp only at hpos hnone hj hon hle
    have hj' := hd.kept j hj (fun _ => hle)
    have hon' := ((hd.own j hj').2 s p).mpr hon
    have hbase : sim.drawnOff s p q off j = 0 := by rw [drawnOff, if_pos hon, if_pos hnone]
    have h1 := hz j hj' hon'
    have h2 := hall j hj' hon'
    rcases hd.level j hj' hon with ⟨_, h3⟩ | ⟨_, _, h3⟩ <;> omega
  · intro hfresh j hj' hon'
    obtain ⟨hj, hside⟩ := hd.own j hj'
    have hon := (hside s p).mp hon'
    have h1 := hall j hj' hon'
    have h2 := hzero j hj hon
    rcases hd.level j hj' hon with ⟨h3, h4⟩ | ⟨h3, _⟩
    · by_cases hnone : sim.track.levelFind s p = none
      · -- nothing was subtracted, so nothing may have been taken before it
        have h5 := hinv.book.ahead_nonneg j
        have hbase : sim.drawnOff s p q off j = 0 := by rw [drawnOff, if_pos hon, if_pos hnone]
        have h6 : ¬ 0 < q := fun hpos => hfresh ⟨hpos, hnone, j, hj, hon, by dsimp only; omega⟩
        omega
      · have hbase : sim.drawnOff s p q off j = off j - q := by
          rw [drawnOff, if_pos hon, if_neg hnone]
        omega
    · exact h3

/-! ## The consumptions of a call -/

/-- `sim'` is left by the consumptions `cs`, and positions are exact where none went stale. -/
structure Flowed (cfg : SimConfig) (sim sim' : ExecutionSimulator k) (cs : List (Consumption k)) :
    Prop where
  inv : SimInv cfg sim'
  steps : ∀ x ∈ cs, SimInv cfg x.before ∧ 0 ≤ x.qty
  other : ∀ s p, (∀ x ∈ cs, ¬ x.On s p) → (sim'.LevelExact s p ↔ sim.LevelExact s p)
  exact : ∀ s p, sim.LevelExact s p →
    (sim'.LevelExact s p ↔ ∀ x ∈ cs, x.On s p → ¬ x.Stale cfg)

theorem Flowed.still (h : SimInv cfg sim') (hb : sim'.book = sim.book) (ht : sim'.track = sim.track) :
    Flowed cfg sim sim' [] := by
  have hsame : ∀ s p, sim'.LevelExact s p ↔ sim.LevelExact s p := fun s p => by
    rw [LevelExact, LevelExact, hb, ht]
  refine ⟨h, fun x hx => absurd hx List.not_mem_nil, fun s p _ => hsame s p, fun s p hex => ?_⟩
  exact ⟨fun _ x hx => absurd hx List.not_mem_nil, fun _ => (hsame s p).mpr hex⟩

theorem Flowed.consume (h : SimInv cfg sim) (s : Side) (p : Int) (hq : 0 ≤ q) :
    Flowed cfg sim (sim.consumeLevel cfg s p q) [⟨sim, s, p, q⟩] where
  inv := h.consumeLevel s p q
  steps x hx := by
    rw [List.mem_singleton.mp hx]
    exact ⟨h, hq⟩
  other s' p' hno := consumeLevel_other h hq (fun hh => hno _ (List.mem_singleton_self _) hh)
  exact s' p' hex := by
    by_cases hon : s = s' ∧ p = p'
    · obtain ⟨rfl, rfl⟩ := hon
      rw [consumeLevel_self h hq hex]
      exact ⟨fun hs x hx _ => by rwa [List.mem_singleton.mp hx],
        fun hs => hs _ (List.mem_singleton_self _) ⟨rfl, rfl⟩⟩
    · rw [consumeLevel_other h hq hon]
      refine ⟨fun _ x hx hx' => ?_, fun _ => hex⟩
      rw [List.mem_singleton.mp hx] at hx'
      exact absurd hx' hon

/-- Consumptions of other levels do not make up for one. -/
theorem Flowed.append {mid : ExecutionSimulator k} (h : Flowed cfg sim mid cs)
    (h' : Flowed cfg mid sim' cs') (hd : ∀ x ∈ cs, ∀ y ∈ cs', ¬ y.On x.side x.price) :
    Flowed cfg sim sim' (cs ++ cs') where
  inv := h'.inv
  steps x hx := (List.mem_append.mp hx).elim (h.steps x) (h'.steps x)
  other s p hno :=
    (h'.other s p (fun x hx => hno x (List.mem_append_right cs hx))).trans
      (h.other s p (fun x hx => hno x (List.mem_append_left cs' hx)))
  exact s p hex := by
    have hsplit : (∀ x ∈ cs ++ cs', x.On s p → ¬ x.Stale cfg)
        ↔ (∀ x ∈ cs, x.On s p → ¬ x.Stale cfg) ∧ ∀ x ∈ cs', x.On s p → ¬ x.Stale cfg :=
      List.forall_mem_append
    rw [hsplit]
    by_cases hhit : ∃ x ∈ cs, x.On s p
    · obtain ⟨x, hx, rfl, rfl⟩ := hhit
      rw [h'.other _ _ (hd x hx), h.exact _ _ hex]
      exact ⟨fun hs => ⟨hs, fun y hy hon => absurd hon (hd x hx y hy)⟩, fun hs => hs.1⟩
    · have hno : ∀ x ∈ cs, ¬ x.On s p := fun x hx hon => hhit ⟨x, hx, hon⟩
      rw [h'.exact s p ((h.other s p hno).mpr hex)]
      exact ⟨fun hs => ⟨fun x hx hon => absurd hon (hno x hx), hs⟩, fun hs => hs.2⟩

theorem Flowed.walkIdle_iff (h : Flowed cfg sim sim' cs) (hex : Exact sim.book sim.track) :
    sim'.WalkIdle ↔ ∀ x ∈ cs, ¬ x.Stale cfg := by
  rw [ExecutionSimulator.walkIdle_iff h.inv, exact_iff_levels]
  have hlevels := exact_iff_levels.mp hex
  constructor
  · intro hall x hx
    exact (h.exact _ _ (hlevels x.side x.price)).mp (hall _ _) x hx ⟨rfl, rfl⟩
  · intro hno s p
    exact (h.exact s p (hlevels s p)).mpr (fun x hx _ => hno x hx)

/-- The level a depletion walks to next. -/
def nextLevel (b : OrderBook k) (s : Side) (tick : Int) : Int :=
  match s with
  | .buy => b.nextPriceBelow .buy tick
  | .sell => b.nextPriceAbove .sell tick

/-- The consumptions of the depth depletion, pass by pass. -/
def depleteConsumptions (cfg : SimConfig) (s : Side) (scaled : Nat → Nat → Int) :
    Nat → Nat → Int → Nat → ExecutionSimulator k → List (Consumption k)
  | 0, _, _, _, _ => []
  | fuel + 1, lvl, tick, rem, sim =>
      if tick = kNoTick ∨ rem = 0 then []
      else
        let avail := sim.book.qtyAt s tick
        let applied := if 0 < avail then min (max 1 (scaled lvl rem)) avail else 0
        let cs := if 0 < applied then [⟨sim, s, tick, applied⟩] else []
        let sim := if 0 < applied then sim.consumeLevel cfg s tick applied else sim
        let rem := if 0 < applied then rem - toU64 applied else rem
        cs ++ depleteConsumptions cfg s scaled fuel (lvl + 1) (nextLevel sim.book s tick) rem sim

/-- The consumptions of a depletion, at the touch or over several levels. -/
def depletionConsumptions (sim : ExecutionSimulator k) (cfg : SimConfig) (s : Side) (qty : Nat)
    (scaled : Nat → Nat → Int) : List (Consumption k) :=
  if qty = 0 then []
  else if cfg.depthDepletionLevels ≤ 1 ∨ cfg.depthDecayZero then
    let touch := sim.book.best s
    if touch = kNoTick then []
    else
      let applied := min (toI64 qty) (sim.book.qtyAt s touch)
      if applied ≤ 0 then [] else [⟨sim, s, touch, applied⟩]
  else
    depleteConsumptions cfg s scaled cfg.depthDepletionLevels 0 (sim.book.best s) qty sim

/-- The calls that consume levels. -/
def SimCall.External : SimCall → Prop
  | .applyExternal .. => True
  | .advanceTime .. => True
  | _ => False

/-- The consumptions a call makes, in order. -/
def levelConsumptions (sim : ExecutionSimulator k) (cfg : SimConfig) : SimCall → List (Consumption k)
  | .applyExternal s price qty =>
      if sim.halted then []
      else [⟨sim.repegHidden, s, price, min qty (sim.repegHidden.book.qtyAt s price)⟩]
  | .advanceTime dtNs drawnBuy drawnSell scaled =>
      if dtNs = 0 ∨ sim.halted then []
      else
        let extNow := (sim.extNow + dtNs) % 2 ^ 64
        let sim := { sim with extNow, log := { sim.log with nowHint := extNow } }
        sim.depletionConsumptions cfg .buy drawnBuy (scaled .buy)
          ++ (sim.applyDepletion cfg .buy drawnBuy (scaled .buy)).depletionConsumptions cfg .sell
            drawnSell (scaled .sell)
  | _ => []

/-- The next level of a depletion lies behind the one it stands at. -/
theorem nextLevel_worse {b : OrderBook k} (hb : b.Valid) (s : Side) (tick : Int) :
    nextLevel b s tick = kNoTick ∨ better s tick (nextLevel b s tick) := by
  cases s with
  | buy =>
      rcases PriceLadder.firstBelow_spec (hb.ladder .buy) tick with ⟨h1, _⟩ | ⟨_, h2, _⟩
      · exact Or.inl h1
      · exact Or.inr (Int.not_le.mpr h2)
  | sell =>
      rcases PriceLadder.firstAbove_spec (hb.ladder .sell) tick with ⟨h1, _⟩ | ⟨_, h2, _⟩
      · exact Or.inl h1
      · exact Or.inr (Int.not_le.mpr h2)

theorem depleteLoop_succ (s : Side) (scaled : Nat → Nat → Int) (fuel lvl : Nat) (tick : Int)
    (rem : Nat) (sim : ExecutionSimulator k) (applied : Int)
    (happ : applied = if 0 < sim.book.qtyAt s tick then
      min (max 1 (scaled lvl rem)) (sim.book.qtyAt s tick) else 0)
    (mid : ExecutionSimulator k)
    (hmid : mid = if 0 < applied then sim.consumeLevel cfg s tick applied else sim) :
    depleteLoop cfg s scaled (fuel + 1) lvl tick rem sim
      = if tick = kNoTick ∨ rem = 0 then sim
        else depleteLoop cfg s scaled fuel (lvl + 1) (nextLevel mid.book s tick)
          (if 0 < applied then rem - toU64 applied else rem) mid := by
  subst happ hmid
  cases s <;> rfl

/-- **The depth depletion** consumes levels of one side, each behind the one before. -/
theorem depleteLoop_flowed (s : Side) (scaled : Nat → Nat → Int) :
    ∀ fuel lvl tick rem (sim : ExecutionSimulator k), SimInv cfg sim →
      Flowed cfg sim (depleteLoop cfg s scaled fuel lvl tick rem sim)
          (depleteConsumptions cfg s scaled fuel lvl tick rem sim)
        ∧ ∀ x ∈ depleteConsumptions cfg s scaled fuel lvl tick rem sim,
          tick ≠ kNoTick ∧ x.side = s ∧ atLeastAsGood s tick x.price := by
  intro fuel
  induction fuel with
  | zero =>
      intro lvl tick rem sim h
      exact ⟨.still h rfl rfl, fun x hx => absurd hx List.not_mem_nil⟩
  | succ fuel ih =>
      intro lvl tick rem sim h
      rw [depleteLoop_succ s scaled fuel lvl tick rem sim _ rfl _ rfl, depleteConsumptions]
      by_cases hend : tick = kNoTick ∨ rem = 0
      · rw [if_pos hend, if_pos hend]
        exact ⟨.still h rfl rfl, fun x hx => absurd hx List.not_mem_nil⟩
      rw [if_neg hend, if_neg hend]
      rw [not_or] at hend
      dsimp only
      generalize (if 0 < sim.book.qtyAt s tick then
        min (max 1 (scaled lvl rem)) (sim.book.qtyAt s tick) else 0) = applied
      -- the level at hand
      have hone : ∃ cs, cs = (if 0 < applied then [(⟨sim, s, tick, applied⟩ : Consumption k)] else [])
          ∧ Flowed cfg sim (if 0 < applied then sim.consumeLevel cfg s tick applied else sim) cs
          ∧ ∀ x ∈ cs, x.side = s ∧ x.price = tick := by
        by_cases happ : 0 < applied
        · refine ⟨_, (if_pos happ).symm, ?_, fun x hx => ?_⟩
          · rw [if_pos happ]
            exact .consume h s tick (Int.le_of_lt happ)
          · rw [List.mem_singleton.mp hx]
            exact ⟨rfl, rfl⟩
        · refine ⟨_, (if_neg happ).symm, ?_, fun x hx => absurd hx List.not_mem_nil⟩
          rw [if_neg happ]
          exact .still h rfl rfl
      obtain ⟨cs, hcs, hflow, hlevel⟩ := hone
      rw [← hcs]
      generalize (if 0 < applied then sim.consumeLevel cfg s tick applied else sim) = mid at *
      obtain ⟨hrest, hbehind⟩ := ih (lvl + 1) (nextLevel mid.book s tick)
        (if 0 < applied then rem - toU64 applied else rem) mid hflow.inv
      -- the levels behind it
      have hworse : ∀ y ∈ depleteConsumptions cfg s scaled fuel (lvl + 1) (nextLevel mid.book s tick)
          (if 0 < applied then rem - toU64 applied else rem) mid,
          y.side = s ∧ atLeastAsGood s tick y.price ∧ y.price ≠ tick := by
        intro y hy
        obtain ⟨hne, hside, hle⟩ := hbehind y hy
        have hbetter : better s tick (nextLevel mid.book s tick) :=
          (nextLevel_worse hflow.inv.book s tick).resolve_left hne
        refine ⟨hside, atLeastAsGood_trans ((atLeastAsGood_total s _ _).resolve_right hbetter) hle, ?_⟩
        rintro rfl
        exact hbetter hle
      refine ⟨hflow.append hrest (fun x hx y hy hon => ?_), fun x hx => ?_⟩
      · exact (hworse y hy).2.2 (hon.2.trans (hlevel x hx).2)
      · rcases List.mem_append.mp hx with hx | hx
        · obtain ⟨h1, h2⟩ := hlevel x hx
          exact ⟨hend.1, h1, h2 ▸ atLeastAsGood_refl s _⟩
        · exact ⟨hend.1, (hworse x hx).1, (hworse x hx).2.1⟩

theorem applyDepletion_flowed (h : SimInv cfg sim) (s : Side) (qty : Nat)
    (scaled : Nat → Nat → Int) :
    Flowed cfg sim (sim.applyDepletion cfg s qty scaled)
        (sim.depletionConsumptions cfg s qty scaled)
      ∧ ∀ x ∈ sim.depletionConsumptions cfg s qty scaled, x.side = s := by
  have hnone : Flowed cfg sim sim [] ∧ ∀ x ∈ ([] : List (Consumption k)), x.side = s :=
    ⟨.still h rfl rfl, fun x hx => absurd hx List.not_mem_nil⟩
  unfold applyDepletion depletionConsumptions
  by_cases hq : qty = 0
  · rw [if_pos hq, if_pos hq]
    exact hnone
  rw [if_neg hq, if_neg hq]
  by_cases hone : cfg.depthDepletionLevels ≤ 1 ∨ cfg.depthDecayZero = true
  · rw [if_pos hone, if_pos hone]
    dsimp only
    by_cases htouch : sim.book.best s = kNoTick
    · rw [if_pos htouch, if_pos htouch]
      exact hnone
    rw [if_neg htouch, if_neg htouch]
    by_cases happ : min (toI64 qty) (sim.book.qtyAt s (sim.book.best s)) ≤ 0
    · rw [if_pos happ, if_pos happ]
      exact hnone
    · rw [if_neg happ, if_neg happ]
      refine ⟨.consume h s _ (by omega), fun x hx => ?_⟩
      rw [List.mem_singleton.mp hx]
  · rw [if_neg hone, if_neg hone]
    obtain ⟨h1, h2⟩ := depleteLoop_flowed s scaled cfg.depthDepletionLevels 0 (sim.book.best s) qty
      sim h
    exact ⟨h1, fun x hx => (h2 x hx).2.1⟩

/-- **A call of external flow** is its consumptions. -/
theorem call_flowed (h : SimInv cfg sim) {c : SimCall} (hc : c.External)
    (hl : c.Legal cfg.externalRefLimit) :
    Flowed cfg sim (sim.call cfg c) (sim.levelConsumptions cfg c) := by
  cases c with
  | applyExternal s price qty =>
      change Flowed cfg sim (sim.applyExternal cfg s price qty) _
      rw [levelConsumptions, applyExternal]
      by_cases hh : sim.halted = true
      · rw [if_pos hh, if_pos hh]
        exact .still h rfl rfl
      rw [if_neg hh, if_neg hh]
      have hqty : 0 < qty := hl
      have hdepth := qtyAt_nonneg h.repegHidden s price
      have hflow : Flowed cfg sim.repegHidden (sim.repegHidden.consumeLevel cfg s price
          (min qty (sim.repegHidden.book.qtyAt s price)))
          [⟨sim.repegHidden, s, price, min qty (sim.repegHidden.book.qtyAt s price)⟩] :=
        .consume h.repegHidden s price (by omega)
      have hall := (Flowed.still h.repegHidden rfl rfl : Flowed cfg sim _ []).append hflow
        (fun x hx => absurd hx List.not_mem_nil)
      dsimp only
      split
      · exact hall.append (.still (hall.inv.tapped _ _ _ _) rfl rfl)
          (fun x _ y hy => absurd hy List.not_mem_nil)
      · exact hall
  | advanceTime dtNs drawnBuy drawnSell scaled =>
      change Flowed cfg sim (sim.advanceTime cfg dtNs drawnBuy drawnSell scaled) _
      rw [levelConsumptions, advanceTime]
      by_cases hh : dtNs = 0 ∨ sim.halted = true
      · rw [if_pos hh, if_pos hh]
        exact .still h rfl rfl
      rw [if_neg hh, if_neg hh]
      dsimp only
      have hclock : SimInv cfg { sim with
          extNow := (sim.extNow + dtNs) % 2 ^ 64
          log := { sim.log with nowHint := (sim.extNow + dtNs) % 2 ^ 64 } } :=
        { book := h.book, mirror := h.mirror, icebergs := h.icebergs, hidden := h.hidden,
          wheel := h.wheel }
      have hstill : Flowed cfg sim _ [] := .still hclock rfl rfl
      obtain ⟨hbuy, hbids⟩ := applyDepletion_flowed hclock .buy drawnBuy (scaled .buy)
      obtain ⟨hsell, hasks⟩ := applyDepletion_flowed hbuy.inv .sell drawnSell (scaled .sell)
      refine (hstill.append hbuy (fun x hx => absurd hx List.not_mem_nil)).append hsell ?_
      intro x hx y hy hon
      have := (hasks y hy).symm.trans (hon.1.trans (hbids x hx))
      exact Side.noConfusion this
  | seedExternal | seedIceberg | submit | decideNext | cancelStrategy | replaceStrategy
  | setHalted | setStpMode => exact hc.elim

/-- A print consumes one level, up to what is displayed there. -/
theorem print_consumes (hh : sim.halted = false) (s : Side) (p q : Int) :
    (∀ x ∈ sim.levelConsumptions cfg (.applyExternal s p q), ¬ x.Stale cfg)
      ↔ ¬ (Consumption.mk sim.repegHidden s p (min q (sim.book.qtyAt s p))).Stale cfg := by
  rw [levelConsumptions, if_neg (by rw [hh]; exact Bool.false_ne_true)]
  exact List.forall_mem_singleton

/-- One price more than the table has entries is without an entry. -/
theorem exists_no_entry (t : TrackTable) (s : Side) :
    ∃ p : Nat, p < kLevelMapSize + 1 ∧ ¬ t.HasEntry s p := by
  by_contra hall
  have hent : ∀ p : Nat, p < kLevelMapSize + 1 → t.HasEntry s p := fun p hp => by
    by_contra hno
    exact hall ⟨p, hp, hno⟩
  choose! cell hcell using hent
  have hcard : (Finset.range kLevelMapSize).card < (Finset.range (kLevelMapSize + 1)).card := by
    rw [Finset.card_range, Finset.card_range]
    exact Nat.lt_succ_self _
  obtain ⟨p, hp, p', hp', hne, heq⟩ := Finset.exists_ne_map_eq_of_card_lt_of_maps_to hcard
    (f := cell) (fun p hp => Finset.mem_range.mpr (hcell p (Finset.mem_range.mp hp)).1)
  have h1 := (hcell p (Finset.mem_range.mp hp)).2.2
  have h2 := (hcell p' (Finset.mem_range.mp hp')).2.2
  rw [heq, h2] at h1
  exact hne (Int.ofNat.inj h1).symm

/-- A band of one price more than the table has entries, with two slots a price. -/
def wideConfig : SimConfig :=
  { book := ⟨8194, ⟨0, 4097, 3⟩⟩, externalRefLimit := 5000, eventCapacity := 1 }

theorem wideConfig_ok : OrderBook.ConfigOk 12 wideConfig.book :=
  ⟨by decide, by decide, by decide, by decide, by decide⟩

/-- At each of the first `n` prices an external unit and a unit of the strategy behind it. -/
def spread : Nat → List SimCall
  | 0 => []
  | n + 1 => spread n ++ [.seedExternal (n + 1) .buy 1 n,
      .submit { ref := 5000 + n, qty := 1, price := n } 0, .decideNext]

/-- Bids only, `count` of them, under references that are `used`. -/
structure Laid (b : OrderBook 12) (used : Nat → Prop) (count : Nat) : Prop where
  valid : b.Valid
  config : OrderBook.SameConfig (OrderBook.init wideConfig.book) b
  bids : ∀ i, b.live i → (b.order i).side = .buy
  refs : ∀ i, b.live i → used (b.order i).orderRef
  count : b.arena.liveCount = count
  pages : ∀ s, (b.ladderFor s).touched ⊆ {0, 1}

section laid

variable {b b' : OrderBook 12} {used : Nat → Prop} {count ref i n : Nat}

theorem Laid.free (h : Laid b used count) (h0 : ref ≠ 0) (hu : ¬ used ref) :
    (b.findHandle ref).index = kNullIndex :=
  (h.valid.idFind_null_iff h0).mpr (fun i hi he => hu (he ▸ h.refs i hi))

theorem Laid.noAsk (h : Laid b used count) : b.best .sell = kNoTick := by
  by_contra hne
  obtain ⟨i, l, hf⟩ := Sweep.front_of_best h.valid hne
  have := hf.side.symm.trans (h.bids i hf.live)
  exact Side.noConfusion this

/-- There is room for one more bid. -/
theorem Laid.addable (h : Laid b used count) (h0 : ref ≠ 0) (hu : ¬ used ref) (hp : n < 4097)
    (hc : count < 8194) : b.Addable ref .buy 1 n where
  named := h0
  pos := Int.one_pos
  band := by
    have hlo : b.bidLadder.lo = 0 := h.config.lo .buy
    have hhi : b.bidLadder.hi = 4097 := h.config.hi .buy
    refine ⟨?_, ?_⟩ <;> omega
  page := by
    have hlen : (b.ladderFor .buy).poolLen = 3 := h.config.poolLen .buy
    have hcard := Finset.card_le_card (h.pages .buy)
    refine (PriceLadder.claimable_iff (h.valid.ladder .buy)).mpr (Or.inr ?_)
    rw [hlen]
    exact Nat.lt_of_le_of_lt hcard (by decide)
  free := h.free h0 hu
  room := by
    have hcap : b.arena.capacity = 8194 := h.config.capacity
    rw [h.count, hcap]
    exact hc

theorem Laid.rested (h : Laid b used count) (hp : n < 4097)
    (hr : OrderBook.Rested b b.levelSlots b' i ⟨ref, 1, n, .buy⟩) :
    Laid b' (fun r => r = ref ∨ used r) (count + 1) where
  valid := hr.valid
  config := h.config.trans hr.config
  bids j hj := by
    by_cases hji : j = i
    · rw [hji]
      exact hr.side_self
    · rw [(Order.view_eq (hr.frame j hji)).2.2.2]
      exact h.bids j (((hr.live j).mp hj).resolve_left hji)
  refs j hj := by
    by_cases hji : j = i
    · rw [hji]
      exact Or.inl (congrArg OrderView.orderRef hr.self)
    · rw [(Order.view_eq (hr.frame j hji)).1]
      exact Or.inr (h.refs j (((hr.live j).mp hj).resolve_left hji))
  count := by rw [hr.count, h.count]
  pages s := by
    rw [hr.touched]
    split
    · rename_i hs
      have hlo : (b.ladderFor s).lo = 0 := by
        rw [h.config.lo s]
        cases s <;> rfl
      refine Finset.insert_subset ?_ (h.pages s)
      have hdir : (b.ladderFor s).dirIndex n = n / 4096 := by
        rw [PriceLadder.dirIndex, hlo, Int.sub_zero, Int.toNat_natCast]
        rfl
      dsimp only
      rw [hdir, Finset.mem_insert, Finset.mem_singleton]
      omega
    · exact h.pages s

end laid

/-- What `n` rounds of `spread` leave. -/
structure Spread (n : Nat) (sim : ExecutionSimulator 12) : Prop where
  reach : Reachable wideConfig sim
  exact : Exact sim.book sim.track
  laid : Laid sim.book (fun r => r ≤ n ∨ 5000 ≤ r ∧ r < 5000 + n) (2 * n)
  wheel : sim.wheel.empty ∧ sim.wheel.Room
  hidden : sim.hidden = []
  running : sim.halted = false
  levels : ∀ m, m < n → ∃ j, sim.book.Own 5000 j ∧ sim.book.OnSide .buy m j ∧ 1 ≤ sim.book.ahead j

theorem spread_init : Spread 0 (init wideConfig) where
  reach := .init
  exact := by
    intro i v hv
    rw [at?_dead rfl] at hv
    exact absurd hv.symm (Option.some_ne_none v)
  laid :=
    { valid := (OrderBook.init_inv wideConfig_ok).valid
      config := OrderBook.SameConfig.refl _
      bids := fun i hi => Bool.noConfusion hi
      refs := fun i hi => Bool.noConfusion hi
      count := rfl
      pages := by
        intro s
        cases s <;> simp [init, OrderBook.init, OrderBook.ladderFor, PriceLadder.touched,
          PriceLadder.init] }
  wheel := ⟨rfl, fun _ => by decide⟩
  hidden := rfl
  running := rfl
  levels := fun m hm => absurd hm (Nat.not_lt_zero m)

/-- What stands on a level stays there while others join. -/
theorem own_kept {b b' : OrderBook 12} {i : Nat} {v : OrderView} {p : Int} {j : Nat} (hb : b.Valid)
    (hr : OrderBook.Rested b b.levelSlots b' i v) (hj : b.Own 5000 j) (hon : b.OnSide .buy p j)
    (hle : 1 ≤ b.ahead j) : b'.Own 5000 j ∧ b'.OnSide .buy p j ∧ 1 ≤ b'.ahead j := by
  obtain ⟨h1, _, h3⟩ := own_rested hb hr hj
  obtain ⟨_, _, hprice, hside⟩ := Order.view_eq (hr.frame j (fun he => hr.fresh (he ▸ hj.1)))
  refine ⟨h1, ?_, by rw [h3]; exact hle⟩
  rw [OrderBook.OnSide, hside, hprice]
  exact hon

/-- A day order that meets nothing on the other side comes to rest. -/
theorem decide_rests (h : SimInv cfg sim) (order : SimInbound) (htype : order.type = .dayLimit)
    (hpeg : order.peg = .none) (hshown : order.nonDisplayed = false)
    (hopp : sim.book.best order.side.opp = kNoTick)
    (hadd : sim.book.Addable order.ref order.side order.qty order.price) (ts : Nat) :
    ∃ i b, OrderBook.Rested sim.book sim.book.levelSlots b i
        ⟨order.ref, order.qty, order.price, order.side⟩
      ∧ (sim.decide cfg order ts).book = b
      ∧ (sim.decide cfg order ts).track
        = sim.track.trackResting b order.ref order.side order.qty order.price
      ∧ (sim.decide cfg order ts).wheel = sim.wheel
      ∧ (sim.decide cfg order ts).hidden = sim.repegHidden.hidden
      ∧ (sim.decide cfg order ts).halted = sim.halted := by
  have hresolve : resolvePeg order = order := by rw [resolvePeg, htype]
  unfold decide
  dsimp only
  rw [hresolve, if_neg (not_not.mpr hpeg)]
  have hinv : SimInv cfg (sim.withLog (fun l => { l with nowHint := ts })).repegHidden :=
    SimInv.repegHidden (h.logged _)
  have hsame : (sim.withLog (fun l => { l with nowHint := ts })).repegHidden
      = { sim.repegHidden with log := { sim.log with nowHint := ts } } := rfl
  unfold decideResolved
  dsimp only
  generalize (sim.withLog (fun l => { l with nowHint := ts })).repegHidden = a at *
  have hlog := hinv.logged (a.log.drawJitter cfg).2
  have hbook : a.book = sim.book := by rw [hsame]; rfl
  have hcross : ¬ ({ a with log := (a.log.drawJitter cfg).2 } : ExecutionSimulator k).crosses order := by
    rintro ⟨_, hmarket | ⟨htouch, _⟩⟩
    · rw [htype] at hmarket
      exact SimOrderType.noConfusion hmarket
    · exact htouch.1 (by rw [← hopp, ← hbook])
  rw [if_neg (by rw [hbook]; exact not_not.mpr hadd.free), if_neg (fun hh => hcross hh.2),
    if_neg (fun hh => hcross hh.1)]
  have hfinish := finish_cases hlog order order.qty { decisionTs := ts }
    ((ts + cfg.wireLatencyNs + (a.log.drawJitter cfg).1) % 2 ^ 64)
  generalize ExecutionSimulator.finish _ _ _ _ _ = r at *
  have hrests : restsAfter order.type := Or.inl htype
  cases hfinish with
  | refused _ _ hno => exact absurd hadd (by rw [← hbook]; exact hno)
  | displayed i b _ _ _ hr =>
      rw [← hbook]
      refine ⟨i, b, hr, rfl, ?_, ?_, ?_, ?_⟩
      all_goals rw [hsame]; rfl
  | ledger _ hhid => exact absurd hhid (by rw [hshown, hpeg]; simp)
  | cancelled d hno hd => exact absurd ⟨hrests, hadd.pos⟩ hno

/-- **One round** of `spread`. -/
theorem spread_round {n : Nat} {sim : ExecutionSimulator 12} (hn : n < 4097) (h : Spread n sim) :
    Spread (n + 1) (((sim.call wideConfig (.seedExternal (n + 1) .buy 1 n)).call wideConfig
      (.submit { ref := 5000 + n, qty := 1, price := n } 0)).call wideConfig .decideNext) := by
  have hinv := h.reach.simInv wideConfig_ok
  -- the external unit
  have hseedLegal : (SimCall.seedExternal (n + 1) .buy 1 n).Legal wideConfig.externalRefLimit :=
    show n + 1 < 5000 by omega
  have hreach1 := h.reach.step (.seedExternal (n + 1) .buy 1 n) hseedLegal trivial
  have hadd1 : sim.book.Addable (n + 1) .buy 1 n :=
    h.laid.addable (by omega) (by omega) hn (by omega)
  rcases OrderBook.add_cases hinv.book (n + 1) .buy 1 n with ⟨_, _, i1, hr1⟩ | ⟨hno, _⟩
  swap
  · exact absurd hadd1 hno
  have hlaid1 := h.laid.rested hn hr1
  have hexact1 := Off.rested_external hinv.mirror hinv.book h.exact hr1
  generalize hseed : sim.call wideConfig (.seedExternal (n + 1) .buy 1 n) = a at *
  have hbook1 : (sim.book.add (n + 1) .buy 1 n).book = a.book := by rw [← hseed]; rfl
  have hframe1 : a.track = sim.track ∧ a.wheel = sim.wheel ∧ a.hidden = sim.hidden
      ∧ a.halted = sim.halted := by
    rw [← hseed]
    exact ⟨rfl, rfl, rfl, rfl⟩
  rw [hbook1] at hr1 hlaid1 hexact1
  obtain ⟨htrack1, hwheel1, hhidden1, hhalted1⟩ := hframe1
  -- the order of the strategy reaches the scheduler
  have hlegal2 : (SimCall.submit { ref := 5000 + n, qty := 1, price := n } 0).Legal
      wideConfig.externalRefLimit := ⟨Nat.le_add_right 5000 n, by dsimp only; omega⟩
  have hreach2 := hreach1.step (.submit { ref := 5000 + n, qty := 1, price := n } 0) hlegal2 trivial
  generalize hsubmit : a.call wideConfig (.submit { ref := 5000 + n, qty := 1, price := n } 0) = b at *
  have hframe2 : b.book = a.book ∧ b.track = a.track ∧ b.hidden = a.hidden ∧ b.halted = a.halted := by
    rw [← hsubmit]
    exact ⟨rfl, rfl, rfl, rfl⟩
  obtain ⟨hbook2, htrack2, hhidden2, hhalted2⟩ := hframe2
  have hwheel2 : ¬ b.wheel.empty ∧ b.wheel.popMin.1.order = { ref := 5000 + n, qty := 1, price := n }
      ∧ b.wheel.popMin.2.empty ∧ b.wheel.popMin.2.Room := by
    have hpush := Scheduler.push_popMin (w := a.wheel) (by rw [hwheel1]; exact h.wheel.1)
      (by rw [hwheel1]; exact h.wheel.2)
      ((0 + wideConfig.parseLatencyNs + wideConfig.decisionLatencyNs
        + (a.log.drawJitter wideConfig).1) % 2 ^ 64)
      { visibleTs := (0 + wideConfig.parseLatencyNs + wideConfig.decisionLatencyNs
          + (a.log.drawJitter wideConfig).1) % 2 ^ 64
        order := { ref := 5000 + n, qty := 1, price := n } }
    rw [← hsubmit]
    exact ⟨hpush.1, congrArg SimEvent.order hpush.2.1, hpush.2.2⟩
  obtain ⟨hnonempty, horder, hempty, hroom⟩ := hwheel2
  -- and comes to rest behind the external unit
  have hinv2 := hreach2.simInv wideConfig_ok
  have hlaid2 := hlaid1
  have hadd2 : a.book.Addable (5000 + n) .buy 1 n :=
    hlaid2.addable (by omega) (by omega) hn (by omega)
  have hreach3 := hreach2.step .decideNext trivial trivial
  have hpopped : SimInv wideConfig { b with wheel := b.wheel.popMin.2 } :=
    { book := hinv2.book, mirror := hinv2.mirror, icebergs := hinv2.icebergs
      hidden := hinv2.hidden, wheel := (Scheduler.popMin_holds hinv2.wheel hnonempty).2.1 }
  have hcall : b.call wideConfig .decideNext
      = ({ b with wheel := b.wheel.popMin.2 } : ExecutionSimulator 12).decide wideConfig
        { ref := 5000 + n, qty := 1, price := n } b.wheel.popMin.1.visibleTs := by
    show b.decideNext wideConfig = _
    rw [decideNext, if_neg hnonempty, horder]
  have hnoAsk : b.book.best .sell = kNoTick := by rw [hbook2]; exact hlaid2.noAsk
  have hroomy : b.book.Addable (5000 + n) .buy 1 n := by rw [hbook2]; exact hadd2
  obtain ⟨i2, b2, hr2, hbook3, htrack3, hwheel3, hhidden3, hhalted3⟩ :=
    decide_rests hpopped { ref := 5000 + n, qty := 1, price := n } rfl rfl rfl hnoAsk hroomy
      b.wheel.popMin.1.visibleTs
  rw [← hcall] at hbook3 htrack3 hwheel3 hhidden3 hhalted3
  generalize b.call wideConfig .decideNext = c at *
  dsimp only at hr2 htrack3 hwheel3
  have hexact2 : Off b.book b.track (fun _ => 0) := by
    rw [hbook2, htrack2, htrack1]
    exact hexact1
  have hoff := (hpopped.rested hr2 (Nat.le_add_right 5000 n) (by omega) hexact2).2
  rw [hbook2] at hr2
  have hlaid3 := hlaid1.rested hn hr2
  rw [← hbook3] at hoff hr2 hlaid3
  refine { reach := hreach3, exact := ?_, laid := ?_, wheel := ?_, hidden := ?_, running := ?_,
           levels := fun m hm => ?_ }
  · rw [htrack3, ← hbook3]
    exact hoff.congr (fun j _ => (ite_self _).symm)
  · refine { valid := hlaid3.valid, config := hlaid3.config, bids := hlaid3.bids, refs := ?_,
             count := ?_, pages := hlaid3.pages }
    · intro i hi
      rcases hlaid3.refs i hi with hr | hr | hr <;> omega
    · rw [hlaid3.count]
      omega
  · rw [hwheel3]
    exact ⟨hempty, hroom⟩
  · rw [hhidden3]
    show (b.hidden.map _) = []
    rw [hhidden2, hhidden1, h.hidden]
    rfl
  · rw [hhalted3]
    show b.halted = false
    rw [hhalted2, hhalted1]
    exact h.running
  · rcases Nat.lt_succ_iff_lt_or_eq.mp hm with hlt | rfl
    · obtain ⟨j, hj, hon, hle⟩ := h.levels m hlt
      obtain ⟨hj1, hon1, hle1⟩ := own_kept hinv.book hr1 hj hon hle
      obtain ⟨hj2, hon2, hle2⟩ := own_kept hlaid1.valid hr2 hj1 hon1 hle1
      exact ⟨j, hj2, hon2, hle2⟩
    · have hlive := (hr2.live i2).mpr (Or.inl rfl)
      have href : (c.book.order i2).orderRef = 5000 + m := congrArg OrderView.orderRef hr2.self
      refine ⟨i2, ⟨hlive, by omega⟩, ⟨hr2.side_self, hr2.price_self⟩, ?_⟩
      -- the whole level stands before it, the external unit included
      have hahead := hr2.ahead_self hlaid1.valid
      have hlevel := hr1.qtyAt hinv.book .buy m
      have hnonneg := qtyAt_nonneg hinv .buy m
      dsimp only at hahead hlevel
      rw [if_pos ⟨rfl, rfl⟩] at hlevel
      omega

theorem spread_spec (n : Nat) (hn : n ≤ 4097) : Spread n (run wideConfig (spread n)) := by
  induction n with
  | zero => exact spread_init
  | succ n ih =>
      have hround := spread_round (by omega) (ih (by omega))
      rw [run, spread, List.foldl_append]
      exact hround

/-- Once there is an order behind an external unit at one price more than the table has
entries, a unit of flow leaves one of them where it was. -/
theorem Spread.stale {sim : ExecutionSimulator 12} (h : Spread (kLevelMapSize + 1) sim) :
    ∃ p : Nat, p < kLevelMapSize + 1
      ∧ ¬ (sim.call wideConfig (.applyExternal .buy p 1)).WalkIdle := by
  have hinv := h.reach.simInv wideConfig_ok
  obtain ⟨p, hp, hno⟩ := exists_no_entry sim.track .buy
  refine ⟨p, hp, fun hidle => ?_⟩
  have hfresh := (call_flowed hinv (c := .applyExternal .buy p 1) trivial Int.one_pos).walkIdle_iff
    h.exact
  obtain ⟨j, hj, hon, hle⟩ := h.levels p hp
  have hdepth := hinv.book.ahead_add_rem_le hj.1
  have hrem := hinv.book.pos j hj.1
  rw [hon.1, hon.2] at hdepth
  obtain ⟨L, hL⟩ := hinv.mirror.inv
  have hone : min 1 (sim.book.qtyAt .buy p) = 1 := by omega
  rw [print_consumes h.running, hone] at hfresh
  exact hfresh.mp hidle ⟨Int.one_pos, hL.levelFind_eq_none.mpr hno, j, hj, hon, hle⟩

end ExecutionSimulator

end Mog
