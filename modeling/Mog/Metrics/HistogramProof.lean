import Mog.Metrics.Histogram

/-!
# What the watermarks say

Whatever the threads do, a watermark never falls, holds nothing that was not recorded in its
bucket, and is at least every tick whose `record` has returned; between the calls the histogram
is the one of the ticks recorded.

What makes the loop work is that a watermark falls for nobody: a thread that has seen a value
knows that the cell is at least that for good, so a thread that leaves the loop leaves a
watermark no lower than its tick. The invariant keeps, for each thread inside, what it has
counted and what it has seen.
-/

namespace Mog

open Threads

namespace TickHistogram

variable {ι : Type} {kBuckets : Nat} {h : TickHistogram} {b t v : Nat}

/-! ## Buckets -/

theorem bucketOf_lt (hk : 0 < kBuckets) (t : Nat) : bucketOf kBuckets t < kBuckets := by
  unfold bucketOf
  split <;> omega

/-- **The bounds of a bucket**: the first has no lower bound, the last no upper one. -/
theorem bucketOf_bounds (ht : t < 2 ^ 64) :
    (bucketOf kBuckets t = 0 ∨ bucketLo (bucketOf kBuckets t) ≤ t)
    ∧ (bucketOf kBuckets t = kBuckets - 1 ∨ t < bucketLo (bucketOf kBuckets t + 1)) := by
  by_cases hsmall : t < 16
  · have hzero : bucketOf kBuckets t = 0 := if_pos hsmall
    rw [hzero]
    exact ⟨Or.inl rfl, Or.inr (Nat.lt_of_lt_of_le hsmall (by decide))⟩
  · have hword : BitVec.ofNat 64 t ≠ 0#64 := by
      intro hz
      have := congrArg BitVec.toNat hz
      rw [BitVec.toNat_ofNat, Nat.mod_eq_of_lt ht] at this
      simp only [BitVec.toNat_zero] at this
      omega
    obtain ⟨hlz, hset, hhigh⟩ := WordScan.countlZero_spec hword
    generalize hm : 63 - WordScan.countlZero (BitVec.ofNat 64 t) = m at hset hhigh
    have hbit : ∀ i, (BitVec.ofNat 64 t).getLsbD i = (decide (i < 64) && t.testBit i) :=
      fun i => BitVec.getLsbD_ofNat _ _ _
    have hlow : 2 ^ m ≤ t := by
      rw [hbit, Bool.and_eq_true] at hset
      exact Nat.ge_two_pow_of_testBit hset.2
    have hup : t < 2 ^ (m + 1) := by
      refine Nat.lt_pow_two_of_testBit t fun i hi => ?_
      rcases Nat.lt_or_ge i 64 with hlt | hge
      · have := hhigh i (by omega)
        rwa [hbit, decide_eq_true hlt, Bool.true_and] at this
      · exact Nat.testBit_lt_two_pow (Nat.lt_of_lt_of_le ht (Nat.pow_le_pow_right (by decide) hge))
    have hm4 : 4 ≤ m := by
      by_contra hlt
      have : 2 ^ (m + 1) ≤ 2 ^ 4 := Nat.pow_le_pow_right (by decide) (by omega)
      omega
    have hof : bucketOf kBuckets t = min (m - 4) (kBuckets - 1) := by
      unfold bucketOf
      rw [if_neg hsmall, hm]
    have hlo : ∀ c, bucketLo c = 2 ^ (c + 4) := by
      intro c
      unfold bucketLo
      rw [Nat.pow_add, Nat.mul_comm]
    rw [hof, hlo, hlo]
    refine ⟨Or.inr (Nat.le_trans (Nat.pow_le_pow_right (by decide) (by omega)) hlow), ?_⟩
    rcases Nat.lt_or_ge (m - 4) (kBuckets - 1) with hlt | hge
    · rw [Nat.min_eq_left (Nat.le_of_lt hlt), show m - 4 + 1 + 4 = m + 1 by omega]
      exact Or.inr hup
    · exact Or.inl (Nat.min_eq_right hge)

/-! ## One access on the cells -/

theorem mem_ticksOf {l : List Nat} : t ∈ ticksOf kBuckets l b ↔ t ∈ l ∧ bucketOf kBuckets t = b := by
  unfold ticksOf
  rw [List.mem_filter, decide_eq_true_iff]

theorem length_ticksOf_append (l : List Nat) (t b : Nat) :
    (ticksOf kBuckets (l ++ [t]) b).length
      = (ticksOf kBuckets l b).length + if bucketOf kBuckets t = b then 1 else 0 := by
  unfold ticksOf
  rw [List.filter_append, List.length_append]
  by_cases hb : bucketOf kBuckets t = b <;> simp [hb]

/-- What a watermark has held falls from its current value on. -/
def Falls (h : TickHistogram) : Prop := ∀ b, (h.maxima b).Pairwise (· > ·)

theorem Falls.le_max (hf : h.Falls) (hv : v ∈ h.maxima b) : v ≤ h.bucketMax b := by
  have hpair := hf b
  unfold bucketMax
  cases hl : h.maxima b with
  | nil =>
      rw [hl] at hv
      exact absurd hv List.not_mem_nil
  | cons w l =>
      rw [hl] at hv hpair
      rcases List.mem_cons.mp hv with rfl | hmem
      · exact Nat.le_refl _
      · exact Nat.le_of_lt ((List.pairwise_cons.mp hpair).1 v hmem)

theorem maxima_setMax_self (h : TickHistogram) (b t : Nat) :
    (h.setMax b t).maxima b = t :: h.maxima b := Function.update_self _ _ _

theorem maxima_setMax_other {c : Nat} (hc : c ≠ b) : (h.setMax b t).maxima c = h.maxima c :=
  Function.update_of_ne hc _ _

theorem Falls.setMax (hf : h.Falls) (hlt : h.bucketMax b < t) : (h.setMax b t).Falls := by
  intro c
  by_cases hc : c = b
  · rw [hc, maxima_setMax_self, List.pairwise_cons]
    exact ⟨fun v hv => Nat.lt_of_le_of_lt (hf.le_max hv) hlt, hf b⟩
  · rw [maxima_setMax_other hc]
    exact hf c

theorem mem_setMax (hv : v ∈ h.maxima b) (c : Nat) : v ∈ (h.setMax c t).maxima b := by
  by_cases hb : b = c
  · rw [← hb, maxima_setMax_self]
    exact List.mem_cons_of_mem t hv
  · rw [maxima_setMax_other hb]
    exact hv

/-- The watermark of a bucket has only risen. -/
theorem Falls.max_le_setMax (hlt : h.bucketMax b < t) (c : Nat) :
    h.bucketMax c ≤ (h.setMax b t).bucketMax c := by
  by_cases hc : c = b
  · unfold bucketMax at hlt ⊢
    rw [hc, maxima_setMax_self]
    exact Nat.le_of_lt hlt
  · unfold bucketMax
    rw [maxima_setMax_other hc]

/-! ## What holds between two accesses -/

/-- The tick that a thread has counted and not finished. -/
def pending : RecordPc → Option Nat
  | .idle => none
  | .count _ => none
  | .load t => some t
  | .test t _ => some t

/-- What a thread knows at its place. -/
def Knows (kBuckets : Nat) (h : TickHistogram) : RecordPc → Prop
  | .idle => True
  | .count t => t < 2 ^ 64
  | .load t => t ∈ h.counted
  | .test t prev => t ∈ h.counted ∧ prev ∈ h.maxima (bucketOf kBuckets t)

structure Inv (kBuckets : Nat) (s : System ι TickHistogram RecordPc) : Prop where
  falls : s.shared.Falls
  held : ∀ b, s.shared.maxima b ≠ []
  /-- Nothing is invented. -/
  origin : ∀ b, ∀ v ∈ s.shared.maxima b, v = 0 ∨ v ∈ ticksOf kBuckets s.shared.counted b
  counts : ∀ b, s.shared.counts b = (ticksOf kBuckets s.shared.counted b).length % 2 ^ 64
  reached : ∀ t ∈ s.shared.recorded, t ≤ s.shared.bucketMax (bucketOf kBuckets t)
  knows : ∀ w, s.shared.Knows kBuckets (s.locals w)
  unfinished : ∀ t ∈ s.shared.counted,
    t ∈ s.shared.recorded ∨ ∃ w, pending (s.locals w) = some t

theorem inv_begin : Inv kBuckets (begin ι) where
  falls := fun _ => List.pairwise_singleton _ _
  held := fun _ => List.cons_ne_nil _ _
  origin := fun _ _ hv => Or.inl (List.mem_singleton.mp hv)
  counts := fun _ => rfl
  reached := fun _ ht => absurd ht List.not_mem_nil
  knows := fun _ => trivial
  unfinished := fun _ ht => absurd ht List.not_mem_nil

theorem Knows.mono {h' : TickHistogram} {p : RecordPc} (hp : h.Knows kBuckets p)
    (hcounted : ∀ t ∈ h.counted, t ∈ h'.counted)
    (hmaxima : ∀ b, ∀ v ∈ h.maxima b, v ∈ h'.maxima b) : h'.Knows kBuckets p := by
  cases p with
  | idle => trivial
  | count t => exact hp
  | load t => exact hcounted t hp
  | test t prev => exact ⟨hcounted t hp.1, hmaxima _ prev hp.2⟩

variable [DecidableEq ι] {s : System ι TickHistogram RecordPc} {w : ι}

/-- A step of a thread that keeps its pending tick, or has none, leaves the others' alone. -/
theorem pending_after {h' : TickHistogram} {p : RecordPc}
    (hp : ∀ t, pending (s.locals w) = some t → pending p = some t) {t : Nat}
    (ht : ∃ v, pending (s.locals v) = some t) :
    ∃ v, pending ((s.after w h' p).locals v) = some t := by
  obtain ⟨v, hv⟩ := ht
  refine ⟨v, ?_⟩
  by_cases hvw : v = w
  · rw [hvw, System.after_self]
    rw [hvw] at hv
    exact hp t hv
  · rw [System.after_other hvw]
    exact hv

/-- A step that only moves a thread. -/
theorem Inv.move (hi : Inv kBuckets s) {p : RecordPc} (hknows : s.shared.Knows kBuckets p)
    (hp : ∀ t, pending (s.locals w) = some t → pending p = some t) :
    Inv kBuckets (s.after w s.shared p) where
  falls := hi.falls
  held := hi.held
  origin := hi.origin
  counts := hi.counts
  reached := hi.reached
  knows := System.after_cases (P := fun _ => s.shared.Knows kBuckets) hknows fun v _ => hi.knows v
  unfinished := fun t ht => (hi.unfinished t ht).imp_right (pending_after hp)

/-- The increment of the count. -/
theorem Inv.count (hi : Inv kBuckets s) {t : Nat} (hw : s.locals w = .count t) :
    Inv kBuckets (s.after w (s.shared.addCount (bucketOf kBuckets t) t) (.load t)) where
  falls := hi.falls
  held := hi.held
  origin := by
    intro b v hv
    refine (hi.origin b v hv).imp_right fun hmem => ?_
    obtain ⟨hmem, hb⟩ := mem_ticksOf.mp hmem
    exact mem_ticksOf.mpr ⟨List.mem_append_left _ hmem, hb⟩
  counts := by
    intro b
    show Function.update s.shared.counts (bucketOf kBuckets t)
        ((s.shared.counts (bucketOf kBuckets t) + 1) % 2 ^ 64) b
      = (ticksOf kBuckets (s.shared.counted ++ [t]) b).length % 2 ^ 64
    rw [length_ticksOf_append]
    by_cases hb : b = bucketOf kBuckets t
    · rw [hb, Function.update_self, hi.counts, if_pos rfl, Nat.mod_add_mod]
    · rw [Function.update_of_ne hb, hi.counts, if_neg (Ne.symm hb), Nat.add_zero]
  reached := hi.reached
  knows := by
    refine System.after_cases (P := fun _ => Knows kBuckets _) ?_ fun v _ => ?_
    · exact List.mem_append_right _ (List.mem_singleton_self t)
    · exact (hi.knows v).mono (fun u hu => List.mem_append_left _ hu) fun _ _ hv => hv
  unfinished := by
    intro u hu
    rcases List.mem_append.mp hu with hold | hnew
    · refine (hi.unfinished u hold).imp_right (pending_after fun v hv => ?_)
      rw [hw] at hv
      cases hv
    · refine Or.inr ⟨w, ?_⟩
      rw [System.after_self, List.mem_singleton.mp hnew]
      rfl

/-- The end of a call, over cells that hold at least its tick. -/
theorem Inv.finish (hi : Inv kBuckets s) {t : Nat} {g : TickHistogram}
    (hw : pending (s.locals w) = some t) (hcounted : t ∈ s.shared.counted)
    (hg : g = s.shared ∧ t ≤ s.shared.bucketMax (bucketOf kBuckets t)
      ∨ g = s.shared.setMax (bucketOf kBuckets t) t
        ∧ s.shared.bucketMax (bucketOf kBuckets t) < t) :
    Inv kBuckets (s.after w (g.finish t) .idle) := by
  have hsame : g.counts = s.shared.counts ∧ g.counted = s.shared.counted
      ∧ g.recorded = s.shared.recorded := by
    rcases hg with ⟨rfl, -⟩ | ⟨rfl, -⟩ <;> exact ⟨rfl, rfl, rfl⟩
  obtain ⟨hcounts, hlog, hrecorded⟩ := hsame
  have hmaxima : ∀ b, ∀ v ∈ s.shared.maxima b, v ∈ g.maxima b := by
    rcases hg with ⟨rfl, -⟩ | ⟨rfl, -⟩
    · exact fun _ _ hv => hv
    · exact fun b v hv => mem_setMax hv _
  -- A write to the maximum of a bucket only raises it, and it now reaches the tick in hand.
  have hmax : ∀ b, s.shared.bucketMax b ≤ g.bucketMax b := by
    rcases hg with ⟨rfl, -⟩ | ⟨rfl, hlt⟩
    · exact fun _ => Nat.le_refl _
    · exact Falls.max_le_setMax hlt
  have htop : t ≤ g.bucketMax (bucketOf kBuckets t) := by
    rcases hg with ⟨rfl, hle⟩ | ⟨rfl, -⟩
    · exact hle
    · unfold bucketMax
      rw [maxima_setMax_self]
      exact Nat.le_refl _
  refine
    { falls := ?_, held := ?_, origin := ?_, counts := ?_, reached := ?_, knows := ?_
      unfinished := ?_ }
  · show g.Falls
    rcases hg with ⟨rfl, -⟩ | ⟨rfl, hlt⟩
    · exact hi.falls
    · exact hi.falls.setMax hlt
  -- A bucket's maximum has always held something, and what it holds is a tick that was counted.
  · intro b hb
    have hsome := List.exists_mem_of_ne_nil _ (hi.held b)
    obtain ⟨v, hv⟩ := hsome
    have hmem := hmaxima b v hv
    rw [show g.maxima b = [] from hb] at hmem
    exact List.not_mem_nil hmem
  · show ∀ b, ∀ v ∈ g.maxima b, v = 0 ∨ v ∈ ticksOf kBuckets g.counted b
    rw [hlog]
    rcases hg with ⟨rfl, -⟩ | ⟨rfl, -⟩
    · exact hi.origin
    · intro b v hv
      by_cases hb : b = bucketOf kBuckets t
      · rw [hb, maxima_setMax_self] at hv
        rw [hb]
        rcases List.mem_cons.mp hv with rfl | hold
        · exact Or.inr (mem_ticksOf.mpr ⟨hcounted, rfl⟩)
        · exact hi.origin _ v hold
      · rw [maxima_setMax_other hb] at hv
        exact hi.origin b v hv
  · show ∀ b, g.counts b = (ticksOf kBuckets g.counted b).length % 2 ^ 64
    rw [hcounts, hlog]
    exact hi.counts
  -- The ticks recorded before stay below their maxima; the new one is below its own.
  · show ∀ u ∈ g.recorded ++ [t], u ≤ g.bucketMax (bucketOf kBuckets u)
    rw [hrecorded]
    intro u hu
    rcases List.mem_append.mp hu with hold | hnew
    · exact Nat.le_trans (hi.reached u hold) (hmax _)
    · rw [List.mem_singleton.mp hnew]
      exact htop
  · refine System.after_cases (P := fun _ => Knows kBuckets _) trivial fun v _ => ?_
    refine (hi.knows v).mono ?_ hmaxima
    show ∀ u ∈ s.shared.counted, u ∈ g.counted
    rw [hlog]
    exact fun _ hu => hu
  -- The tick that was on its way is recorded now; the others are still with their threads.
  · show ∀ u ∈ g.counted, u ∈ g.recorded ++ [t] ∨ _
    rw [hlog, hrecorded]
    intro u hu
    rcases hi.unfinished u hu with hold | ⟨v, hv⟩
    · exact Or.inl (List.mem_append_left _ hold)
    · by_cases hvw : v = w
      · rw [hvw, hw] at hv
        rw [← Option.some.inj hv]
        exact Or.inl (List.mem_append_right _ (List.mem_singleton_self t))
      · refine Or.inr ⟨v, ?_⟩
        rw [System.after_other hvw]
        exact hv

/-- **Every access keeps the invariant.** -/
theorem Inv.access (hi : Inv kBuckets s) (w : ι) (h' : TickHistogram) (p : RecordPc)
    (ha : Access kBuckets s.shared (s.locals w) h' p) : Inv kBuckets (s.after w h' p) := by
  generalize hpc : s.locals w = q at ha
  have hknows := hi.knows w
  rw [hpc] at hknows
  cases ha with
  | start t ht =>
      refine hi.move ht fun u hu => ?_
      rw [hpc] at hu
      cases hu
  | count t => exact hi.count hpc
  | load t prev hseen =>
      refine hi.move ⟨hknows, hseen⟩ fun u hu => ?_
      rw [hpc] at hu
      exact hu
  | leave t prev hle =>
      refine hi.finish (by rw [hpc]; rfl) hknows.1 (Or.inl ⟨rfl, ?_⟩)
      exact Nat.le_trans hle (hi.falls.le_max hknows.2)
  | exchange t prev hlt hcurrent =>
      refine hi.finish (by rw [hpc]; rfl) hknows.1 (Or.inr ⟨rfl, ?_⟩)
      rw [hcurrent]
      exact hlt
  | retry t prev seen hlt hseen =>
      refine hi.move ⟨hknows.1, hseen⟩ fun u hu => ?_
      rw [hpc] at hu
      exact hu
  | fetchMax t =>
      refine hi.finish (by rw [hpc]; rfl) hknows ?_
      by_cases hlt : s.shared.bucketMax (bucketOf kBuckets t) < t
      · rw [if_pos hlt]
        exact Or.inr ⟨rfl, hlt⟩
      · rw [if_neg hlt]
        exact Or.inl ⟨rfl, Nat.le_of_not_lt hlt⟩

theorem inv_reachable (h : Reachable (Access kBuckets) (begin ι) s) : Inv kBuckets s :=
  h.keeps inv_begin fun _ w h' p hi ha => hi.access w h' p ha

/-! ## The histogram between calls -/

/-- The largest tick of a list, or zero. -/
def largest (l : List Nat) : Nat := l.foldr max 0

theorem le_largest {l : List Nat} (ht : t ∈ l) : t ≤ largest l := by
  induction l with
  | nil => exact absurd ht List.not_mem_nil
  | cons a l ih =>
      rcases List.mem_cons.mp ht with rfl | hmem
      · exact Nat.le_max_left _ _
      · exact Nat.le_trans (ih hmem) (Nat.le_max_right _ _)

theorem largest_le {l : List Nat} {m : Nat} (h : ∀ t ∈ l, t ≤ m) : largest l ≤ m := by
  induction l with
  | nil => exact Nat.zero_le _
  | cons a l ih =>
      exact Nat.max_le.mpr ⟨h a List.mem_cons_self, ih fun t ht => h t (List.mem_cons_of_mem a ht)⟩

/-- **Watermarks under any interleaving**: a watermark never falls and holds only recorded ticks,
a finished `record` is below it for good, and once no thread is inside a call the counts and the
watermarks are those of the ticks recorded. -/
theorem watermarks_exact (kBuckets : Nat) (hk : 0 < kBuckets)
    (h : Reachable (Access kBuckets) (begin ι) s) :
    -- what a reader may have seen of a watermark falls away from its current value
    (∀ b, (s.shared.maxima b).Pairwise (· > ·))
    ∧ (∀ b, ∀ v ∈ s.shared.maxima b, v = 0 ∨ v ∈ ticksOf kBuckets s.shared.counted b)
    ∧ (∀ t ∈ s.shared.recorded, t ≤ s.shared.bucketMax (bucketOf kBuckets t))
    ∧ ((∀ w, s.locals w = .idle) → ∀ b,
      s.shared.counts b = (ticksOf kBuckets s.shared.counted b).length % 2 ^ 64
      ∧ s.shared.bucketMax b = largest (ticksOf kBuckets s.shared.counted b))
    -- and a tick is counted in the bucket of its size
    ∧ ∀ t < 2 ^ 64, bucketOf kBuckets t < kBuckets
      ∧ (bucketOf kBuckets t = 0 ∨ bucketLo (bucketOf kBuckets t) ≤ t)
      ∧ (bucketOf kBuckets t = kBuckets - 1 ∨ t < bucketLo (bucketOf kBuckets t + 1)) := by
  have hi := inv_reachable h
  refine ⟨hi.falls, hi.origin, hi.reached, ?_, fun t ht => ⟨bucketOf_lt hk t, bucketOf_bounds ht⟩⟩
  intro hidle b
  refine ⟨hi.counts b, Nat.le_antisymm ?_ (largest_le fun t ht => ?_)⟩
  · have hmem : s.shared.bucketMax b ∈ s.shared.maxima b := by
      unfold bucketMax
      cases hl : s.shared.maxima b with
      | nil => exact absurd hl (hi.held b)
      | cons v l => exact List.mem_cons_self
    rcases hi.origin b _ hmem with hzero | hticks
    · rw [hzero]
      exact Nat.zero_le _
    · exact le_largest hticks
  · obtain ⟨hmem, hb⟩ := mem_ticksOf.mp ht
    rw [← hb]
    rcases hi.unfinished t hmem with hrec | ⟨w, hw⟩
    · exact hi.reached t hrec
    · rw [hidle w] at hw
      cases hw

/-- Two threads record 1000 and 900 in one bucket; the second sees a watermark that is gone. -/
theorem watermarks_exact_twoThreads :
    ∃ s : System (Fin 2) TickHistogram RecordPc, Reachable (Access 16) (begin (Fin 2)) s
      ∧ s.shared.bucketMax 5 = 1000 ∧ 900 ≤ s.shared.bucketMax (bucketOf 16 900) := by
  have hrun := ((((((((Relation.ReflTransGen.refl (a := begin (Fin 2))).tail
    (Step.access 0 _ _ (Access.start _ 1000 (by decide)))).tail
    (Step.access 1 _ _ (Access.start _ 900 (by decide)))).tail
    (Step.access 0 _ _ (@Access.count 16 _ 1000))).tail
    (Step.access 1 _ _ (Access.count _ 900))).tail
    (Step.access 0 _ _ (Access.load _ 1000 0 (by decide)))).tail
    (Step.access 1 _ _ (Access.load _ 900 0 (by decide)))).tail
    (Step.access 0 _ _ (Access.exchange _ 1000 0 (by decide) (by decide)))).tail
    (Step.access 1 _ _ (Access.retry _ 900 0 1000 (by decide) (by decide)))
  have hrun := hrun.tail (Step.access 1 _ _ (Access.leave _ 900 1000 (by decide)))
  have hexact := watermarks_exact 16 (by decide) hrun
  exact ⟨_, hrun, by decide, hexact.2.2.1 900 (by decide)⟩

end TickHistogram

end Mog
