import Mog.Book.Delta

/-!
# A ring that has wrapped

A full ring overwrites its oldest entries, and a reader who has seen the totals of an
earlier moment must know whether what is left in the ring still leads from there to now.
The sequence numbers say so: what is left is the last of what was pushed, numbered
without a gap, and it begins where `dropped_count` says.

The reader needs three things from the ring: the entries that are left, the number of the first
of them, and how many were pushed and dropped in all. From these it either folds what is left
onto the totals it has, or knows that something in between is gone. The statement covers every
split of the feed into what the reader saw and what came since.
-/

namespace Mog

namespace DeltaRing

variable {e : Nat}

/-- Deltas under the sequence numbers they are pushed with. -/
def numbered (ds : List LevelDelta) : List Transition :=
  ds.mapIdx fun i d => { seq := i, delta := d }

theorem numbered_length (ds : List LevelDelta) : (numbered ds).length = ds.length :=
  List.length_mapIdx

theorem numbered_getElem (ds : List LevelDelta) {i : Nat} (hi : i < (numbered ds).length) :
    (numbered ds)[i] = { seq := i, delta := ds.get ⟨i, numbered_length ds ▸ hi⟩ } :=
  List.getElem_mapIdx

theorem numbered_delta (ds : List LevelDelta) : (numbered ds).map Transition.delta = ds := by
  refine List.ext_getElem ?_ fun i h1 h2 => ?_
  · rw [List.length_map, numbered_length]
  · rw [List.getElem_map, numbered_getElem]
    rfl

theorem numbered_seq (ds : List LevelDelta) :
    (numbered ds).map Transition.seq = List.range ds.length := by
  refine List.ext_getElem ?_ fun i h1 h2 => ?_
  · rw [List.length_map, numbered_length, List.length_range]
  · rw [List.getElem_map, numbered_getElem, List.getElem_range]

/-- The counters after any number of pushes. -/
theorem fed_counters (ds : List LevelDelta) : (fed (2 ^ e) ds).nextSeq = ds.length
    ∧ (fed (2 ^ e) ds).head = ds.length % 2 ^ e
    ∧ (fed (2 ^ e) ds).size = min ds.length (2 ^ e)
    ∧ (fed (2 ^ e) ds).dropped = ds.length - 2 ^ e := by
  induction ds using List.reverseRecOn with
  | nil => exact ⟨rfl, (Nat.zero_mod _).symm, (Nat.zero_min _).symm, (Nat.zero_sub _).symm⟩
  | append_singleton ds d ih =>
      obtain ⟨hseq, hhead, hsize, hdropped⟩ := ih
      rw [fed_concat, List.length_append, List.length_singleton]
      unfold push
      dsimp only
      refine ⟨by rw [hseq], ?_, ?_, ?_⟩
      · rw [hhead, Nat.and_two_pow_sub_one_eq_mod, Nat.mod_add_mod]
      · rw [hsize]
        split <;> omega
      · rw [hsize, hdropped]
        split <;> omega

/-- The slots of what has not been overwritten. -/
theorem fed_kept (ds : List LevelDelta) : ∀ i d, ds[i]? = some d → ds.length ≤ i + 2 ^ e →
    (fed (2 ^ e) ds).slots (i % 2 ^ e) = { seq := i, delta := d } := by
  induction ds using List.reverseRecOn with
  | nil =>
      intro i d hd
      rw [List.getElem?_nil] at hd
      cases hd
  | append_singleton ds d ih =>
      intro i d' hd' hi
      obtain ⟨hseq, hhead, _⟩ := fed_counters (e := e) ds
      rw [List.length_append, List.length_singleton] at hi
      rw [fed_concat]
      unfold push
      dsimp only
      rw [hseq, hhead, Function.update_apply]
      by_cases hlast : i = ds.length
      · rw [hlast, if_pos rfl]
        rw [hlast, List.getElem?_concat_length] at hd'
        rw [Option.some.inj hd']
      · have hlt : i < ds.length := by
          have hb := (List.getElem?_eq_some_iff.mp hd').1
          rw [List.length_append, List.length_singleton] at hb
          omega
        -- fewer than a whole round lies between the two
        have hne : i % 2 ^ e ≠ ds.length % 2 ^ e := by
          intro hc
          have hmod := Nat.sub_mod_eq_zero_of_mod_eq hc.symm
          have hle := Nat.le_of_dvd (by omega) (Nat.dvd_of_mod_eq_zero hmod)
          omega
        rw [if_neg hne]
        rw [List.getElem?_append_left hlt] at hd'
        exact ih i d' hd' (by omega)

/-- **What is left in a ring** is the last of what was pushed, under its numbers. -/
theorem fed_last (ds : List LevelDelta) :
    (fed (2 ^ e) ds).transitions = (numbered ds).drop (fed (2 ^ e) ds).dropped := by
  obtain ⟨_, hhead, hsize, hdropped⟩ := fed_counters (e := e) ds
  have hpos : 0 < 2 ^ e := Nat.two_pow_pos e
  unfold transitions
  dsimp only
  rw [hdropped]
  refine List.ext_getElem ?_ fun j h1 h2 => ?_
  · rw [List.length_map, List.length_range, List.length_drop, numbered_length, hsize]
    omega
  · rw [List.length_map, List.length_range, hsize] at h1
    have hidx : ((if (fed (2 ^ e) ds).size < 2 ^ e then 0 else (fed (2 ^ e) ds).head) + j) % 2 ^ e
        = (ds.length - 2 ^ e + j) % 2 ^ e := by
      rw [hsize]
      split
      · rw [Nat.sub_eq_zero_of_le (by omega)]
      · rw [hhead, Nat.mod_add_mod]
        have hround : ds.length + j = ds.length - 2 ^ e + j + 2 ^ e := by omega
        rw [hround, Nat.add_mod_right]
    have hlt : ds.length - 2 ^ e + j < ds.length := by omega
    rw [List.getElem_map, List.getElem_range, Nat.and_two_pow_sub_one_eq_mod, hidx,
      fed_kept ds _ _ (List.getElem?_eq_getElem hlt) (by omega), List.getElem_drop, numbered_getElem]
    rfl

/-- What a reader who has seen `seen` transitions has still to fold. -/
def after (r : DeltaRing (2 ^ e)) (seen : Nat) : List LevelDelta :=
  (r.transitions.filter fun t => seen ≤ t.seq).map Transition.delta

/-- A reader who has seen all that was dropped misses nothing. -/
theorem after_of_dropped_le (ds : List LevelDelta) {seen : Nat}
    (h : (fed (2 ^ e) ds).dropped ≤ seen) : (fed (2 ^ e) ds).after seen = ds.drop seen := by
  have hfilter : ∀ n, n ≤ seen →
      ((numbered ds).drop n).filter (fun t => seen ≤ t.seq) = (numbered ds).drop seen := by
    intro n hn
    have hsplit : (numbered ds).drop n
        = ((numbered ds).drop n).take (seen - n) ++ (numbered ds).drop seen := by
      conv_lhs => rw [← List.take_append_drop (seen - n) ((numbered ds).drop n)]
      rw [List.drop_drop, Nat.add_sub_cancel' hn]
    rw [hsplit, List.filter_append, List.filter_eq_nil_iff.mpr, List.filter_eq_self.mpr,
      List.nil_append]
    · intro t ht
      obtain ⟨i, hi, rfl⟩ := List.getElem_of_mem ht
      rw [List.getElem_drop, numbered_getElem]
      exact decide_eq_true (Nat.le_add_right _ _)
    · intro t ht
      obtain ⟨i, hi, rfl⟩ := List.getElem_of_mem ht
      rw [List.length_take] at hi
      rw [List.getElem_take, List.getElem_drop, numbered_getElem, decide_eq_true_iff]
      dsimp only
      omega
  unfold after
  rw [fed_last, hfilter _ h, List.map_drop, numbered_delta]

end DeltaRing

namespace OrderBook

variable {k : Nat}

theorem deltasOf_append (feed feed' : List Message) (b : OrderBook k) :
    b.deltasOf (feed ++ feed') = b.deltasOf feed ++ (b.applyAll feed).deltasOf feed' := by
  induction feed generalizing b with
  | nil => rfl
  | cons c feed ih =>
      show (b.apply c).deltas ++ (b.apply c).book.deltasOf (feed ++ feed') = _
      rw [ih, ← List.append_assoc]
      rfl

/-- A reader who has the level totals after `pre`, and the number of transitions by then, and a
ring that has gone on to the end of `pre ++ post`. -/
structure Resyncs (b : OrderBook k) (e : Nat) (pre post : List Message) : Prop where
  /-- The ring has counted what was pushed, what it holds and what it has dropped. -/
  counters : (DeltaRing.fed (2 ^ e) (b.deltasOf (pre ++ post))).nextSeq
      = (b.deltasOf (pre ++ post)).length
    ∧ (DeltaRing.fed (2 ^ e) (b.deltasOf (pre ++ post))).size
      = min (b.deltasOf (pre ++ post)).length (2 ^ e)
    ∧ (DeltaRing.fed (2 ^ e) (b.deltasOf (pre ++ post))).dropped
      = (b.deltasOf (pre ++ post)).length - 2 ^ e
  /-- It holds what was pushed last, under the numbers of the pushes. -/
  contents : (DeltaRing.fed (2 ^ e) (b.deltasOf (pre ++ post))).transitions
    = (DeltaRing.numbered (b.deltasOf (pre ++ post))).drop
      (DeltaRing.fed (2 ^ e) (b.deltasOf (pre ++ post))).dropped
  /-- What the ring holds is numbered without a gap. -/
  numbers : (DeltaRing.fed (2 ^ e) (b.deltasOf (pre ++ post))).transitions.map Transition.seq
    = List.range' (DeltaRing.fed (2 ^ e) (b.deltasOf (pre ++ post))).dropped
      (DeltaRing.fed (2 ^ e) (b.deltasOf (pre ++ post))).size
  /-- The totals come up to date as long as nothing unseen was dropped. -/
  totals : (DeltaRing.fed (2 ^ e) (b.deltasOf (pre ++ post))).dropped ≤ (b.deltasOf pre).length →
    ∀ s p, (b.applyAll pre).qtyAt s p
        + foldL2 ((DeltaRing.fed (2 ^ e) (b.deltasOf (pre ++ post))).after (b.deltasOf pre).length)
          s p
      = (b.applyAll (pre ++ post)).qtyAt s p
  /-- Otherwise every number in the ring is past the next one to be seen. -/
  gap : (b.deltasOf pre).length < (DeltaRing.fed (2 ^ e) (b.deltasOf (pre ++ post))).dropped →
    ∀ t ∈ (DeltaRing.fed (2 ^ e) (b.deltasOf (pre ++ post))).transitions,
      (b.deltasOf pre).length < t.seq

/--
**A reader catches up from the ring, or sees that it cannot.**

For every feed of messages with proper references that brings no order of `2 ^ 31` shares
or more to rest, every capacity of the ring and every moment of the feed.
-/
theorem resyncs {cfg : BookConfig} (hc : ConfigOk k cfg) (e : Nat) (pre post : List Message)
    (hn : ∀ m ∈ pre ++ post, m.Named)
    (hf : ∀ feed m, feed ++ [m] <+: pre ++ post → ((init cfg : OrderBook k).applyAll feed).Fits m) :
    (init cfg : OrderBook k).Resyncs e pre post := by
  obtain ⟨hpre, _⟩ := folds_of_fits hc pre (fun m hm => hn m (List.mem_append_left _ hm))
    fun feed m hp => hf feed m (hp.trans (List.prefix_append _ _))
  obtain ⟨hall, _⟩ := folds_of_fits hc (pre ++ post) hn hf
  generalize (init cfg : OrderBook k) = b at *
  obtain ⟨hseq, _, hsize, hdropped⟩ := DeltaRing.fed_counters (e := e) (b.deltasOf (pre ++ post))
  refine ⟨⟨hseq, hsize, hdropped⟩, DeltaRing.fed_last _, ?_, fun hle s p => ?_, fun hlt t ht => ?_⟩
  · rw [DeltaRing.fed_last, List.map_drop, DeltaRing.numbered_seq, hsize, hdropped,
      List.range_eq_range', List.drop_range']
    congr 1
    · omega
    · omega
  · rw [DeltaRing.after_of_dropped_le _ hle, ← hall, deltasOf_append, List.drop_left, ← hpre,
      foldL2_append]
  · have hmem : t.seq ∈ (DeltaRing.fed (2 ^ e) (b.deltasOf (pre ++ post))).transitions.map
        Transition.seq := List.mem_map_of_mem ht
    rw [DeltaRing.fed_last, List.map_drop, DeltaRing.numbered_seq, List.range_eq_range',
      List.drop_range', List.mem_range'_1] at hmem
    omega

/-- A ring of one entry, which the second of two bids overwrites. -/
theorem resyncs_overwritten :
    (init ⟨2, ⟨0, 16, 1⟩⟩ : OrderBook 4).Resyncs 0 [.addOrder ⟨⟨0, 0, 0⟩, 1, .buy, 5, [], 3⟩]
      [.addOrder ⟨⟨0, 0, 0⟩, 2, .buy, 7, [], 4⟩] := by
  have hmem : ∀ m ∈ [Message.addOrder ⟨⟨0, 0, 0⟩, 1, .buy, 5, [], 3⟩]
      ++ [.addOrder ⟨⟨0, 0, 0⟩, 2, .buy, 7, [], 4⟩],
      m.Named ∧ ∀ b : OrderBook 4, b.Fits m := by
    intro m hm
    rcases List.mem_append.mp hm with hm | hm
    all_goals
      obtain rfl := List.mem_singleton.mp hm
      refine ⟨(by decide : _ ≠ 0), fun b q hq => ?_⟩
      rw [← hq.2]
      decide
  exact resyncs ⟨by decide, by decide, by decide, by decide, by decide⟩ 0 _ _
    (fun m hm => (hmem m hm).1) fun feed m hp =>
      (hmem m (hp.subset (List.mem_append_right _ (List.mem_singleton_self m)))).2 _

end OrderBook

end Mog
