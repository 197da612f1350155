import Mog.Replay.Trades

/-!
# Reconstruction and replay see the same frames

The two drivers repeat the transport loops with different sinks. A loop does not look at
what it threads, so both deliver the frames of the same division and stop at the same
fault.

A transport loop threads a state that its callback changes. The lemma that matters is that the
loop's decisions, where a frame ends and what error it stops with, do not depend on that state.
The two drivers are then compared callback by callback: what the one replays the other records.
-/

namespace Mog

namespace Mold

/-! ## The packet framer does not look at its sink -/

section

variable {σ : Type} {buf : List UInt8} (sink : σ → Nat × List UInt8 × Nat → σ) (s : σ)

/-- The sink that keeps its calls. -/
def record (l : List (Nat × List UInt8 × Nat)) (q : Nat × List UInt8 × Nat) :
    List (Nat × List UInt8 × Nat) := l ++ [q]

theorem foldl_recorded (l : List (Nat × List UInt8 × Nat)) (q : Nat × List UInt8 × Nat) :
    sink (l.foldl sink s) q = (record l q).foldl sink s := by
  unfold record
  rw [List.foldl_append]
  rfl

theorem messageLoop_fold (n : Nat) (off seq : Nat) (l : List (Nat × List UInt8 × Nat)) :
    messageLoop sink buf n off seq (l.foldl sink s)
      = ((messageLoop record buf n off seq l).1,
          (messageLoop record buf n off seq l).2.foldl sink s) := by
  induction n generalizing off seq l with
  | zero => rfl
  | succ n ih =>
      rw [messageLoop, messageLoop]
      by_cases hshort : buf.length - off < 2
      · rw [if_pos hshort, if_pos hshort]
      rw [if_neg hshort, if_neg hshort]
      cases readAt buf off 2 with
      | none => rfl
      | some prefixBytes =>
          dsimp only
          by_cases hzero : Wire.loadBe prefixBytes = 0
          · rw [if_pos hzero, if_pos hzero]
          rw [if_neg hzero, if_neg hzero]
          by_cases hcut : buf.length - (off + 2) < Wire.loadBe prefixBytes
          · rw [if_pos hcut, if_pos hcut]
          rw [if_neg hcut, if_neg hcut]
          cases readAt buf (off + 2) (Wire.loadBe prefixBytes) with
          | none => rfl
          | some payload =>
              dsimp only
              rw [foldl_recorded sink s l]
              exact ih _ _ _

/-- **A run of the framer** is a fold over calls that do not depend on the sink. -/
theorem packetLoop_fold (n : Nat) : ∀ {off : Nat}, buf.length - off ≤ n →
    ∀ (c : Continuity) (l : List (Nat × List UInt8 × Nat)),
      packetLoop sink buf off c (l.foldl sink s)
        = ((packetLoop record buf off c l).1, (packetLoop record buf off c l).2.foldl sink s) := by
  induction n with
  | zero =>
      intro off hn c l
      rw [packetLoop, packetLoop, if_neg (by omega), if_neg (by omega)]
  | succ n ih =>
      intro off hn c l
      have hheader : 0 < kPacketHeaderSize := by decide
      rw [packetLoop, packetLoop]
      by_cases hend : off < buf.length
      swap
      · rw [if_neg hend, if_neg hend]
      rw [if_pos hend, if_pos hend]
      by_cases hshort : buf.length - off < kPacketHeaderSize
      · rw [if_pos hshort, if_pos hshort]
      rw [if_neg hshort, if_neg hshort]
      cases readAt buf off kPacketHeaderSize with
      | none => rfl
      | some p =>
          dsimp only
          cases checkContinuity c (loadPacketHeader p) off with
          | error e => rfl
          | ok c' =>
              dsimp only
              by_cases hlast : (loadPacketHeader p).count = kEndSessionCount
              · rw [if_pos hlast, if_pos hlast]
                by_cases htrail : off + kPacketHeaderSize ≠ buf.length
                · rw [if_pos htrail, if_pos htrail]
                · rw [if_neg htrail, if_neg htrail]
              rw [if_neg hlast, if_neg hlast]
              by_cases hbeat : (loadPacketHeader p).count = kHeartbeatCount
              · rw [if_pos hbeat, if_pos hbeat]
                by_cases hgap : (loadPacketHeader p).sequence ≠ c'.expectedSeq
                · rw [if_pos hgap, if_pos hgap]
                · rw [if_neg hgap, if_neg hgap]
                  exact ih (by omega) c' l
              rw [if_neg hbeat, if_neg hbeat]
              have hblocks := @messageLoop_fold σ buf sink s (loadPacketHeader p).count
                (off + kPacketHeaderSize) c'.expectedSeq l
              rcases hrec : messageLoop record buf (loadPacketHeader p).count
                (off + kPacketHeaderSize) c'.expectedSeq l with ⟨out, l'⟩
              rw [hrec] at hblocks
              rw [hblocks]
              cases out with
              | fail e => rfl
              | outOfBounds => rfl
              | done next =>
                  have hle := messageLoop_le hrec
                  exact ih (by omega) _ l'

theorem parseMoldudp64_fold : parseMoldudp64 buf sink s
    = ((parseMoldudp64 buf record []).1, (parseMoldudp64 buf record []).2.foldl sink s) :=
  packetLoop_fold sink s buf.length (Nat.sub_le _ _) .start []

end

end Mold

namespace Trades

open Wire Replay

variable {k : Nat} {kernels : KernelTable}

/-! ## One payload -/

theorem foldAt_eq_recorded (r : Recorder k) (off : Nat) (fs : List (SessionItem × List UInt8)) :
    Framing.foldAt (deliver Recorder.onMessage Recorder.onFrame) r off fs = recorded r fs := by
  have hact : (deliver Recorder.onMessage Recorder.onFrame
      : Recorder k → Nat → SessionItem → List UInt8 → _) = fun r _ x f => recordFrame r (x, f) := by
    funext r off x f
    cases x <;> rfl
  rw [hact, Framing.foldAt_eq_foldl]
  rfl

/-- **One parser call of each driver**: both take the whole payload, or both stop with the same
error. -/
theorem parse_both (p : List UInt8) (st : ReplayState k) (r : Recorder k) :
    (∃ fs, Framing.Valid SessionFrame fs ∧ p = Framing.bytes fs
      ∧ Replay.parsePayload kernels p st = (.ok (statsOf fs), afterFrames st fs)
      ∧ parsePayload kernels p r = (.ok (statsOf fs), recorded r fs))
    ∨ ∃ e st' r', Replay.parsePayload kernels p st = (.error e, st')
      ∧ parsePayload kernels p r = (.error e, r') := by
  rcases sessionCode.exists_longest p with ⟨fs, rest, h⟩
  have hreplay : Replay.parsePayload kernels p st = _ := parsePayload_run h st
  have htrades : parsePayload kernels p r
      = (sessionEnd (Framing.bytes fs).length rest (statsOf fs), recorded r fs) := by
    rw [parsePayload, parseItchSessionListenAs_eq, callParseOne, sessionLoop_run h,
      foldAt_eq_recorded]
  unfold sessionEnd at hreplay htrades
  by_cases hrest : rest = []
  · rw [if_pos hrest] at hreplay htrades
    refine Or.inl ⟨fs, h.valid, ?_, hreplay, htrades⟩
    rw [h.eq, hrest, List.append_nil]
  · rw [if_neg hrest] at hreplay htrades
    exact Or.inr ⟨_, _, _, hreplay, htrades⟩

/-! ## The three formats -/

/-- How the two drivers end, from states between frames: with the same failure, or after the frames
of the divisions `ds` of the payloads. -/
def Together (st : ReplayState k) (r : Recorder k) (decoded skipped n : Nat)
    (replay : Except Failure Nat × ReplayState k) (trades : Except Failure Summary)
    (Payload : List (List (SessionItem × List UInt8)) → Prop) : Prop :=
  (∃ e st', replay = (.error e, st') ∧ trades = .error e)
    ∨ ∃ ds : List (List (SessionItem × List UInt8)),
      (∀ d ∈ ds, Framing.Valid SessionFrame d) ∧ Payload ds
        ∧ replay = (.ok n, counted st ds.flatten)
        ∧ trades = .ok ((recorded r ds.flatten).finish (decoded + (statsOf ds.flatten).decoded)
            (skipped + (statsOf ds.flatten).skipped) n)

theorem recorded_append (r : Recorder k) (fs gs : List (SessionItem × List UInt8)) :
    recorded r (fs ++ gs) = recorded (recorded r fs) gs := List.foldl_append

/-- The counters of two runs of frames add up. -/
theorem statsOf_counts (fs gs : List (SessionItem × List UInt8)) :
    (statsOf (fs ++ gs)).decoded = (statsOf fs).decoded + (statsOf gs).decoded
      ∧ (statsOf (fs ++ gs)).skipped = (statsOf fs).skipped + (statsOf gs).skipped := by
  rw [statsOf_append]
  exact ⟨rfl, rfl⟩

/-- The length-prefixed loops at the end of the buffer. -/
theorem prefixed_end (bytes : List UInt8) (st : ReplayState k) (r : Recorder k)
    (decoded skipped : Nat) :
    Together st r decoded skipped bytes.length (replayPrefixed kernels bytes bytes.length st)
      (tradesPrefixed kernels bytes bytes.length decoded skipped r)
      fun ds => (∀ d ∈ ds, Mold.GoodMessage (Framing.bytes d))
        ∧ bytes.drop bytes.length = Mold.encodeBlocks (ds.map Framing.bytes) := by
  have htwo : ¬ bytes.length + 2 ≤ bytes.length := by omega
  rw [replayPrefixed, tradesPrefixed, if_neg htwo, if_neg htwo, if_neg (not_not.mpr rfl),
    if_neg (not_not.mpr rfl)]
  refine Or.inr ⟨[], fun d hd => absurd hd List.not_mem_nil,
    ⟨fun d hd => absurd hd List.not_mem_nil, ?_⟩, ?_, rfl⟩
  · rw [List.drop_length]
    rfl
  · rw [List.flatten_nil, counted_nil]

/-- **The length-prefixed loops**, from any position. -/
theorem prefixed_together {bytes : List UInt8} (n : Nat) : ∀ {off : Nat}, off ≤ bytes.length →
    bytes.length - off ≤ n → ∀ (st : ReplayState k) (r : Recorder k) (decoded skipped : Nat),
      Together st r decoded skipped bytes.length (replayPrefixed kernels bytes off st)
        (tradesPrefixed kernels bytes off decoded skipped r)
        fun ds => (∀ d ∈ ds, Mold.GoodMessage (Framing.bytes d))
          ∧ bytes.drop off = Mold.encodeBlocks (ds.map Framing.bytes) := by
  induction n with
  | zero =>
      intro off hoff hn st r decoded skipped
      obtain rfl : off = bytes.length := by omega
      exact prefixed_end bytes st r decoded skipped
  | succ n ih =>
      intro off hoff hn st r decoded skipped
      by_cases hend : off = bytes.length
      · subst hend
        exact prefixed_end bytes st r decoded skipped
      rw [replayPrefixed, tradesPrefixed]
      by_cases htwo : off + 2 ≤ bytes.length
      swap
      · rw [if_neg htwo, if_neg htwo, if_pos hend, if_pos hend]
        exact Or.inl ⟨_, _, rfl, rfl⟩
      rw [if_pos htwo, if_pos htwo]
      by_cases hbad : be16 bytes off = 0 ∨ bytes.length - (off + 2) < be16 bytes off
      · rw [if_pos hbad, if_pos hbad]
        exact Or.inl ⟨_, _, rfl, rfl⟩
      rw [if_neg hbad, if_neg hbad]
      -- A whole block stands here.
      have hlt : be16 bytes off < 2 ^ 16 := @loadBe_lt _ 2 (List.length_take_le _ _)
      have hsize : (bytesAt bytes (off + 2) (be16 bytes off)).length = be16 bytes off :=
        bytesAt_length (by omega)
      have hgood : Mold.GoodMessage (bytesAt bytes (off + 2) (be16 bytes off)) :=
        ⟨by omega, by omega⟩
      have hblock : bytes.drop off = Mold.encodeBlock (bytesAt bytes (off + 2) (be16 bytes off))
          ++ bytes.drop (off + 2 + be16 bytes off) := by
        have hprefix : storeBe 2 (be16 bytes off) = bytesAt bytes off 2 := storeBe_bytesAt htwo
        rw [Mold.encodeBlock, hsize, hprefix, bytesAt, bytesAt, List.append_assoc,
          ← @List.drop_drop _ (be16 bytes off), List.take_append_drop, ← @List.drop_drop _ 2,
          List.take_append_drop]
      rcases @parse_both k kernels (bytesAt bytes (off + 2) (be16 bytes off)) st r with
        ⟨fs, hvalid, hbytes, hreplay, htrades⟩ | ⟨e, st', r', hreplay, htrades⟩
      · rw [hreplay, htrades]
        rcases @ih (off + 2 + be16 bytes off) (by omega) (by omega)
          ((afterFrames st fs).count (statsOf fs)) (recorded r fs) (decoded + (statsOf fs).decoded)
          (skipped + (statsOf fs).skipped) with
          ⟨e, st', hr, ht⟩ | ⟨ds, hds, ⟨hgoods, hdrop⟩, hr, ht⟩
        · exact Or.inl ⟨e, st', hr, ht⟩
        · obtain ⟨hdec, hskip⟩ := statsOf_counts fs ds.flatten
          refine Or.inr ⟨fs :: ds, List.forall_mem_cons.mpr ⟨hvalid, hds⟩,
            ⟨List.forall_mem_cons.mpr ⟨hbytes ▸ hgood, hgoods⟩, ?_⟩, ?_, ?_⟩
          · rw [hblock, hdrop, hbytes, List.map_cons, Mold.encodeBlocks_cons]
          · rw [List.flatten_cons, ← counted_append]
            exact hr
          · rw [List.flatten_cons, recorded_append, hdec, hskip, ← Nat.add_assoc, ← Nat.add_assoc]
            exact ht
      · rw [hreplay, htrades]
        exact Or.inl ⟨_, _, rfl, rfl⟩

/-- **The chains of the packet framer**, over any calls. -/
theorem chains_together (calls : List (Nat × List UInt8 × Nat)) : ∀ (st : ReplayState k)
    (r : Recorder k) (decoded skipped : Nat),
    (∃ e, (calls.foldl (Replay.Chain.call kernels) { st, err := none }).err = some e
        ∧ (calls.foldl (Chain.call kernels) { recorder := r, decoded, skipped }).err = some e)
      ∨ ∃ ds : List (List (SessionItem × List UInt8)),
        (∀ d ∈ ds, Framing.Valid SessionFrame d)
          ∧ calls.map (fun q => q.2.1) = ds.map Framing.bytes
          ∧ calls.foldl (Replay.Chain.call kernels) { st, err := none }
            = { st := counted st ds.flatten, err := none }
          ∧ calls.foldl (Chain.call kernels) { recorder := r, decoded, skipped }
            = { recorder := recorded r ds.flatten
                decoded := decoded + (statsOf ds.flatten).decoded
                skipped := skipped + (statsOf ds.flatten).skipped } := by
  -- By induction on the calls: both drivers decode the same frames of a call, or stop at the same
  -- error, after which neither looks at a call again.
  induction calls with
  | nil =>
      intro st r decoded skipped
      refine Or.inr ⟨[], fun d hd => absurd hd List.not_mem_nil, rfl, ?_, rfl⟩
      rw [List.flatten_nil, counted_nil]
      rfl
  | cons q calls ih =>
      intro st r decoded skipped
      rw [List.foldl_cons, List.foldl_cons]
      rcases @parse_both k kernels q.2.1 st r with
        ⟨fs, hvalid, hbytes, hreplay, htrades⟩ | ⟨e, st', r', hreplay, htrades⟩
      · have hcall : Replay.Chain.call kernels { st, err := none } q
            = { st := (afterFrames st fs).count (statsOf fs), err := none } := by
          unfold Replay.Chain.call
          dsimp only
          rw [hreplay]
        have hcall' : Chain.call kernels { recorder := r, decoded, skipped } q
            = { recorder := recorded r fs, decoded := decoded + (statsOf fs).decoded
                skipped := skipped + (statsOf fs).skipped } := by
          unfold Chain.call
          dsimp only
          rw [htrades]
        rw [hcall, hcall']
        rcases ih ((afterFrames st fs).count (statsOf fs)) (recorded r fs)
          (decoded + (statsOf fs).decoded) (skipped + (statsOf fs).skipped) with
          herr | ⟨ds, hds, hcalls, hr, ht⟩
        · exact Or.inl herr
        · obtain ⟨hdec, hskip⟩ := statsOf_counts fs ds.flatten
          refine Or.inr ⟨fs :: ds, List.forall_mem_cons.mpr ⟨hvalid, hds⟩, ?_, ?_, ?_⟩
          · rw [List.map_cons, List.map_cons, hcalls, hbytes]
          · rw [List.flatten_cons, ← counted_append]
            exact hr
          · rw [List.flatten_cons, recorded_append, hdec, hskip, ← Nat.add_assoc, ← Nat.add_assoc]
            exact ht
      · -- The first error stops the parsing in both, not the framing.
        have hcall : Replay.Chain.call kernels { st, err := none } q
            = { st := st', err := some e } := by
          unfold Replay.Chain.call
          dsimp only
          rw [hreplay]
        have hcall' : Chain.call kernels { recorder := r, decoded, skipped } q
            = { recorder := r', decoded, skipped, err := some e } := by
          unfold Chain.call
          dsimp only
          rw [htrades]
        rw [hcall, hcall', chain_failed]
        refine Or.inl ⟨e, rfl, ?_⟩
        have hstill : ∀ c : Chain k, c.err = some e →
            (calls.foldl (Chain.call kernels) c).err = some e := by
          clear ih
          induction calls with
          | nil => exact fun c hc => hc
          | cons q calls ihc =>
              intro c hc
              have hsame : Chain.call kernels c q = c := by
                unfold Chain.call
                rw [hc]
              rw [List.foldl_cons, hsame]
              exact ihc c hc
        exact hstill _ rfl

/-! ## The drivers -/

/-- The places of blocks do not matter for what they hold. -/
theorem placed_payloads (ds : List (List UInt8 × List UInt8)) : ∀ off : Nat,
    (placed off ds).map Prod.snd = ds.map Prod.fst := by
  induction ds with
  | nil => exact fun off => rfl
  | cons d ds ih => exact fun off => congrArg (d.1 :: ·) (ih _)

/-- Blocks that fill the buffer are its payloads. -/
theorem payloads_blocks {bytes : List UInt8} {ms : List (List UInt8)}
    (hms : ∀ m ∈ ms, Mold.GoodMessage m) (hb : bytes = Mold.encodeBlocks ms) :
    ∃ ps, Payloads .lengthPrefixed bytes ps none ∧ ps.map Prod.snd = ms := by
  have hlongest : Framing.Longest Block bytes (ms.map fun m => (m, Mold.encodeBlock m)) [] :=
    { valid := by
        intro d hd
        obtain ⟨m, hm, rfl⟩ := List.mem_map.mp hd
        exact ⟨hms m hm, rfl⟩
      eq := by
        rw [hb, List.append_nil, Framing.bytes, List.map_map]
        rfl
      stuck := fun _ _ hf hp => blockCode.nonempty hf (List.prefix_nil.mp hp) }
  refine ⟨_, by simpa using Payloads.blocks hlongest, ?_⟩
  rw [placed_payloads, List.map_map]
  exact List.map_id ms

theorem valid_flatten {ds : List (List (SessionItem × List UInt8))}
    (h : ∀ d ∈ ds, Framing.Valid SessionFrame d) : Framing.Valid SessionFrame ds.flatten := by
  intro p hp
  obtain ⟨d, hd, hpd⟩ := List.mem_flatten.mp hp
  exact h d hd p hpd

/-- **Both drivers on any input**: the same failure, or the frames of its one division. -/
theorem runs_together (cfg : BookConfig) (format : Format) (bytes : List UInt8) :
    (∃ e st, runReplay kernels { format, book := cfg } bytes = (.error e, (st : ReplayState k))
        ∧ runTrades k kernels { format, book := cfg } bytes = .error e)
      ∨ ∃ fs n, Decodes format bytes fs ∧ Framing.Valid SessionFrame fs
        ∧ runReplay kernels { format, book := cfg } bytes
          = (.ok ((counted (.init cfg : ReplayState k) fs).summary n),
            counted (.init cfg : ReplayState k) fs)
        ∧ runTrades k kernels { format, book := cfg } bytes
          = .ok ((recorded (.init cfg : Recorder k) fs).finish (statsOf fs).decoded
              (statsOf fs).skipped n) := by
  -- Both drivers refuse an empty buffer, and hand the rest to the framer of its format.
  by_cases hempty : bytes = []
  · unfold runReplay runTrades
    rw [if_pos hempty, if_pos hempty]
    exact Or.inl ⟨_, _, rfl, rfl⟩
  unfold runTrades
  rw [if_neg hempty]
  have hfail : ∀ {e : Failure} {st : ReplayState k},
      ingest kernels format bytes (.init cfg) = (.error e, st) →
      runReplay kernels { format, book := cfg } bytes = (.error e, st) := by
    intro e st h
    rw [runReplay, if_neg hempty, h]
  cases format with
  | itchRaw =>
      rcases @parse_both k kernels bytes (.init cfg) (.init cfg) with
        ⟨fs, hvalid, hbytes, hreplay, htrades⟩ | ⟨e, st, r, hreplay, htrades⟩
      · refine Or.inr ⟨fs, bytes.length, ?_, hvalid, ?_, ?_⟩
        · exact ⟨_, [fs], .raw bytes, congrArg (fun b => [b]) hbytes,
            List.forall_mem_singleton.mpr hvalid, (List.append_nil fs).symm⟩
        · have hrun : ingest kernels .itchRaw bytes (.init cfg : ReplayState k)
              = (.ok bytes.length, counted (.init cfg) fs) := by
            rw [hbytes]
            exact replayRaw_whole hvalid cfg
          exact runReplay_ok hempty hrun
        · dsimp only
          rw [tradesRaw, htrades]
      · refine Or.inl ⟨.parseError e, st, hfail ?_, ?_⟩
        · rw [ingest, replayRaw, hreplay]
        · dsimp only
          rw [tradesRaw, htrades]
  | lengthPrefixed =>
      rcases @prefixed_together k kernels bytes bytes.length 0 (Nat.zero_le _) (Nat.sub_le _ _)
        (.init cfg) (.init cfg) 0 0 with ⟨e, st, hr, ht⟩ | ⟨ds, hvalid, ⟨hgood, hdrop⟩, hr, ht⟩
      · exact Or.inl ⟨e, st, hfail hr, ht⟩
      · rw [List.drop_zero] at hdrop
        obtain ⟨ps, hps, hmap⟩ := payloads_blocks (List.forall_mem_map.mpr hgood) hdrop
        rw [Nat.zero_add, Nat.zero_add] at ht
        exact Or.inr ⟨ds.flatten, bytes.length, ⟨ps, ds, hps, hmap, hvalid, rfl⟩,
          valid_flatten hvalid, runReplay_ok hempty hr, ht⟩
  | moldudp64 =>
      have hreplay : ingest kernels .moldudp64 bytes (.init cfg : ReplayState k)
          = replayMold kernels bytes (.init cfg) := rfl
      rw [replayMold, Mold.parseMoldudp64_fold] at hreplay
      dsimp only
      rw [tradesMold, Mold.parseMoldudp64_fold]
      rcases hrec : Mold.parseMoldudp64 bytes Mold.record [] with ⟨out, calls⟩
      rw [hrec] at hreplay
      cases out with
      | fail e => exact Or.inl ⟨_, _, hfail hreplay, rfl⟩
      | outOfBounds => exact Or.inl ⟨_, _, hfail hreplay, rfl⟩
      | done n =>
          dsimp only at hreplay ⊢
          rcases @chains_together k kernels calls (.init cfg) (.init cfg) 0 0 with
            ⟨e, he, he'⟩ | ⟨ds, hvalid, hcalls, hr, ht⟩
          · rw [he] at hreplay
            rw [he']
            exact Or.inl ⟨_, _, hfail hreplay, rfl⟩
          · rw [hr] at hreplay
            rw [ht]
            refine Or.inr ⟨ds.flatten, n, ⟨_, ds, .packets hrec, ?_, hvalid, rfl⟩,
              valid_flatten hvalid, runReplay_ok hempty hreplay, ?_⟩
            · rw [List.map_map]
              exact hcalls
            · dsimp only
              rw [Nat.zero_add, Nat.zero_add]

end Trades

end Mog
