import Mog.Replay.Replay

/-!
# Replay and the transport

Each format threads book, summary and session model through its callbacks in its own way.
All of them are the same fold over the frames, with the statistics added at one place or
at many, so that the summary does not depend on how the day was packed.

`counted` is that fold: the frames applied one after the other, and their statistics added at
the end. For each format its loop is shown to be the fold over the frames that it finds, whether
it adds statistics once or with every block; and a day packed in three ways has the same frames.
-/

namespace Mog

namespace Wire

theorem ite_le {c : Prop} [Decidable c] {a b n : Nat} (ha : a ≤ n) (hb : b ≤ n) :
    (if c then a else b) ≤ n := by
  by_cases h : c
  · rw [if_pos h]
    exact ha
  · rw [if_neg h]
    exact hb

/-- The longest standard frame has 50 bytes. -/
theorem sessionFrameLength_le (type : UInt8) : sessionFrameLength type ≤ 50 := by
  unfold sessionFrameLength
  iterate 16 refine ite_le (by decide) ?_
  unfold frameLength
  iterate 7 refine ite_le (by decide) ?_
  decide

end Wire

namespace Replay

open Wire

variable {k : Nat}

/-! ## The fold over the frames -/

/-- What a frame does to the state of a replay. -/
def replayFrame (st : ReplayState k) (x : SessionItem) (f : List UInt8) : ReplayState k :=
  match x with
  | .message m => onMessage st m
  | .skip type => listen st type 0 f

/-- What the frames of a division do. -/
def afterFrames (st : ReplayState k) (fs : List (SessionItem × List UInt8)) : ReplayState k :=
  fs.foldl (fun st p => replayFrame st p.1 p.2) st

theorem afterFrames_append (st : ReplayState k) (fs gs : List (SessionItem × List UInt8)) :
    afterFrames st (fs ++ gs) = afterFrames (afterFrames st fs) gs := List.foldl_append

theorem foldAt_eq_afterFrames (st : ReplayState k) (off : Nat)
    (fs : List (SessionItem × List UInt8)) :
    Framing.foldAt (deliver onMessage listen) st off fs = afterFrames st fs := by
  have hact : (deliver onMessage listen : ReplayState k → Nat → SessionItem → List UInt8 → _)
      = fun st _ x f => replayFrame st x f := by
    funext st off x f
    cases x <;> rfl
  rw [hact, Framing.foldAt_eq_foldl]
  rfl

/-- One parser call: the frames of the longest division, and its end. -/
theorem parsePayload_run {kernels : KernelTable} {p rest : List UInt8}
    {fs : List (SessionItem × List UInt8)} (h : Framing.Longest SessionFrame p fs rest)
    (st : ReplayState k) :
    parsePayload kernels p st
      = (sessionEnd (Framing.bytes fs).length rest (statsOf fs), afterFrames st fs) := by
  rw [parsePayload, parseItchSessionListenAs_eq, callParseOne, sessionLoop_run h,
    foldAt_eq_afterFrames]

/-- A division that leaves nothing is the longest. -/
theorem longest_whole {fs : List (SessionItem × List UInt8)} (h : Framing.Valid SessionFrame fs) :
    Framing.Longest SessionFrame (Framing.bytes fs) fs [] :=
  { valid := h
    eq := (List.append_nil _).symm
    stuck := fun _ _ hf hp => sessionCode.nonempty hf (List.prefix_nil.mp hp) }

theorem parsePayload_whole {kernels : KernelTable} {fs : List (SessionItem × List UInt8)}
    (h : Framing.Valid SessionFrame fs) (st : ReplayState k) :
    parsePayload kernels (Framing.bytes fs) st = (.ok (statsOf fs), afterFrames st fs) := by
  rw [parsePayload_run (longest_whole h), sessionEnd, if_pos rfl]

/-! ## The statistics are added at any place -/

/-- The statistics of two runs. -/
def addStats (a b : SessionStats) : SessionStats :=
  { decoded := a.decoded + b.decoded
    skipped := a.skipped + b.skipped
    skippedByType := fun t => a.skippedByType t + b.skippedByType t }

theorem statsOf_append (fs gs : List (SessionItem × List UInt8)) :
    statsOf (fs ++ gs) = addStats (statsOf fs) (statsOf gs) := by
  have hf : (subsetFrames fs).length ≤ fs.length := List.length_filterMap_le _ _
  have hg : (subsetFrames gs).length ≤ gs.length := List.length_filterMap_le _ _
  have hsub : subsetFrames (fs ++ gs) = subsetFrames fs ++ subsetFrames gs :=
    List.filterMap_append
  rw [statsOf_eq, statsOf_eq, statsOf_eq, hsub, List.length_append, List.length_append]
  unfold addStats
  congr 1
  · dsimp only
    omega
  · funext t
    rw [skipsOf, List.filter_append, List.length_append]
    rfl

theorem count_count (st : ReplayState k) (a b : SessionStats) :
    (st.count a).count b = st.count (addStats a b) := by
  unfold ReplayState.count addStats
  simp only [Nat.add_assoc]

/-- Frames and statistics do not touch each other's fields. -/
theorem afterFrames_count (fs : List (SessionItem × List UInt8)) :
    ∀ (st : ReplayState k) (stats : SessionStats),
      afterFrames (st.count stats) fs = (afterFrames st fs).count stats := by
  induction fs with
  | nil => intro st stats; rfl
  | cons p fs ih =>
      intro st stats
      have hstep : replayFrame (st.count stats) p.1 p.2 = (replayFrame st p.1 p.2).count stats := by
        rcases p with ⟨x, f⟩
        cases x <;> rfl
      rw [afterFrames, List.foldl_cons, hstep]
      exact ih _ _

/-- The state after payloads that divide completely into the frames `fs`. -/
def counted (st : ReplayState k) (fs : List (SessionItem × List UInt8)) : ReplayState k :=
  (afterFrames st fs).count (statsOf fs)

theorem counted_append (st : ReplayState k) (fs gs : List (SessionItem × List UInt8)) :
    counted (counted st fs) gs = counted st (fs ++ gs) := by
  unfold counted
  rw [afterFrames_count, count_count, afterFrames_append, statsOf_append]

theorem counted_nil (st : ReplayState k) : counted st [] = st := by
  unfold counted ReplayState.count
  rw [statsOf_eq]
  rfl

/-! ## The formats -/

/-- Payloads that divide completely, and fit a length prefix. -/
def GoodPayloads (ds : List (List (SessionItem × List UInt8))) : Prop :=
  ∀ d ∈ ds, Framing.Valid SessionFrame d ∧ Mold.GoodMessage (Framing.bytes d)

/-- A block that stands in the buffer, as the length-prefixed loop reads it. -/
theorem block_at {bytes m rest : List UInt8} {off : Nat} (hm : Mold.GoodMessage m)
    (hb : bytes.drop off = Mold.encodeBlock m ++ rest) :
    off + 2 ≤ bytes.length ∧ be16 bytes off = m.length ∧
      bytesAt bytes (off + 2) m.length = m ∧
      ¬ (m.length = 0 ∨ bytes.length - (off + 2) < m.length) := by
  have hlen := congrArg List.length hb
  rw [List.length_append, List.length_drop, Mold.encodeBlock_length] at hlen
  rcases hm with ⟨hpos, hlt⟩
  refine ⟨by omega, ?_, ?_, by omega⟩
  · rw [be16, bytesAt, hb, Mold.encodeBlock, List.append_assoc,
      List.take_left' (storeBe_length 2 _)]
    exact loadBe_storeBe_of_lt hlt
  · rw [bytesAt, ← List.drop_drop, hb, Mold.encodeBlock, List.append_assoc,
      List.drop_left' (storeBe_length 2 _), List.take_left]

/-- The length-prefixed loop takes a block where one stands. -/
theorem replayPrefixed_block {kernels : KernelTable} {bytes m rest : List UInt8} {off : Nat}
    {st st' : ReplayState k} {stats : SessionStats} (hm : Mold.GoodMessage m)
    (hb : bytes.drop off = Mold.encodeBlock m ++ rest)
    (hp : parsePayload kernels m st = (.ok stats, st')) :
    replayPrefixed kernels bytes off st
      = replayPrefixed kernels bytes (off + (Mold.encodeBlock m).length) (st'.count stats) := by
  rcases block_at hm hb with ⟨htwo, hsize, hpayload, hgo⟩
  rw [replayPrefixed, if_pos htwo, hsize, if_neg hgo, hpayload, hp, Mold.encodeBlock_length,
    ← Nat.add_assoc]

/-- The length-prefixed loop stops at a payload that the parser refuses. -/
theorem replayPrefixed_bad {kernels : KernelTable} {bytes m rest : List UInt8} {off : Nat}
    {st st' : ReplayState k} {e : ParseError} (hm : Mold.GoodMessage m)
    (hb : bytes.drop off = Mold.encodeBlock m ++ rest)
    (hp : parsePayload kernels m st = (.error e, st')) :
    replayPrefixed kernels bytes off st = (.error (.parseError e), st') := by
  rcases block_at hm hb with ⟨htwo, hsize, hpayload, hgo⟩
  rw [replayPrefixed, if_pos htwo, hsize, if_neg hgo, hpayload, hp]

/-- **The length-prefixed loop over good payloads.** -/
theorem replayPrefixed_blocks {kernels : KernelTable} {bytes : List UInt8}
    {ds : List (List (SessionItem × List UInt8))} (hds : GoodPayloads ds) :
    ∀ {off : Nat} {rest : List UInt8} {st : ReplayState k},
      bytes.drop off = Mold.encodeBlocks (ds.map Framing.bytes) ++ rest →
      replayPrefixed kernels bytes off st
        = replayPrefixed kernels bytes
            (off + (Mold.encodeBlocks (ds.map Framing.bytes)).length) (counted st ds.flatten) := by
  induction ds with
  | nil =>
      intro off rest st _
      rw [List.flatten_nil, counted_nil]
      rfl
  | cons d ds ih =>
      intro off rest st hb
      rcases List.forall_mem_cons.mp hds with ⟨⟨hv, hm⟩, hds⟩
      rw [List.map_cons, Mold.encodeBlocks_cons, List.append_assoc] at hb
      have hdrop : bytes.drop (off + (Mold.encodeBlock (Framing.bytes d)).length)
          = Mold.encodeBlocks (ds.map Framing.bytes) ++ rest := by
        rw [← List.drop_drop, hb, List.drop_left]
      rw [replayPrefixed_block hm hb (parsePayload_whole hv st), ih hds hdrop, List.map_cons,
        Mold.encodeBlocks_cons, List.length_append, ← Nat.add_assoc, List.flatten_cons,
        ← counted_append]
      rfl

/-- **The chain of the packet framer over good payloads.** -/
theorem chain_calls {kernels : KernelTable} {calls : List (Nat × List UInt8 × Nat)} :
    ∀ {ds : List (List (SessionItem × List UInt8))} {st : ReplayState k}, GoodPayloads ds →
      calls.map (fun q => q.2.1) = ds.map Framing.bytes →
      calls.foldl (Chain.call kernels) { st, err := none }
        = { st := counted st ds.flatten, err := none } := by
  induction calls with
  | nil =>
      intro ds st _ hm
      have hnil : ds = [] := by
        cases ds with
        | nil => rfl
        | cons d ds => exact absurd hm (by simp)
      rw [hnil, List.flatten_nil, counted_nil]
      rfl
  | cons q calls ih =>
      intro ds st hds hm
      cases ds with
      | nil => exact absurd hm (by simp)
      | cons d ds =>
          rcases List.forall_mem_cons.mp hds with ⟨⟨hv, -⟩, hds⟩
          rw [List.map_cons, List.map_cons, List.cons.injEq] at hm
          have hcall : Chain.call kernels { st, err := none } q
              = { st := counted st d, err := none } := by
            unfold Chain.call
            dsimp only
            rw [hm.1, parsePayload_whole hv]
            rfl
          rw [List.foldl_cons, hcall, ih hds hm.2, counted_append, List.flatten_cons]

/-! ## One summary for every transport -/

/-- The payloads of frames sent one by one. -/
def singly (fs : List (SessionItem × List UInt8)) : List (List (SessionItem × List UInt8)) :=
  fs.map fun p => [p]

theorem singly_bytes (fs : List (SessionItem × List UInt8)) :
    (singly fs).map Framing.bytes = fs.map Prod.snd := by
  rw [singly, List.map_map]
  refine List.map_congr_left fun p _ => ?_
  exact List.append_nil p.2

theorem singly_flatten (fs : List (SessionItem × List UInt8)) : (singly fs).flatten = fs := by
  induction fs with
  | nil => rfl
  | cons p fs ih => exact congrArg (p :: ·) ih

theorem singly_good {fs : List (SessionItem × List UInt8)} (h : Framing.Valid SessionFrame fs) :
    GoodPayloads (singly fs) := by
  intro d hd
  rcases List.mem_map.mp hd with ⟨p, hp, rfl⟩
  have hf := h p hp
  have hlen := hf.length_eq
  have hle := sessionFrameLength_le p.1.typeByte
  have hbytes : Framing.bytes [p] = p.2 := List.append_nil p.2
  refine ⟨fun q hq => ?_, ?_⟩
  · rw [List.mem_singleton.mp hq]
    exact hf
  · rw [hbytes]
    exact ⟨hf.length_pos, by omega⟩

/-- The frames leave the counters of the summary alone. -/
theorem afterFrames_counters (fs : List (SessionItem × List UInt8)) : ∀ st : ReplayState k,
    (afterFrames st fs).out.decoded = st.out.decoded ∧
      (afterFrames st fs).out.skipped = st.out.skipped ∧
      (afterFrames st fs).out.skippedByType = st.out.skippedByType := by
  induction fs with
  | nil => intro st; exact ⟨rfl, rfl, rfl⟩
  | cons p fs ih =>
      intro st
      rcases ih (replayFrame st p.1 p.2) with ⟨h1, h2, h3⟩
      rcases p with ⟨x, f⟩
      cases x <;> exact ⟨h1, h2, h3⟩

/-- The raw form, on a whole stream of frames. -/
theorem replayRaw_whole {kernels : KernelTable} {fs : List (SessionItem × List UInt8)}
    (h : Framing.Valid SessionFrame fs) (cfg : BookConfig) :
    replayRaw kernels (Framing.bytes fs) (.init cfg : ReplayState k)
      = (.ok (Framing.bytes fs).length, counted (.init cfg) fs) := by
  rcases afterFrames_counters fs (.init cfg : ReplayState k) with ⟨h1, h2, h3⟩
  rw [replayRaw, parsePayload_whole h]
  unfold counted ReplayState.count
  rw [h1, h2, h3]
  simp [ReplayState.init, Summary.init]

/-- The length-prefixed form, frame by frame. -/
theorem replayPrefixed_whole {kernels : KernelTable} {fs : List (SessionItem × List UInt8)}
    (h : Framing.Valid SessionFrame fs) (st : ReplayState k) :
    replayPrefixed kernels (Mold.encodeBlocks (fs.map Prod.snd)) 0 st
      = (.ok (Mold.encodeBlocks (fs.map Prod.snd)).length, counted st fs) := by
  have hb : (Mold.encodeBlocks (fs.map Prod.snd)).drop 0
      = Mold.encodeBlocks ((singly fs).map Framing.bytes) ++ [] := by
    rw [List.drop_zero, singly_bytes, List.append_nil]
  rw [replayPrefixed_blocks (singly_good h) hb, Nat.zero_add, singly_bytes, singly_flatten,
    replayPrefixed, if_neg (by omega), if_neg (not_not.mpr rfl)]

/-- The packet form, over any chain of packets that carries the frames. -/
theorem replayMold_whole {kernels : KernelTable} {fs : List (SessionItem × List UInt8)}
    {ps : List Mold.Packet} (h : Framing.Valid SessionFrame fs) (hgood : ∀ p ∈ ps, p.Good)
    (hc : Mold.Chained none ps) (hps : Mold.messagesOf ps = fs.map Prod.snd)
    (st : ReplayState k) :
    replayMold kernels (Mold.encodePackets ps) st
      = (.ok (Mold.encodePackets ps).length, counted st fs) := by
  have hpay : (Mold.packetCalls 0 ps).map (fun q => q.2.1) = (singly fs).map Framing.bytes := by
    rw [Mold.packetCalls_payloads, hps, singly_bytes]
  rw [replayMold, Mold.parse_chained hgood hc, chain_calls (singly_good h) hpay, singly_flatten]

/-- A run that takes its input whole gives the summary of the state it reaches. -/
theorem runReplay_ok {kernels : KernelTable} {format : Format} {cfg : BookConfig}
    {bytes : List UInt8} {n : Nat} {st : ReplayState k} (hne : bytes ≠ [])
    (h : ingest kernels format bytes (.init cfg) = (.ok n, st)) :
    runReplay kernels { format, book := cfg } bytes = (.ok (st.summary n), st) := by
  rw [runReplay, if_neg hne, h]

/-- **A replay does not depend on the transport.** A nonempty day of valid frames is replayed raw,
length-prefixed and in any chain of packets that carries its frames; the three summaries differ in
the number of bytes only. -/
theorem replay_transports (kernels : KernelTable) (cfg : BookConfig)
    (fs : List (SessionItem × List UInt8)) (ps : List Mold.Packet) (hne : fs ≠ [])
    (hv : Framing.Valid SessionFrame fs) (hgood : ∀ p ∈ ps, p.Good) (hc : Mold.Chained none ps)
    (hps : Mold.messagesOf ps = fs.map Prod.snd) :
    ∃ sum : Summary,
      (runReplay (k := k) kernels { format := .itchRaw, book := cfg } (Framing.bytes fs)).1
        = .ok { sum with bytesConsumed := (Framing.bytes fs).length } ∧
      (runReplay (k := k) kernels { format := .lengthPrefixed, book := cfg }
          (Mold.encodeBlocks (fs.map Prod.snd))).1
        = .ok { sum with bytesConsumed := (Mold.encodeBlocks (fs.map Prod.snd)).length } ∧
      (runReplay (k := k) kernels { format := .moldudp64, book := cfg } (Mold.encodePackets ps)).1
        = .ok { sum with bytesConsumed := (Mold.encodePackets ps).length } := by
  -- None of the three inputs is empty, which the driver would refuse.
  have hraw : Framing.bytes fs ≠ [] := by
    cases fs with
    | nil => exact absurd rfl hne
    | cons p fs =>
        have hpos := (hv p (List.mem_cons_self ..)).length_pos
        intro hb
        rw [Framing.bytes_cons, List.append_eq_nil_iff] at hb
        rw [hb.1] at hpos
        exact absurd hpos (by simp)
  have hprefixed : Mold.encodeBlocks (fs.map Prod.snd) ≠ [] := by
    cases fs with
    | nil => exact absurd rfl hne
    | cons p fs =>
        intro hb
        have hz := congrArg List.length hb
        rw [List.map_cons, Mold.encodeBlocks_cons, List.length_append, Mold.encodeBlock_length,
          List.length_nil] at hz
        omega
  have hmold : Mold.encodePackets ps ≠ [] := by
    cases ps with
    | nil =>
        have hnil : fs = [] := List.map_eq_nil_iff.mp hps.symm
        exact absurd hnil hne
    | cons p ps =>
        intro hb
        have hz := congrArg List.length hb
        have hpos : 0 < Mold.kPacketHeaderSize := by decide
        rw [Mold.encodePackets_cons, List.length_append,
          Mold.Packet.encode_length (hgood p (List.mem_cons_self ..)), List.length_nil] at hz
        omega
  -- Each transport hands over the same frames, so the summaries differ in the bytes they consumed.
  refine ⟨(counted (.init cfg : ReplayState k) fs).summary 0, ?_, ?_, ?_⟩
  · have h : ingest kernels .itchRaw (Framing.bytes fs) (.init cfg : ReplayState k) = _ :=
      replayRaw_whole hv cfg
    rw [runReplay_ok hraw h]
    rfl
  · have h : ingest kernels .lengthPrefixed (Mold.encodeBlocks (fs.map Prod.snd))
        (.init cfg : ReplayState k) = _ := replayPrefixed_whole hv (.init cfg)
    rw [runReplay_ok hprefixed h]
    rfl
  · have h : ingest kernels .moldudp64 (Mold.encodePackets ps) (.init cfg : ReplayState k) = _ :=
      replayMold_whole hv hgood hc hps (.init cfg)
    rw [runReplay_ok hmold h]
    rfl

/-- A system event and an order, in one packet behind a heartbeat. -/
theorem replay_transports_two :
    let cfg : BookConfig :=
      { arenaCapacity := 4, ladder := { loTick := 0, hiTick := 2048, pagePool := 4 } }
    let m : Message := .addOrder
      { header := { locate := 1, tracking := 2, tsNs := 5 }, orderRef := 9, side := .buy
        shares := 100, stock := [77, 79, 71, 32, 32, 32, 32, 32], price := 7 }
    let fs : List (SessionItem × List UInt8) :=
      [(.skip 83, [83, 0, 1, 0, 0, 0, 0, 0, 0, 0, 3, 81]), (.message m, encode m)]
    let session : List UInt8 := [77, 79, 71, 48, 48, 48, 48, 48, 48, 49]
    let ps : List Mold.Packet :=
      [{ session, sequence := 1, body := .heartbeat },
       { session, sequence := 1, body := .data (fs.map Prod.snd) }]
    ∃ sum : Summary,
      (runReplay (k := 10) (kernelsFor .avx2) { format := .itchRaw, book := cfg }
          (Framing.bytes fs)).1
        = .ok { sum with bytesConsumed := (Framing.bytes fs).length } ∧
      (runReplay (k := 10) (kernelsFor .avx2) { format := .lengthPrefixed, book := cfg }
          (Mold.encodeBlocks (fs.map Prod.snd))).1
        = .ok { sum with bytesConsumed := (Mold.encodeBlocks (fs.map Prod.snd)).length } ∧
      (runReplay (k := 10) (kernelsFor .avx2) { format := .moldudp64, book := cfg }
          (Mold.encodePackets ps)).1
        = .ok { sum with bytesConsumed := (Mold.encodePackets ps).length } := by
  intro cfg m fs session ps
  have hm : ItchFrame m (encode m) := by
    unfold ItchFrame
    decide +kernel
  have hs : SessionFrame (.skip 83) [83, 0, 1, 0, 0, 0, 0, 0, 0, 0, 3, 81] :=
    ⟨rfl, rfl, by decide, rfl⟩
  have hv : Framing.Valid SessionFrame fs :=
    List.forall_mem_cons.mpr ⟨hs, List.forall_mem_singleton.mpr hm⟩
  have hsession : session.length = Mold.kSessionSize := rfl
  have hmsgs : ∀ f ∈ fs.map Prod.snd, Mold.GoodMessage f := by
    unfold Mold.GoodMessage
    decide +kernel
  have hlen : (fs.map Prod.snd).length = 2 := rfl
  have hgood : ∀ p ∈ ps, p.Good :=
    List.forall_mem_cons.mpr ⟨⟨hsession, by decide, trivial⟩,
      List.forall_mem_singleton.mpr ⟨hsession, by decide, by rw [hlen]; decide,
        by rw [hlen]; decide, hmsgs⟩⟩
  have hc : Mold.Chained none ps :=
    ⟨.inr trivial, fun h => absurd h (by decide), .inr fun _ => rfl,
      fun h => absurd h (by simp), trivial⟩
  exact replay_transports (kernelsFor .avx2) cfg fs ps (by simp [fs]) hv hgood hc
    (by rw [Mold.messagesOf]; rfl)

end Replay

end Mog
