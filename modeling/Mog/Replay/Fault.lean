import Mog.Replay.Transport

/-!
# Where a replay failed

The input of a replay is a list of payloads, each at its place in the buffer: the whole
buffer, the blocks behind their length prefixes, or the messages of the packets. The first
payload that is not all frames holds the byte at fault; if there is none, it is the length
prefix behind the last whole block. The session parser counts from the start of the payload
it was given, and nobody adds where that payload stands.
-/

namespace Mog

namespace Replay

open Wire

variable {k : Nat}

/-! ## Payloads and faults -/

/-- A payload behind its length prefix. -/
def Block (payload f : List UInt8) : Prop :=
  Mold.GoodMessage payload ∧ f = Mold.encodeBlock payload

/-- The places of the payloads of blocks that start at `off`. -/
def placed : Nat → List (List UInt8 × List UInt8) → List (Nat × List UInt8)
  | _, [] => []
  | off, d :: ds => (off + 2, d.1) :: placed (off + d.2.length) ds

/-- The payloads of an input, with their places, and the place of a framing fault behind them. -/
inductive Payloads : Format → List UInt8 → List (Nat × List UInt8) → Option Nat → Prop where
  | raw (bytes : List UInt8) : Payloads .itchRaw bytes [(0, bytes)] none
  | blocks {bytes : List UInt8} {ds : List (List UInt8 × List UInt8)} {rest : List UInt8}
      (h : Framing.Longest Block bytes ds rest) :
      Payloads .lengthPrefixed bytes (placed 0 ds)
        (if rest = [] then none else some (Framing.bytes ds).length)
  | packets {bytes : List UInt8} {n : Nat} {calls : List (Nat × List UInt8 × Nat)}
      (h : Mold.parseMoldudp64 bytes (fun l q => l ++ [q]) [] = (.done n, calls)) :
      Payloads .moldudp64 bytes (calls.map fun q => (q.1, q.2.1)) none

/-- `FirstFault ps framing fs off`: decoding the payloads fails first at `off`, behind the frames
`fs`. -/
inductive FirstFault : List (Nat × List UInt8) → Option Nat →
    List (SessionItem × List UInt8) → Nat → Prop where
  | payload {pos : Nat} {p rest : List UInt8} {ps : List (Nat × List UInt8)} {framing : Option Nat}
      {fs : List (SessionItem × List UInt8)} (h : Framing.Longest SessionFrame p fs rest)
      (hr : rest ≠ []) :
      FirstFault ((pos, p) :: ps) framing fs (pos + (Framing.bytes fs).length)
  | next {pos off : Nat} {p : List UInt8} {ps : List (Nat × List UInt8)} {framing : Option Nat}
      {fs gs : List (SessionItem × List UInt8)} (h : Framing.Longest SessionFrame p fs [])
      (ht : FirstFault ps framing gs off) :
      FirstFault ((pos, p) :: ps) framing (fs ++ gs) off
  | framing (off : Nat) : FirstFault [] (some off) [] off

/-- The first fault is one. -/
theorem FirstFault.unique {ps : List (Nat × List UInt8)} {framing : Option Nat}
    {fs gs : List (SessionItem × List UInt8)} {off off' : Nat} (h : FirstFault ps framing fs off)
    (h' : FirstFault ps framing gs off') : off = off' := by
  induction h generalizing gs off' with
  | payload h hr =>
      cases h' with
      | payload h' _ => rw [(sessionCode.longest_unique h h').1]
      | next h' _ => exact absurd (sessionCode.longest_unique h h').2 hr
  | next h _ ih =>
      cases h' with
      | payload h' hr => exact absurd (sessionCode.longest_unique h h').2.symm hr
      | next _ ht => exact ih ht
  | framing off =>
      cases h' with
      | framing => rfl

theorem encodeBlock_inj {m n r s : List UInt8} (hm : Mold.GoodMessage m) (hn : Mold.GoodMessage n)
    (h : Mold.encodeBlock m ++ r = Mold.encodeBlock n ++ s) : m = n := by
  unfold Mold.encodeBlock at h
  rw [List.append_assoc, List.append_assoc] at h
  have hsize := congrArg (List.take 2) h
  rw [List.take_left' (storeBe_length 2 _), List.take_left' (storeBe_length 2 _)] at hsize
  have hlen : m.length = n.length := by
    rw [← loadBe_storeBe_of_lt (n := 2) hm.2, hsize]
    exact loadBe_storeBe_of_lt hn.2
  have hrest := congrArg (List.drop 2) h
  rw [List.drop_left' (storeBe_length 2 _), List.drop_left' (storeBe_length 2 _)] at hrest
  have hpay := congrArg (List.take m.length) hrest
  rw [List.take_left, hlen, List.take_left] at hpay
  exact hpay

theorem blockCode : Framing.Code Block :=
  { nonempty := by
      rintro m f ⟨-, rfl⟩ hf
      have hlen := Mold.encodeBlock_length m
      rw [hf, List.length_nil] at hlen
      omega
    unique := by
      rintro m n f g ⟨hm, rfl⟩ ⟨hn, rfl⟩ ⟨r, hr⟩
      have he : m = n := encodeBlock_inj (r := r) (s := []) hm hn (by rw [hr, List.append_nil])
      exact ⟨he, by rw [he]⟩ }

/-- An input has one list of payloads. -/
theorem Payloads.unique {format : Format} {bytes : List UInt8} {ps qs : List (Nat × List UInt8)}
    {f g : Option Nat} (h : Payloads format bytes ps f) (h' : Payloads format bytes qs g) :
    ps = qs ∧ f = g := by
  cases h with
  | raw =>
      cases h'
      exact ⟨rfl, rfl⟩
  | blocks h =>
      cases h' with
      | blocks h' =>
          rcases blockCode.longest_unique h h' with ⟨rfl, rfl⟩
          exact ⟨rfl, rfl⟩
  | packets h =>
      cases h' with
      | packets h' =>
          rw [h, Prod.mk.injEq] at h'
          rw [h'.2]
          exact ⟨rfl, rfl⟩

/-! ## What was applied -/

/-- The frames of a division apply their messages to the book. -/
theorem afterFrames_book (fs : List (SessionItem × List UInt8)) : ∀ st : ReplayState k,
    (afterFrames st fs).book = st.book.applyAll (messagesOf fs) := by
  induction fs with
  | nil => intro st; rfl
  | cons p fs ih =>
      intro st
      have hstep : afterFrames st (p :: fs) = afterFrames (replayFrame st p.1 p.2) fs := rfl
      rw [hstep, ih]
      rcases p with ⟨x, f⟩
      cases x <;> rfl

theorem applyAll_append (b : OrderBook k) (ms ns : List Message) :
    b.applyAll (ms ++ ns) = (b.applyAll ms).applyAll ns := List.foldl_append

theorem messagesOf_append (fs gs : List (SessionItem × List UInt8)) :
    messagesOf (fs ++ gs) = messagesOf fs ++ messagesOf gs := by
  unfold messagesOf subsetFrames
  rw [List.filterMap_append, List.map_append]

/-- A payload that is all frames. -/
def Whole (p : List UInt8) : Prop := ∃ fs, Framing.Valid SessionFrame fs ∧ p = Framing.bytes fs

/-- A parser call that succeeds has taken a whole payload. -/
theorem parsePayload_cases (kernels : KernelTable) (p : List UInt8) (st : ReplayState k) :
    (∃ fs, Framing.Longest SessionFrame p fs [] ∧ Whole p ∧
      parsePayload kernels p st = (.ok (statsOf fs), afterFrames st fs)) ∨
    ∃ fs rest, Framing.Longest SessionFrame p fs rest ∧ rest ≠ [] ∧ ¬ Whole p ∧
      parsePayload kernels p st
        = (.error { code := sessionFault rest, offset := (Framing.bytes fs).length },
            afterFrames st fs) := by
  rcases sessionCode.exists_longest p with ⟨fs, rest, h⟩
  have hrun : parsePayload kernels p st = _ := parsePayload_run h st
  have hwhole := sessionCode.rest_eq_nil_iff h
  by_cases hr : rest = []
  · subst hr
    rw [sessionEnd, if_pos rfl] at hrun
    exact .inl ⟨fs, h, hwhole.mp rfl, hrun⟩
  · rw [sessionEnd, if_neg hr] at hrun
    exact .inr ⟨fs, rest, h, hr, fun hw => hr (hwhole.mpr hw), hrun⟩

/-- What a failed replay knows: the frames `fs` before the first fault, at `off`, were applied, and
the reported offset is `off` where the payloads are all whole, else it falls short of `off`. -/
structure Failed (st st' : ReplayState k) (ps : List (Nat × List UInt8)) (framing : Option Nat)
    (e : ParseError) : Prop where
  fault : ∃ fs off, FirstFault ps framing fs off ∧ st'.book = st.book.applyAll (messagesOf fs) ∧
    (((∀ q ∈ ps, Whole q.2) ∧ e.offset = off) ∨ ((∃ q ∈ ps, ¬ Whole q.2) ∧
      ∃ q ∈ ps, e.offset + q.1 = off))

/-- A payload that is not whole ends the replay, at its own place. -/
theorem Failed.payload {kernels : KernelTable} {st st' : ReplayState k} {pos : Nat} {p : List UInt8}
    {ps : List (Nat × List UInt8)} {framing : Option Nat} {e : ParseError}
    (h : parsePayload kernels p st = (.error e, st')) : Failed st st' ((pos, p) :: ps) framing e := by
  rcases parsePayload_cases kernels p st with ⟨fs, -, -, hrun⟩ | ⟨fs, rest, hl, hr, hw, hrun⟩
  · rw [hrun] at h
    cases h
  · rw [hrun, Prod.mk.injEq, Except.error.injEq] at h
    rcases h with ⟨rfl, rfl⟩
    exact ⟨fs, _, .payload hl hr, afterFrames_book fs st,
      .inr ⟨⟨_, List.mem_cons_self .., hw⟩, _, List.mem_cons_self .., Nat.add_comm _ _⟩⟩

/-- A whole payload before the fault. -/
theorem Failed.next {kernels : KernelTable} {st st₁ st' : ReplayState k} {pos : Nat}
    {p : List UInt8} {ps : List (Nat × List UInt8)} {framing : Option Nat} {e : ParseError}
    {stats : SessionStats} (hp : parsePayload kernels p st = (.ok stats, st₁))
    (h : Failed (st₁.count stats) st' ps framing e) : Failed st st' ((pos, p) :: ps) framing e := by
  rcases parsePayload_cases kernels p st with ⟨fs, hl, hw, hrun⟩ | ⟨fs, rest, -, -, -, hrun⟩
  · rw [hrun, Prod.mk.injEq] at hp
    rcases hp with ⟨-, rfl⟩
    rcases h.fault with ⟨gs, off, hfault, hbook, hcase⟩
    refine ⟨fs ++ gs, off, .next hl hfault, ?_, ?_⟩
    · have hcount : ((afterFrames st fs).count stats).book = (afterFrames st fs).book := rfl
      rw [hbook, hcount, afterFrames_book, messagesOf_append, applyAll_append]
    · rcases hcase with ⟨hall, hoff⟩ | ⟨⟨q, hq, hqw⟩, r, hr, hoff⟩
      · exact .inl ⟨List.forall_mem_cons.mpr ⟨hw, hall⟩, hoff⟩
      · exact .inr ⟨⟨q, List.mem_cons_of_mem _ hq, hqw⟩, r, List.mem_cons_of_mem _ hr, hoff⟩
  · rw [hrun] at hp
    cases hp

/-- Without a framing fault some payload is at fault. -/
theorem FirstFault.bad {ps : List (Nat × List UInt8)} {fs : List (SessionItem × List UInt8)}
    {off : Nat} (h : FirstFault ps none fs off) : ∃ q ∈ ps, ¬ Whole q.2 := by
  induction ps generalizing fs off with
  | nil => cases h
  | cons q ps ih =>
      cases h with
      | payload h hr =>
          exact ⟨_, List.mem_cons_self .., fun hw => hr ((sessionCode.rest_eq_nil_iff h).mpr hw)⟩
      | next _ ht =>
          rcases ih ht with ⟨r, hr, hw⟩
          exact ⟨r, List.mem_cons_of_mem _ hr, hw⟩

/-! ## Each format -/

theorem failed_raw {kernels : KernelTable} {bytes : List UInt8} {st st' : ReplayState k}
    {e : ParseError} (h : replayRaw kernels bytes st = (.error (.parseError e), st')) :
    Failed st st' [(0, bytes)] none e := by
  unfold replayRaw at h
  split at h
  · next e' st₁ hp =>
      rw [Prod.mk.injEq, Except.error.injEq, Failure.parseError.injEq] at h
      rcases h with ⟨rfl, rfl⟩
      exact Failed.payload hp
  · cases h

/-- Where no block stands the length-prefixed loop ends, or finds a length prefix at fault. -/
theorem replayPrefixed_stuck {kernels : KernelTable} {bytes rest : List UInt8} {off : Nat}
    {st : ReplayState k} (hoff : off ≤ bytes.length) (hr : bytes.drop off = rest)
    (hst : ∀ p f, Block p f → ¬ f <+: rest) :
    replayPrefixed kernels bytes off st
      = (if rest = [] then .ok off
        else .error (.parseError { code := .truncated, offset := off }), st) := by
  have hlen := congrArg List.length hr
  rw [List.length_drop] at hlen
  rw [replayPrefixed]
  by_cases htwo : off + 2 ≤ bytes.length
  · have hne : rest ≠ [] := by
      intro hnil
      rw [hnil, List.length_nil] at hlen
      omega
    rw [if_pos htwo, if_neg hne]
    by_cases hbad : be16 bytes off = 0 ∨ bytes.length - (off + 2) < be16 bytes off
    · rw [if_pos hbad]
      rfl
    · -- a whole block would stand here
      have hlt : be16 bytes off < 2 ^ 16 := loadBe_lt (w := 2) (List.length_take_le _ _)
      have hsize : (bytesAt bytes (off + 2) (be16 bytes off)).length = be16 bytes off :=
        bytesAt_length (by omega)
      refine absurd ⟨bytes.drop (off + 2 + be16 bytes off), ?_⟩
        (hst (bytesAt bytes (off + 2) (be16 bytes off)) _ ⟨⟨by omega, by omega⟩, rfl⟩)
      have hprefix : storeBe 2 (be16 bytes off) = bytesAt bytes off 2 := storeBe_bytesAt htwo
      rw [Mold.encodeBlock, hsize, hprefix, ← hr, bytesAt, bytesAt, List.append_assoc,
        ← List.drop_drop (i := be16 bytes off), List.take_append_drop, ← List.drop_drop (i := 2),
        List.take_append_drop]
  · rw [if_neg htwo]
    by_cases hend : off = bytes.length
    · have hnil : rest = [] := List.eq_nil_of_length_eq_zero (by omega)
      rw [if_neg (not_not.mpr hend), if_pos hnil]
    · have hne : rest ≠ [] := by
        intro hnil
        rw [hnil, List.length_nil] at hlen
        omega
      rw [if_pos hend, if_neg hne]

theorem failed_prefixed {kernels : KernelTable} {bytes rest : List UInt8} {e : ParseError}
    {st' : ReplayState k} (hst : ∀ p f, Block p f → ¬ f <+: rest)
    {ds : List (List UInt8 × List UInt8)} (hds : Framing.Valid Block ds) :
    ∀ {off : Nat} {st : ReplayState k}, off ≤ bytes.length →
      bytes.drop off = Framing.bytes ds ++ rest →
      replayPrefixed kernels bytes off st = (.error (.parseError e), st') →
      Failed st st' (placed off ds)
        (if rest = [] then none else some (off + (Framing.bytes ds).length)) e := by
  induction ds with
  | nil =>
      intro off st hoff hb h
      rw [Framing.bytes_nil, List.nil_append] at hb
      rw [replayPrefixed_stuck hoff hb hst] at h
      by_cases hr : rest = []
      · rw [if_pos hr] at h
        cases h
      · rw [if_neg hr, Prod.mk.injEq, Except.error.injEq, Failure.parseError.injEq] at h
        rcases h with ⟨rfl, rfl⟩
        rw [if_neg hr, Framing.bytes_nil, List.length_nil, Nat.add_zero]
        exact ⟨[], off, .framing off, rfl, .inl ⟨fun q hq => absurd hq (by simp [placed]), rfl⟩⟩
  | cons d ds ih =>
      intro off st hoff hb h
      rcases Framing.valid_cons.mp hds with ⟨⟨hm, hf⟩, hds⟩
      rw [Framing.bytes_cons, List.append_assoc] at hb
      have hlen := congrArg List.length hb
      rw [List.length_drop, List.length_append] at hlen
      have hdrop : bytes.drop (off + d.2.length) = Framing.bytes ds ++ rest := by
        rw [← List.drop_drop, hb, List.drop_left]
      rw [Framing.bytes_cons, List.length_append, ← Nat.add_assoc]
      rcases hp : parsePayload kernels d.1 st with ⟨r, st₁⟩
      cases r with
      | error e₁ =>
          have hrun := replayPrefixed_bad hm (hf ▸ hb) hp
          rw [hrun, Prod.mk.injEq, Except.error.injEq, Failure.parseError.injEq] at h
          rcases h with ⟨rfl, rfl⟩
          exact Failed.payload hp
      | ok stats =>
          rw [replayPrefixed_block hm (hf ▸ hb) hp, ← hf] at h
          exact Failed.next hp (ih hds (by omega) hdrop h)

/-- Once the chain has failed it stays as it is. -/
theorem chain_failed {kernels : KernelTable} (st : ReplayState k) (e : ParseError)
    (calls : List (Nat × List UInt8 × Nat)) :
    calls.foldl (Chain.call kernels) { st, err := some e } = { st, err := some e } := by
  induction calls with
  | nil => rfl
  | cons q calls ih => exact ih

theorem failed_chain {kernels : KernelTable} {e : ParseError} {st' : ReplayState k}
    {calls : List (Nat × List UInt8 × Nat)} : ∀ {st : ReplayState k},
    calls.foldl (Chain.call kernels) { st, err := none } = { st := st', err := some e } →
    Failed st st' (calls.map fun q => (q.1, q.2.1)) none e := by
  induction calls with
  | nil =>
      intro st h
      rw [List.foldl_nil, Chain.mk.injEq] at h
      exact absurd h.2 (by simp)
  | cons q calls ih =>
      intro st h
      rw [List.foldl_cons] at h
      rcases hp : parsePayload kernels q.2.1 st with ⟨r, st₁⟩
      cases r with
      | error e₁ =>
          have hcall : Chain.call kernels { st, err := none } q = { st := st₁, err := some e₁ } := by
            unfold Chain.call
            dsimp only
            rw [hp]
          rw [hcall, chain_failed, Chain.mk.injEq, Option.some.injEq] at h
          rcases h with ⟨rfl, rfl⟩
          exact Failed.payload hp
      | ok stats =>
          have hcall : Chain.call kernels { st, err := none } q
              = { st := st₁.count stats, err := none } := by
            unfold Chain.call
            dsimp only
            rw [hp]
          rw [hcall] at h
          exact Failed.next hp (ih h)

theorem foldl_record {α : Type} (calls : List α) : ∀ l : List α,
    calls.foldl (fun l q => l ++ [q]) l = l ++ calls := by
  induction calls with
  | nil => intro l; rw [List.foldl_nil, List.append_nil]
  | cons q calls ih => intro l; rw [List.foldl_cons, ih, List.append_assoc]; rfl

/-- A call of the packet framer stands behind a header and a length prefix. -/
theorem blockCalls_pos {ms : List (List UInt8)} : ∀ {off seq : Nat},
    ∀ q ∈ Mold.blockCalls off seq ms, 0 < q.1 := by
  induction ms with
  | nil => intro off seq q hq; exact absurd hq (by simp [Mold.blockCalls])
  | cons m ms ih =>
      intro off seq q hq
      rcases List.mem_cons.mp hq with rfl | hq
      · exact Nat.lt_of_lt_of_le Nat.zero_lt_two (Nat.le_add_left 2 off)
      · exact ih q hq

theorem packetCalls_pos {ps : List Mold.Packet} : ∀ {off : Nat},
    ∀ q ∈ Mold.packetCalls off ps, 0 < q.1 := by
  induction ps with
  | nil => intro off q hq; exact absurd hq (by simp [Mold.packetCalls])
  | cons p ps ih =>
      intro off q hq
      rcases List.mem_append.mp hq with hq | hq
      · exact blockCalls_pos q hq
      · exact ih q hq

theorem placed_pos {ds : List (List UInt8 × List UInt8)} : ∀ {off : Nat},
    ∀ q ∈ placed off ds, 0 < q.1 := by
  induction ds with
  | nil => intro off q hq; exact absurd hq (by simp [placed])
  | cons d ds ih =>
      intro off q hq
      rcases List.mem_cons.mp hq with rfl | hq
      · exact Nat.lt_of_lt_of_le Nat.zero_lt_two (Nat.le_add_left 2 off)
      · exact ih q hq

/-- **A failed packet replay**: the framing was sound, and a payload is at fault. -/
theorem failed_mold {kernels : KernelTable} {bytes : List UInt8} {st st' : ReplayState k}
    {e : ParseError} (h : replayMold kernels bytes st = (.error (.parseError e), st')) :
    ∃ calls : List (Nat × List UInt8 × Nat),
      Payloads .moldudp64 bytes (calls.map fun q => (q.1, q.2.1)) none ∧
      (∀ q ∈ calls, 0 < q.1) ∧ Failed st st' (calls.map fun q => (q.1, q.2.1)) none e := by
  unfold replayMold at h
  split at h
  · cases h
  · cases h
  · next n c hrun =>
      rcases @Mold.packetLoop_run (Chain k) (Chain.call kernels) bytes 0 .start { st, err := none }
        (Nat.zero_le _) with ⟨ps, cut, tail, hf⟩
      unfold Mold.parseMoldudp64 at hrun
      rw [hrun] at hf
      have hcalls := hf.calls
      have hbytes := hf.bytes
      rcases hf.outcome with ⟨-, rfl, rfl⟩ | ⟨-, err, hfail⟩
      · rw [List.append_nil] at hcalls hbytes
        have hchained := hf.chained
        rw [List.append_nil] at hchained
        have hrec : Mold.parseMoldudp64 _ (fun l q => l ++ [q]) ([] : List (Nat × List UInt8 × Nat))
            = _ := Mold.parse_chained hf.good hchained []
        rw [foldl_record, List.nil_append, ← hbytes] at hrec
        refine ⟨Mold.packetCalls 0 ps, .packets hrec, packetCalls_pos, ?_⟩
        cases herr : c.err with
        | none =>
            rw [herr] at h
            cases h
        | some e₁ =>
            rw [herr] at h
            dsimp only at h
            rw [Prod.mk.injEq, Except.error.injEq, Failure.parseError.injEq] at h
            rcases h with ⟨rfl, rfl⟩
            refine @failed_chain k kernels _ _ _ _ ?_
            rw [← hcalls, ← herr]
      · cases hfail

/-! ## Which failures name the byte -/

/-- The error of a failed replay names the first fault, and every frame before it was applied. -/
def Names (cfg : BookConfig) (format : Format) (bytes : List UInt8) (e : ParseError)
    (st : ReplayState k) : Prop :=
  ∃ ps framing fs off, Payloads format bytes ps framing ∧ FirstFault ps framing fs off ∧
    e.offset = off ∧ st.book = (OrderBook.init cfg).applyAll (messagesOf fs)

/-- The payloads of an input before any framing fault are all frames. -/
def AllWhole (format : Format) (bytes : List UInt8) : Prop :=
  ∀ ps framing, Payloads format bytes ps framing → ∀ q ∈ ps, Whole q.2

theorem names_of_failed {cfg : BookConfig} {format : Format} {bytes : List UInt8} {e : ParseError}
    {st : ReplayState k} {ps : List (Nat × List UInt8)} {framing : Option Nat}
    (hp : Payloads format bytes ps framing) (hpos : ∀ q ∈ ps, 0 < q.1)
    (h : Failed (.init cfg) st ps framing e) :
    Names cfg format bytes e st ↔ AllWhole format bytes := by
  rcases h.fault with ⟨fs, off, hfault, hbook, hcase⟩
  constructor
  · rintro ⟨ps', framing', fs', off', hp', hfault', hoff, -⟩
    rcases hp.unique hp' with ⟨rfl, rfl⟩
    have heq := hfault.unique hfault'
    rcases hcase with ⟨hall, -⟩ | ⟨-, r, hr, hshort⟩
    · intro qs f hq
      rcases hp.unique hq with ⟨rfl, rfl⟩
      exact hall
    · have hlt := hpos r hr
      omega
  · intro hall
    rcases hcase with ⟨-, hoff⟩ | ⟨⟨q, hq, hw⟩, -⟩
    · exact ⟨ps, framing, fs, off, hp, hfault, hoff, hbook⟩
    · exact absurd (hall ps framing hp q hq) hw

/-- The state in which a failed run stopped, by format. -/
theorem ingest_of_runReplay {kernels : KernelTable} {cfg : BookConfig} {format : Format}
    {bytes : List UInt8} {e : ParseError} {st : ReplayState k}
    (h : runReplay kernels { format, book := cfg } bytes = (.error (.parseError e), st)) :
    ingest kernels format bytes (.init cfg) = (.error (.parseError e), st) := by
  unfold runReplay at h
  split at h
  · cases h
  · split at h
    · next e₁ st₁ hrun =>
        rw [Prod.mk.injEq, Except.error.injEq] at h
        rw [← h.1, ← h.2]
        exact hrun
    · cases h

/-- **Which failures name the byte at fault.** A replay that fails with a parse error reports the
absolute place of the first fault, every frame before it applied, exactly in the raw format and
for a framing fault of the length-prefixed format. -/
theorem failure_names_iff (kernels : KernelTable) (cfg : BookConfig) (format : Format)
    (bytes : List UInt8) (e : ParseError) (st : ReplayState k)
    (h : runReplay kernels { format, book := cfg } bytes = (.error (.parseError e), st)) :
    Names cfg format bytes e st ↔
      format = .itchRaw ∨ (format = .lengthPrefixed ∧ AllWhole .lengthPrefixed bytes) := by
  have hrun := ingest_of_runReplay h
  cases format with
  | itchRaw =>
      refine ⟨fun _ => .inl rfl, fun _ => ?_⟩
      rcases (failed_raw hrun).fault with ⟨fs, off, hfault, hbook, hcase⟩
      refine ⟨_, _, fs, off, .raw bytes, hfault, ?_, hbook⟩
      rcases hcase with ⟨-, hoff⟩ | ⟨-, r, hr, hoff⟩
      · exact hoff
      · rw [List.mem_singleton.mp hr] at hoff
        exact hoff
  | lengthPrefixed =>
      rcases blockCode.exists_longest bytes with ⟨ds, rest, hl⟩
      have hb : bytes.drop 0 = Framing.bytes ds ++ rest := hl.eq
      have hfailed := failed_prefixed hl.stuck hl.valid (Nat.zero_le _) hb hrun
      rw [Nat.zero_add] at hfailed
      rw [names_of_failed (.blocks hl) placed_pos hfailed]
      exact ⟨fun hw => .inr ⟨rfl, hw⟩, fun hw => hw.elim (fun hf => absurd hf (by simp)) And.right⟩
  | moldudp64 =>
      rcases failed_mold hrun with ⟨calls, hp, hpos, hfailed⟩
      have hpos' : ∀ q ∈ calls.map fun q => (q.1, q.2.1), 0 < q.1 := by
        intro q hq
        rcases List.mem_map.mp hq with ⟨r, hr, rfl⟩
        exact hpos r hr
      rw [names_of_failed hp hpos' hfailed]
      refine ⟨fun hall => ?_, fun hw => absurd hw (by simp)⟩
      rcases hfailed.fault with ⟨fs, off, hfault, -⟩
      rcases hfault.bad with ⟨q, hq, hw⟩
      exact absurd (hall _ _ hp q hq) hw

/-- The failure of a result. -/
def failureOf : Except Failure Summary → Option Failure
  | .error e => some e
  | .ok _ => none

theorem eq_of_failureOf {r : Except Failure Summary × ReplayState k} {f : Failure}
    (h : failureOf r.1 = some f) : r = (.error f, r.2) := by
  rcases r with ⟨res, st⟩
  cases res with
  | error e =>
      cases h
      rfl
  | ok sum => cases h

/-- A small book, and a start of messages. -/
def faultConfig : BookConfig :=
  { arenaCapacity := 4, ladder := { loTick := 0, hiTick := 2048, pagePool := 4 } }

def startOfMessages : List UInt8 := [83, 0, 1, 0, 0, 0, 0, 0, 0, 0, 3, 79]

/-- A raw stream with an unknown type behind its first frame. -/
def unknownBehind : List UInt8 := startOfMessages ++ [90]

/-- A block with a start of messages, and the first byte of a length prefix. -/
def cutBehind : List UInt8 := Mold.encodeBlock startOfMessages ++ [0]

/-- The same frame in a block, and a block of an unknown type. -/
def unknownBlock : List UInt8 := Mold.encodeBlock startOfMessages ++ Mold.encodeBlock [90]

def faultRun (format : Format) (bytes : List UInt8) :
    Except Failure Summary × ReplayState 10 :=
  runReplay (kernelsFor .avx2) { format, book := faultConfig } bytes

theorem startOfMessages_whole : Framing.Valid SessionFrame [(.skip 83, startOfMessages)] :=
  Framing.valid_cons.mpr ⟨⟨rfl, rfl, by decide, rfl⟩, Framing.valid_nil⟩

theorem startOfMessages_block : Block startOfMessages (Mold.encodeBlock startOfMessages) :=
  ⟨⟨by decide, by decide⟩, rfl⟩

/-- No frame begins with an unknown type. -/
theorem unknown_stuck : Framing.Longest SessionFrame [90] [] [90] where
  valid := Framing.valid_nil
  eq := rfl
  stuck := by
    rintro x f hf ⟨r, hr⟩
    have hlen := hf.length_pos
    have htype := hf.charAt_zero
    have hneed := hf.length_eq
    rw [← htype, ← charAt_append_left (b := r) hlen, hr] at hneed
    have hz : sessionFrameLength (charAt [90] 0) = 0 := rfl
    omega

theorem unknownBlock_payloads :
    Payloads .lengthPrefixed unknownBlock [(2, startOfMessages), (16, [90])] none := by
  have hl : Framing.Longest Block unknownBlock
      [(startOfMessages, Mold.encodeBlock startOfMessages), ([90], Mold.encodeBlock [90])] [] := {
    valid := List.forall_mem_cons.mpr
      ⟨startOfMessages_block, List.forall_mem_singleton.mpr ⟨⟨by decide, by decide⟩, rfl⟩⟩
    eq := rfl
    stuck := fun _ _ hf hp => blockCode.nonempty hf (List.prefix_nil.mp hp) }
  exact .blocks hl

theorem cutBehind_payloads :
    Payloads .lengthPrefixed cutBehind [(2, startOfMessages)] (some 14) := by
  have hl : Framing.Longest Block cutBehind
      [(startOfMessages, Mold.encodeBlock startOfMessages)] [0] := {
    valid := List.forall_mem_singleton.mpr startOfMessages_block
    eq := rfl
    stuck := by
      rintro x f ⟨-, hf⟩ hp
      -- a block has two bytes of length, and one byte is left
      have hlen := hp.length_le
      rw [hf, Mold.encodeBlock_length, List.length_singleton] at hlen
      omega }
  exact .blocks hl

/-- **Faults of two formats.** The place of an unknown type is named in the raw format, and that of
a cut prefix behind a whole block; the place of an unknown type inside a block is not. -/
theorem failure_names_formats :
    Names faultConfig .itchRaw unknownBehind { code := .unknownType, offset := 12 }
        (faultRun .itchRaw unknownBehind).2
      ∧ Names faultConfig .lengthPrefixed cutBehind { code := .truncated, offset := 14 }
        (faultRun .lengthPrefixed cutBehind).2
      ∧ ¬ Names faultConfig .lengthPrefixed unknownBlock { code := .unknownType, offset := 0 }
        (faultRun .lengthPrefixed unknownBlock).2 := by
  have hraw : failureOf (faultRun .itchRaw unknownBehind).1
      = some (.parseError { code := .unknownType, offset := 12 }) := by decide +kernel
  have hcut : failureOf (faultRun .lengthPrefixed cutBehind).1
      = some (.parseError { code := .truncated, offset := 14 }) := by decide +kernel
  have hinside : failureOf (faultRun .lengthPrefixed unknownBlock).1
      = some (.parseError { code := .unknownType, offset := 0 }) := by decide +kernel
  refine ⟨?_, ?_, ?_⟩
  · have h := failure_names_iff (kernelsFor .avx2) faultConfig .itchRaw unknownBehind _ _
      (eq_of_failureOf hraw)
    exact h.mpr (.inl rfl)
  · have h := failure_names_iff (kernelsFor .avx2) faultConfig .lengthPrefixed cutBehind _ _
      (eq_of_failureOf hcut)
    refine h.mpr (.inr ⟨rfl, fun ps framing hp q hq => ?_⟩)
    rcases cutBehind_payloads.unique hp with ⟨rfl, rfl⟩
    rw [List.mem_singleton.mp hq]
    exact ⟨_, startOfMessages_whole, rfl⟩
  · have h := failure_names_iff (kernelsFor .avx2) faultConfig .lengthPrefixed unknownBlock _ _
      (eq_of_failureOf hinside)
    intro hnames
    rcases h.mp hnames with hformat | ⟨-, hwhole⟩
    · exact absurd hformat (by simp)
    · rcases hwhole _ _ unknownBlock_payloads (16, [90]) (by simp) with ⟨fs, hv, heq⟩
      have hbytes : Framing.Longest SessionFrame [90] fs [] := by
        have hbytes := longest_whole hv
        rwa [← heq] at hbytes
      have hrest := (sessionCode.longest_unique hbytes unknown_stuck).2
      exact absurd hrest (by simp)

/-- Behind length prefixes the same fault is reported at offset 0, though the frame stands at 16. -/
theorem prefixed_offset_relative :
    failureOf (faultRun .lengthPrefixed unknownBlock).1
      = some (.parseError { code := .unknownType, offset := 0 }) ∧
    ∃ ps fs, Payloads .lengthPrefixed unknownBlock ps none ∧ FirstFault ps none fs 16 := by
  refine ⟨by decide +kernel, [(2, startOfMessages), (16, [90])],
    [(.skip 83, startOfMessages)] ++ [], unknownBlock_payloads, ?_⟩
  exact .next (longest_whole startOfMessages_whole) (.payload unknown_stuck (by simp))

end Replay

end Mog
