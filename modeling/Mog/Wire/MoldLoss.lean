import Mog.Wire.MoldUdp

/-!
# Lost packets

What the framer says when a packet of a session was lost, came twice or came out of order.
The data packets of an accepted list stand in strictly increasing order of their numbers, so
that a repeated or a moved packet is never accepted. A loss shows at the first packet behind
it, unless that packet is the end of the session, whose number nobody looks at.
-/

namespace Mog

namespace Mold

/-- The whole day of one session: every packet carries the next expected sequence number, the
end of session as well. -/
def Contiguous (session : List UInt8) : Nat → List Packet → Prop
  | next, [] => next < 2 ^ 64
  | next, p :: ps => p.Good ∧ p.session = session ∧ p.sequence = next ∧
      (p.body = .endSession → ps = []) ∧
      Contiguous session (next + p.body.messages.length) ps

def Packet.IsData (p : Packet) : Prop := 0 < p.body.messages.length

instance (p : Packet) : Decidable p.IsData := inferInstanceAs (Decidable (0 < _))

/-- The data packets of a list. -/
def dataOf (ps : List Packet) : List Packet := ps.filter fun p => p.IsData

variable {session : List UInt8}

theorem Contiguous.lt {ps : List Packet} : ∀ {next : Nat}, Contiguous session next ps →
    next + (messagesOf ps).length < 2 ^ 64 := by
  induction ps with
  | nil => intro next h; exact h
  | cons p ps ih =>
      intro next h
      rcases h with ⟨-, -, -, -, h⟩
      have hlt := ih h
      have hmsgs : messagesOf (p :: ps) = p.body.messages ++ messagesOf ps := rfl
      rw [hmsgs, List.length_append]
      omega

theorem Contiguous.mem {ps : List Packet} : ∀ {next : Nat}, Contiguous session next ps →
    ∀ p ∈ ps, p.Good ∧ p.session = session ∧ p.sequence + p.body.messages.length < 2 ^ 64 := by
  induction ps with
  | nil => intro next _ p hp; exact absurd hp (by simp)
  | cons p ps ih =>
      intro next h
      rcases h with ⟨hp, hs, hseq, -, h⟩
      have hlt := h.lt
      exact List.forall_mem_cons.mpr ⟨⟨hp, hs, by omega⟩, ih h⟩

/-- A day is a chain. -/
theorem Contiguous.chained {ps : List Packet} : ∀ {next : Nat} {e : Option (List UInt8 × Nat)},
    Contiguous session next ps → (e = none ∨ e = some (session, next)) → Chained e ps := by
  induction ps with
  | nil => intro next e _ _; trivial
  | cons p ps ih =>
      intro next e h he
      rcases h with ⟨-, hs, hseq, hlast, h⟩
      have hlt := h.lt
      have hfollows : Follows e p := by
        rcases he with rfl | rfl
        · exact .inr trivial
        · exact .inr fun _ => hseq
      refine ⟨hfollows, hlast, ih h (.inr ?_)⟩
      rw [Packet.after_next, hs, hseq, Nat.mod_eq_of_lt (by omega)]

/-- A beginning of a chain is a chain. -/
theorem Chained.front {ps qs : List Packet} : ∀ {e : Option (List UInt8 × Nat)},
    Chained e (ps ++ qs) → Chained e ps := by
  induction ps with
  | nil => intro e _; trivial
  | cons p ps ih =>
      intro e h
      rcases h with ⟨hf, hlast, h⟩
      refine ⟨hf, fun he => ?_, ih h⟩
      have hnil : ps ++ qs = [] := hlast he
      exact (List.append_eq_nil_iff.mp hnil).1

/-- An end of session may stand behind any open chain. -/
theorem Chained.snoc_end {ps : List Packet} {q : Packet} (hq : q.body = .endSession)
    (hopen : ∀ p ∈ ps, p.body ≠ .endSession) : ∀ {e : Option (List UInt8 × Nat)},
    Chained e ps → Chained e (ps ++ [q]) := by
  induction ps with
  | nil => intro e _; exact ⟨.inl hq, fun _ => rfl, trivial⟩
  | cons p ps ih =>
      intro e hc
      rcases hc with ⟨hf, -, hc⟩
      rcases List.forall_mem_cons.mp hopen with ⟨hp, hopen⟩
      exact ⟨hf, fun he => absurd he hp, ih hopen hc⟩

/-- A part of the day: it is open, and the numbers go on behind it. -/
theorem Contiguous.append {ps qs : List Packet} : ∀ {next : Nat},
    Contiguous session next (ps ++ qs) → qs ≠ [] →
    (∀ p ∈ ps, p.body ≠ .endSession) ∧
      Contiguous session (next + (messagesOf ps).length) qs := by
  induction ps with
  | nil =>
      intro next h _
      exact ⟨fun p hp => absurd hp (by simp), h⟩
  | cons p ps ih =>
      intro next h hq
      rcases h with ⟨-, -, -, hlast, h⟩
      have hne : p.body ≠ .endSession := by
        intro he
        have hnil : ps ++ qs = [] := hlast he
        exact hq (List.append_eq_nil_iff.mp hnil).2
      have hmsgs : messagesOf (p :: ps) = p.body.messages ++ messagesOf ps := rfl
      rcases ih h hq with ⟨hopen, hrest⟩
      refine ⟨List.forall_mem_cons.mpr ⟨hne, hopen⟩, ?_⟩
      rw [hmsgs, List.length_append, ← Nat.add_assoc]
      exact hrest

/-- What the framer expects after a beginning of the day. -/
theorem afterPackets_contiguous {ps qs : List Packet} : ∀ {next : Nat} {c : Continuity},
    ps ≠ [] → Contiguous session next (ps ++ qs) →
    afterPackets c ps
      = { expectedSeq := next + (messagesOf ps).length, established := true
          establishedSession := session } := by
  induction ps with
  | nil => intro next c hne _; exact absurd rfl hne
  | cons p ps ih =>
      intro next c _ h
      rcases h with ⟨hp, hs, hseq, -, h⟩
      have hlt := h.lt
      have hmsgs : messagesOf (p :: ps) = p.body.messages ++ messagesOf ps := rfl
      rw [afterPackets, hmsgs, List.length_append, ← Nat.add_assoc]
      by_cases hps : ps = []
      · rw [hps]
        have hnil : (messagesOf ([] : List Packet)).length = 0 := rfl
        rw [afterPackets, Packet.after, hs, hseq, hnil, Nat.add_zero, Nat.mod_eq_of_lt (by omega)]
      · exact ih hps h

/-! ## Accepted lists are in order -/

/-- **The data packets of a chain go up.** -/
theorem Chained.sorted {ps : List Packet} : ∀ {next : Nat},
    (∀ p ∈ ps, p.session = session ∧ p.sequence + p.body.messages.length < 2 ^ 64) →
    Chained (some (session, next)) ps →
    (∀ p ∈ dataOf ps, next ≤ p.sequence) ∧
      (dataOf ps).Pairwise fun p q => p.sequence < q.sequence := by
  induction ps with
  | nil => intro next _ _; exact ⟨fun p hp => absurd hp (by simp [dataOf]), List.Pairwise.nil⟩
  | cons p ps ih =>
      intro next hmem hc
      rcases List.forall_mem_cons.mp hmem with ⟨⟨hs, hlt⟩, hmem⟩
      rcases hc with ⟨hf, hlast, hc⟩
      rw [Packet.after_next, hs, Nat.mod_eq_of_lt hlt] at hc
      rcases ih hmem hc with ⟨hge, hsorted⟩
      by_cases hd : p.IsData
      · have hdata : dataOf (p :: ps) = p :: dataOf ps := by
          rw [dataOf, List.filter_cons_of_pos (by simpa using hd)]
          rfl
        have hseq : p.sequence = next := by
          rcases hf with hend | hcont
          · rw [Packet.IsData, hend] at hd
            exact absurd hd (Nat.lt_irrefl 0)
          · exact hcont hs
        have hpos : 0 < p.body.messages.length := hd
        rw [hdata]
        refine ⟨List.forall_mem_cons.mpr ⟨by omega, fun q hq => ?_⟩,
          List.pairwise_cons.mpr ⟨fun q hq => ?_, hsorted⟩⟩
        · have hq := hge q hq
          omega
        · have hq := hge q hq
          omega
      · have hdata : dataOf (p :: ps) = dataOf ps := by
          rw [dataOf, List.filter_cons_of_neg (by simpa using hd)]
          rfl
        have hnone : p.body.messages.length = 0 := Nat.eq_zero_of_not_pos hd
        rw [hdata]
        by_cases hend : p.body = .endSession
        · -- nothing stands behind an end of session
          rw [hlast hend]
          exact ⟨fun q hq => absurd hq (by simp [dataOf]), List.Pairwise.nil⟩
        · have hseq : p.sequence = next := by
            rcases hf with he | hcont
            · exact absurd he hend
            · exact hcont hs
          rw [hnone, Nat.add_zero, hseq] at hge
          exact ⟨hge, hsorted⟩

/-- The same for a whole list, which may start anywhere. -/
theorem Chained.sorted_start {ps : List Packet}
    (hmem : ∀ p ∈ ps, p.session = session ∧ p.sequence + p.body.messages.length < 2 ^ 64)
    (hc : Chained none ps) : (dataOf ps).Pairwise fun p q => p.sequence < q.sequence := by
  cases ps with
  | nil => exact List.Pairwise.nil
  | cons p ps =>
      rcases hc with ⟨-, hlast, hc⟩
      have hc' : Chained (some (session, p.sequence)) (p :: ps) :=
        ⟨.inr fun _ => rfl, hlast, hc⟩
      exact (hc'.sorted hmem).2

variable {σ : Type} {sink : σ → Nat × List UInt8 × Nat → σ}

/-- **Only a chain of packets is accepted.** -/
theorem chained_of_done {buf : List UInt8} {n : Nat} {ps : List Packet} (hgood : ∀ p ∈ ps, p.Good) :
    ∀ {off : Nat} {c : Continuity} {s : σ}, buf.drop off = encodePackets ps →
      (packetLoop sink buf off c s).1 = .done n → Chained c.next ps := by
  induction ps with
  | nil => intro off c s _ _; trivial
  | cons p ps ih =>
      intro off c s hb hdone
      rcases List.forall_mem_cons.mp hgood with ⟨hp, hps⟩
      rw [encodePackets_cons] at hb
      by_cases hf : Follows c.next p
      · by_cases hend : p.body = .endSession
        · rw [packetLoop_endSession hp hb hend] at hdone
          by_cases hrest : encodePackets ps = []
          · have hnil : ps = [] := by
              cases ps with
              | nil => rfl
              | cons q ps =>
                  rcases List.forall_mem_cons.mp hps with ⟨hq, -⟩
                  have hsize := Packet.encode_length hq
                  have hpos : 0 < kPacketHeaderSize := by decide
                  have hz := congrArg List.length hrest
                  rw [encodePackets_cons, List.length_append, List.length_nil] at hz
                  omega
            rw [hnil]
            exact ⟨hf, fun _ => rfl, trivial⟩
          · rw [if_pos hrest] at hdone
            exact absurd hdone (by simp)
        · have hdrop : buf.drop (off + p.encode.length) = encodePackets ps := by
            rw [← List.drop_drop, hb, List.drop_left]
          rw [packetLoop_follows hp hb hend hf] at hdone
          exact ⟨hf, fun he => absurd he hend, ih hps hdrop hdone⟩
      · rw [packetLoop_gap hp hb hf] at hdone
        exact absurd hdone (by simp)

/-- A list that is no chain is refused. -/
theorem parse_fails {ps : List Packet} (hgood : ∀ p ∈ ps, p.Good) (hc : ¬ Chained none ps) (s : σ) :
    ∃ e, (parseMoldudp64 (encodePackets ps) sink s).1 = .fail e := by
  rcases @packetLoop_run σ sink (encodePackets ps) 0 .start s (Nat.zero_le _) with
    ⟨qs, cut, tail, h⟩
  rcases h.outcome with ⟨hdone, -, -⟩ | ⟨-, hfail⟩
  · exact absurd (chained_of_done hgood rfl hdone) hc
  · exact hfail

/-! ## Losses, repetitions and changes of order -/

/-- The gap that a loss behind `pre` should be reported with. -/
def lossReport (start : Nat) (pre : List Packet) (q : Packet) : ErrorInfo :=
  { code := .sequenceGap
    offset := (encodePackets pre).length
    gap := { expectedSeq := start + (messagesOf pre).length, gotSeq := q.sequence
             offset := (encodePackets pre).length, session := q.session } }

theorem discontinuity_of_lt {expected off : Nat} {p : Packet} (hp : p.Good)
    (h : expected < p.sequence) :
    discontinuity expected p.view off
      = { code := .sequenceGap, offset := off
          gap := { expectedSeq := expected, gotSeq := p.sequence, offset := off
                   session := p.session } } := by
  have hlt : expected < p.view.sequence := h
  have htake : p.view.session.take kSessionSize = p.session := by
    rw [← hp.session, Packet.view, List.take_length]
  rw [discontinuity, if_pos hlt, htake]
  rfl

/-- A loss that shows at a packet other than the end of the session is reported there. -/
theorem loss_reported {start : Nat} {pre lost post post' : List Packet} {q : Packet}
    (h : Contiguous session start (pre ++ lost ++ q :: post)) (hpre : pre ≠ [])
    (hlost : lost ≠ []) (hdata : ∀ p ∈ lost, p.IsData) (hq : q.body ≠ .endSession) (s : σ) :
    (parseMoldudp64 (encodePackets (pre ++ q :: post')) sink s).1
      = .fail (lossReport start pre q) := by
  have hne : lost ++ q :: post ≠ [] := by simp
  rw [List.append_assoc] at h
  rcases h.mem q (by simp) with ⟨hqg, hqs, -⟩
  rcases h.append hne with ⟨hopen, hmid⟩
  rcases hmid.append (List.cons_ne_nil q post) with ⟨-, -, -, hseq, -, -⟩
  have hafter := @afterPackets_contiguous _ _ _ _ .start hpre h
  have hgood : ∀ p ∈ pre, p.Good := fun p hp => (h.mem p (List.mem_append_left _ hp)).1
  have hchain : Chained none pre := (h.chained (.inl rfl)).front
  -- the packets that were lost carried messages
  have hpos : 0 < (messagesOf lost).length := by
    cases lost with
    | nil => exact absurd rfl hlost
    | cons p lost =>
        have hp : 0 < p.body.messages.length := hdata p (List.mem_cons_self ..)
        have hmsgs : messagesOf (p :: lost) = p.body.messages ++ messagesOf lost := rfl
        rw [hmsgs, List.length_append]
        omega
  have hb : (encodePackets (pre ++ q :: post')).drop 0
      = encodePackets pre ++ encodePackets (q :: post') := by
    rw [List.drop_zero, encodePackets_append]
  have hdrop : (encodePackets (pre ++ q :: post')).drop (0 + (encodePackets pre).length)
      = q.encode ++ encodePackets post' := by
    rw [← List.drop_drop, hb, List.drop_left, encodePackets_cons]
  have hnot : ¬ Follows (afterPackets .start pre).next q := by
    rw [hafter]
    rintro (he | hc)
    · exact hq he
    · have hcont : q.sequence = start + (messagesOf pre).length := hc hqs
      omega
  unfold parseMoldudp64
  rw [packetLoop_packets (c := .start) hgood hopen hchain hb, packetLoop_gap hqg hdrop hnot, hafter,
    Nat.zero_add, discontinuity_of_lt hqg (by dsimp only; omega)]
  rfl

/-- A loss right before the end of the session is not noticed. -/
theorem loss_unnoticed {start : Nat} {pre lost post : List Packet} {q : Packet}
    (h : Contiguous session start (pre ++ lost ++ q :: post)) (hq : q.body = .endSession) (s : σ) :
    (parseMoldudp64 (encodePackets (pre ++ [q])) sink s).1
      = .done (encodePackets (pre ++ [q])).length := by
  have hne : lost ++ q :: post ≠ [] := by simp
  rw [List.append_assoc] at h
  rcases h.append hne with ⟨hopen, -⟩
  have hchain : Chained none pre := (h.chained (.inl rfl)).front
  have hgood : ∀ p ∈ pre ++ [q], p.Good := by
    intro p hp
    rcases List.mem_append.mp hp with hp | hp
    · exact (h.mem p (List.mem_append_left _ hp)).1
    · rw [List.mem_singleton.mp hp]
      exact (h.mem q (by simp)).1
  rw [parse_chained hgood (hchain.snoc_end hq hopen)]

/-- The data packets of a day are in order. -/
theorem Contiguous.sorted {start : Nat} {ps : List Packet} (h : Contiguous session start ps) :
    (dataOf ps).Pairwise fun p q => p.sequence < q.sequence :=
  Chained.sorted_start (fun p hp => (h.mem p hp).2) (h.chained (.inl rfl))

/-- A list of packets of the day whose data packets are not in order is refused. -/
theorem disorder_refused {start : Nat} {ps qs : List Packet} (h : Contiguous session start ps)
    (hmem : ∀ p ∈ qs, p ∈ ps)
    (hd : ¬ (dataOf qs).Pairwise fun p q => p.sequence < q.sequence) (s : σ) :
    ∃ e, (parseMoldudp64 (encodePackets qs) sink s).1 = .fail e := by
  refine parse_fails (fun p hp => (h.mem p (hmem p hp)).1) (fun hc => hd ?_) s
  exact hc.sorted_start fun p hp => (h.mem p (hmem p hp)).2

/-- **Which losses are noticed.** On a whole day of one session, a loss is reported at the first
packet behind it exactly when that packet is not the end of the session; and a list with a data
packet twice, or with its data packets in another order, is refused. -/
theorem loss_reported_iff {start : Nat} {ps : List Packet} (h : Contiguous session start ps)
    (s : σ) :
    (∀ (pre lost post post' : List Packet) (q : Packet), ps = pre ++ lost ++ q :: post →
      pre ≠ [] → lost ≠ [] → (∀ p ∈ lost, p.IsData) → post'.Sublist post →
      ((parseMoldudp64 (encodePackets (pre ++ q :: post')) sink s).1
          = .fail (lossReport start pre q) ↔
        q.body ≠ .endSession)) ∧
    (∀ qs : List Packet, qs.Perm ps → dataOf qs ≠ dataOf ps →
      ∃ e, (parseMoldudp64 (encodePackets qs) sink s).1 = .fail e) ∧
    (∀ p ∈ dataOf ps, ∀ qs : List Packet, qs.Perm (p :: ps) →
      ∃ e, (parseMoldudp64 (encodePackets qs) sink s).1 = .fail e) := by
  refine ⟨?_, ?_, ?_⟩
  · intro pre lost post post' q hps hpre hlost hdata hsub
    rw [hps] at h
    constructor
    · intro hrep hq
      have hrest := h
      rw [List.append_assoc] at hrest
      rcases (hrest.append (by simp)).2.append (List.cons_ne_nil q post) with
        ⟨-, -, -, -, hlast, -⟩
      have hnil : post' = [] := List.sublist_nil.mp (hlast hq ▸ hsub)
      rw [hnil, loss_unnoticed h hq] at hrep
      exact absurd hrep (by simp)
    · intro hq
      exact loss_reported h hpre hlost hdata hq s
  · intro qs hperm hne
    refine disorder_refused h (fun p hp => hperm.subset hp) (fun hsorted => hne ?_) s
    exact List.Perm.eq_of_pairwise (fun a b _ _ hab hba => absurd hab (by omega)) hsorted h.sorted
      (hperm.filter _)
  · intro p hp qs hperm
    have hpm : p ∈ ps := List.mem_of_mem_filter hp
    have hmem : ∀ q ∈ qs, q ∈ ps := by
      intro q hq
      rcases List.mem_cons.mp (hperm.subset hq) with rfl | hq
      · exact hpm
      · exact hq
    refine disorder_refused h hmem (fun hsorted => ?_) s
    -- the packet that came twice would be below itself
    have hdup : (dataOf qs).Perm (p :: dataOf ps) := by
      have hd : p.IsData := by simpa [dataOf] using (List.mem_filter.mp hp).2
      have hf := hperm.filter fun q => decide q.IsData
      rw [List.filter_cons_of_pos (by simpa using hd)] at hf
      exact hf
    have hnodup : (dataOf qs).Nodup := hsorted.imp fun {a b} hab hne => by
      rw [hne] at hab
      exact Nat.lt_irrefl _ hab
    exact (List.nodup_cons.mp (hdup.nodup_iff.mp hnodup)).1 hp

/-- The packets of a day of three messages: its session, and a packet of it. -/
def daySession : List UInt8 := [77, 79, 71, 48, 48, 48, 48, 48, 48, 49]

def dayPacket (sequence : Nat) (body : Body) : Packet := { session := daySession, sequence, body }

def day : List Packet :=
  [dayPacket 1 (.data [[83]]), dayPacket 2 (.data [[69]]), dayPacket 3 (.data [[80]]),
    dayPacket 4 .endSession]

theorem day_contiguous : Contiguous daySession 1 day := by
  have hgood : ∀ c : UInt8, (Body.data [[c]]).Good := fun c =>
    ⟨Nat.one_pos, (by decide : 1 < kHeartbeatCount),
      List.forall_mem_singleton.mpr ⟨Nat.one_pos, (by decide : 1 < 2 ^ 16)⟩⟩
  exact ⟨⟨rfl, by decide, hgood 83⟩, rfl, rfl, fun h => absurd h (by decide),
    ⟨rfl, by decide, hgood 69⟩, rfl, rfl, fun h => absurd h (by decide),
    ⟨rfl, by decide, hgood 80⟩, rfl, rfl, fun h => absurd h (by decide),
    ⟨rfl, by decide, trivial⟩, rfl, rfl, fun _ => rfl, (by decide : 4 < 2 ^ 64)⟩

/-- **Losses of the day.** A missing second message is reported at the third packet, with the end of
the session behind it; a missing third one is not reported at the end of the session; and the day is
refused with its messages changed or with one of them twice. -/
theorem day_losses :
    (parseMoldudp64 (encodePackets [dayPacket 1 (.data [[83]]), dayPacket 3 (.data [[80]]),
        dayPacket 4 .endSession]) (fun l q => l ++ [q.2.1]) []).1
      = .fail (lossReport 1 [dayPacket 1 (.data [[83]])] (dayPacket 3 (.data [[80]]))) ∧
    (parseMoldudp64 (encodePackets [dayPacket 1 (.data [[83]]), dayPacket 2 (.data [[69]]),
        dayPacket 4 .endSession]) (fun l q => l ++ [q.2.1]) []).1
      ≠ .fail (lossReport 1 [dayPacket 1 (.data [[83]]), dayPacket 2 (.data [[69]])]
          (dayPacket 4 .endSession)) ∧
    (∃ e, (parseMoldudp64 (encodePackets [dayPacket 1 (.data [[83]]), dayPacket 3 (.data [[80]]),
      dayPacket 2 (.data [[69]]), dayPacket 4 .endSession]) (fun l q => l ++ [q.2.1]) []).1
      = .fail e) ∧
    ∃ e, (parseMoldudp64 (encodePackets [dayPacket 2 (.data [[69]]), dayPacket 1 (.data [[83]]),
      dayPacket 2 (.data [[69]]), dayPacket 3 (.data [[80]]), dayPacket 4 .endSession])
      (fun l q => l ++ [q.2.1]) []).1 = .fail e := by
  have h := @loss_reported_iff daySession (List (List UInt8)) (fun l q => l ++ [q.2.1]) 1 day
    day_contiguous []
  refine ⟨?_, ?_, ?_, ?_⟩
  · have hlost := h.1 [dayPacket 1 (.data [[83]])] [dayPacket 2 (.data [[69]])]
      [dayPacket 4 .endSession] [dayPacket 4 .endSession] (dayPacket 3 (.data [[80]]))
      rfl (by simp) (by simp) (by decide) (List.Sublist.refl _)
    exact hlost.mpr (by simp [dayPacket])
  · have hlost := h.1 [dayPacket 1 (.data [[83]]), dayPacket 2 (.data [[69]])]
      [dayPacket 3 (.data [[80]])] [] [] (dayPacket 4 .endSession)
      rfl (by simp) (by simp) (by decide) (List.Sublist.refl _)
    intro hrep
    exact hlost.mp hrep rfl
  · exact h.2.1 _ ((List.Perm.swap _ _ _).cons _) (by decide)
  · exact h.2.2 (dayPacket 2 (.data [[69]])) (by decide) _ (List.Perm.refl _)

/-- The day without its third message is accepted: the end of the session carries the number 4
where 3 was expected. -/
theorem day_loss_accepted :
    Contiguous daySession 1 day ∧
      parseMoldudp64 (encodePackets [dayPacket 1 (.data [[83]]), dayPacket 2 (.data [[69]]),
          dayPacket 4 .endSession])
        (fun (l : List (List UInt8)) q => l ++ [q.2.1]) [] = (.done 66, [[83], [69]]) := by
  refine ⟨day_contiguous, ?_⟩
  decide +kernel

end Mold

end Mog
