import Mathlib.Data.List.Basic

/-!
# Streams of packets that know their length

A stream of packets laid end to end, where the first element of a packet says how long
it is. A reader takes one packet after the other while a whole one is there, so that
whatever part of a stream has arrived, it reads the packets that have arrived in full.

How long a packet is depends on its first element only, which is what a reader can look at
before the rest has come. Fuel bounds the packets that are taken, and is enough where it is no
less than the elements there are; so a reader of a prefix has read a prefix of the packets.
-/

namespace PacketStream

variable {α : Type} (size : α → Nat)

/-- `p` is as long as its first element says. -/
def Packet (p : List α) : Prop := ∃ a l, p = a :: l ∧ size a = p.length

/-- `b` holds no whole packet. -/
def Short (b : List α) : Prop := ∀ a l, b = a :: l → size a = 0 ∨ b.length < size a

/-- The packets that are there, and what is left. -/
def split : Nat → List α → List (List α) × List α
  | 0, b => ([], b)
  | _ + 1, [] => ([], [])
  | fuel + 1, a :: l =>
      if size a = 0 ∨ (a :: l).length < size a then ([], a :: l)
      else
        let r := split fuel ((a :: l).drop (size a))
        ((a :: l).take (size a) :: r.1, r.2)

variable {size}

theorem short_nil : Short size [] := fun a l h =>
  absurd h.symm (List.cons_ne_nil a l)

/-- The beginning of a packet is no packet. -/
theorem Packet.short {p b : List α} (hp : Packet size p) (hb : b <+: p) (hlt : b.length < p.length) :
    Short size b := by
  rintro a l rfl
  obtain ⟨a', l', rfl, hsize⟩ := hp
  obtain ⟨rfl, _⟩ := List.cons_prefix_cons.mp hb
  rw [hsize]
  exact Or.inr hlt

theorem split_short {b : List α} (hb : Short size b) (fuel : Nat) :
    split size fuel b = ([], b) := by
  cases fuel with
  | zero => rfl
  | succ fuel =>
      cases b with
      | nil => rfl
      | cons a l =>
          rw [split]
          exact if_pos (hb a l rfl)

/-- **A reader takes whole packets** off the front, as many as its fuel lets it. -/
theorem split_packets {ps : List (List α)} (hps : ∀ p ∈ ps, Packet size p) {rest : List α}
    (hrest : Short size rest) {fuel : Nat} (hfuel : ps.length ≤ fuel) :
    split size fuel (ps.flatten ++ rest) = (ps, rest) := by
  induction ps generalizing fuel with
  | nil => exact split_short hrest fuel
  | cons p ps ih =>
      obtain ⟨a, l, rfl, hsize⟩ := hps p List.mem_cons_self
      cases fuel with
      | zero => exact absurd hfuel (Nat.not_succ_le_zero _)
      | succ fuel =>
          have hnext := ih (fun q hq => hps q (List.mem_cons_of_mem _ hq))
            (Nat.le_of_succ_le_succ hfuel)
          have hbytes : ((a :: l) :: ps).flatten ++ rest = a :: (l ++ (ps.flatten ++ rest)) := by
            rw [List.flatten_cons, List.append_assoc]
            rfl
          have hwhole : ¬ (size a = 0 ∨ (a :: (l ++ (ps.flatten ++ rest))).length < size a) := by
            rw [hsize, List.length_cons, List.length_cons, List.length_append]
            omega
          rw [hbytes, split, if_neg hwhole]
          have htake : (a :: (l ++ (ps.flatten ++ rest))).take (size a) = a :: l := by
            rw [hsize, ← List.cons_append, List.take_left]
          have hdrop : (a :: (l ++ (ps.flatten ++ rest))).drop (size a) = ps.flatten ++ rest := by
            rw [hsize, ← List.cons_append, List.drop_left]
          dsimp only
          rw [htake, hdrop, hnext]

theorem length_le_flatten {ps : List (List α)} (hps : ∀ p ∈ ps, Packet size p) :
    ps.length ≤ ps.flatten.length := by
  induction ps with
  | nil => exact Nat.le_refl 0
  | cons p ps ih =>
      obtain ⟨a, l, rfl, _⟩ := hps p List.mem_cons_self
      have := ih fun q hq => hps q (List.mem_cons_of_mem _ hq)
      rw [List.flatten_cons, List.length_cons, List.length_append, List.length_cons]
      omega

/-- Where a stream is cut, some packets are whole and the next one is not. -/
theorem take_flatten (ps : List (List α)) (n : Nat) :
    ∃ m rest, m ≤ ps.length ∧ ps.flatten.take n = (ps.take m).flatten ++ rest
      ∧ (m < ps.length → n < (ps.take (m + 1)).flatten.length)
      ∧ (rest = [] ∨ ∃ p ∈ ps, rest <+: p ∧ rest.length < p.length) := by
  induction ps generalizing n with
  | nil => exact ⟨0, [], Nat.le_refl 0, by simp, fun h => absurd h (Nat.lt_irrefl 0), Or.inl rfl⟩
  | cons p ps ih =>
      by_cases hn : n < p.length
      · refine ⟨0, p.take n, Nat.zero_le _, ?_, fun _ => ?_, Or.inr ⟨p, List.mem_cons_self, ?_, ?_⟩⟩
        · rw [List.flatten_cons, List.take_append_of_le_length (Nat.le_of_lt hn)]
          rfl
        · rw [List.take_succ_cons, List.flatten_cons, List.length_append]
          omega
        · exact List.take_prefix n p
        · rw [List.length_take]
          omega
      · obtain ⟨m, rest, hm, heq, hcut, hrest⟩ := ih (n - p.length)
        refine ⟨m + 1, rest, Nat.succ_le_succ hm, ?_, fun hlt => ?_, ?_⟩
        · rw [List.flatten_cons, List.take_append, List.take_of_length_le (by omega), heq,
            List.take_succ_cons, List.flatten_cons, List.append_assoc]
        · have := hcut (Nat.lt_of_succ_lt_succ hlt)
          rw [List.take_succ_cons, List.flatten_cons, List.length_append]
          omega
        · rcases hrest with hnil | ⟨q, hq, hpre, hlen⟩
          · exact Or.inl hnil
          · exact Or.inr ⟨q, List.mem_cons_of_mem _ hq, hpre, hlen⟩

/-- **A reader reads what has arrived.** -/
theorem split_take {ps : List (List α)} (hps : ∀ p ∈ ps, Packet size p) (n : Nat) :
    ∃ m, m ≤ ps.length ∧ (split size n (ps.flatten.take n)).1 = ps.take m
      ∧ (m < ps.length → n < (ps.take (m + 1)).flatten.length) := by
  obtain ⟨m, rest, hm, heq, hcut, hrest⟩ := take_flatten ps n
  have hpart : Short size rest := by
    rcases hrest with rfl | ⟨p, hp, hpre, hlen⟩
    · exact short_nil
    · exact (hps p hp).short hpre hlen
  have hsub : ∀ p ∈ ps.take m, Packet size p := fun p hp => hps p (List.mem_of_mem_take hp)
  have hfuel : (ps.take m).length ≤ n := by
    have hle := length_le_flatten hsub
    have hlen := congrArg List.length heq
    rw [List.length_take, List.length_append] at hlen
    omega
  refine ⟨m, hm, ?_, hcut⟩
  rw [heq, split_packets hsub hpart hfuel]

end PacketStream
