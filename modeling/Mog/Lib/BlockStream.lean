import Mathlib.Data.List.Basic

/-!
# Streams taken block by block

A stream that is folded over whole blocks of `n` symbols, with what does not fill a block kept
back. Where a stream stands after some input does not depend on how the input was cut: there
is one division into whole blocks and a shorter rest.

`Fed step n s₀ l s rest` says where a stream stands after the input `l`: in state `s`, with
`rest` kept back. Feeding more to it and feeding it in one piece lead to the same place, which
is all that a digest or a cipher in blocks needs to know of its buffer.
-/

namespace BlockStream

variable {α σ : Type} {n : Nat}

/-- The whole blocks of `l`, in order. -/
def chunks (n : Nat) (l : List α) : List (List α) :=
  (List.range (l.length / n)).map fun i => (l.drop (n * i)).take n

/-- `step` has taken the whole blocks of `l` from `s₀` to `s`, and `rest` is left of it. -/
structure Fed (step : σ → List α → σ) (n : Nat) (s₀ : σ) (l : List α) (s : σ) (rest : List α) :
    Prop where
  split : ∃ bs : List (List α), (∀ b ∈ bs, b.length = n) ∧ l = bs.flatten ++ rest
    ∧ s = bs.foldl step s₀
  rest_lt : rest.length < n

theorem flatten_length {bs : List (List α)} (hbs : ∀ b ∈ bs, b.length = n) :
    bs.flatten.length = n * bs.length := by
  induction bs with
  | nil => rfl
  | cons b bs ih =>
      rw [List.forall_mem_cons] at hbs
      rw [List.flatten_cons, List.length_append, hbs.1, ih hbs.2, List.length_cons, Nat.mul_succ,
        Nat.add_comm]

theorem chunks_append_rest (hn : 0 < n) {bs : List (List α)} (hbs : ∀ b ∈ bs, b.length = n)
    {rest : List α} (hrest : rest.length < n) : chunks n (bs.flatten ++ rest) = bs := by
  unfold chunks
  induction bs with
  | nil =>
      rw [List.flatten_nil, List.nil_append, Nat.div_eq_of_lt hrest]
      rfl
  | cons b bs ih =>
      rw [List.forall_mem_cons] at hbs
      rcases hbs with ⟨hb, hbs⟩
      have hlen : ((b :: bs).flatten ++ rest).length / n = (bs.flatten ++ rest).length / n + 1 := by
        rw [List.flatten_cons, List.append_assoc, List.length_append, hb, Nat.add_comm,
          Nat.add_div_right _ hn]
      have htail : ∀ i, ((b ++ (bs.flatten ++ rest)).drop (n * (i + 1))).take n
          = ((bs.flatten ++ rest).drop (n * i)).take n := by
        intro i
        have hi : n * (i + 1) = b.length + n * i := by rw [hb, Nat.mul_succ, Nat.add_comm]
        rw [hi, ← List.drop_drop, List.drop_left]
      have hhead : ((b ++ (bs.flatten ++ rest)).drop (n * 0)).take n = b := by
        rw [Nat.mul_zero, List.drop_zero, ← hb, List.take_left]
      rw [hlen, List.range_succ_eq_map, List.map_cons, List.map_map, List.flatten_cons,
        List.append_assoc, hhead]
      refine congrArg (b :: ·) (Eq.trans (List.map_congr_left fun i _ => htail i) (ih hbs))

namespace Fed

variable {step : σ → List α → σ} {s₀ s s' : σ} {l p rest rest' : List α}

theorem init (hn : 0 < n) : Fed step n s₀ [] s₀ [] where
  split := ⟨[], fun _ h => absurd h List.not_mem_nil, rfl, rfl⟩
  rest_lt := hn

/-- Input that does not fill the block is kept back. -/
theorem keep (h : Fed step n s₀ l s rest) (hp : rest.length + p.length < n) :
    Fed step n s₀ (l ++ p) s (rest ++ p) := by
  rcases h.split with ⟨bs, hbs, hl, hs⟩
  refine ⟨⟨bs, hbs, ?_, hs⟩, ?_⟩
  · rw [hl, List.append_assoc]
  · rw [List.length_append]
    exact hp

/-- Input that fills the block lets it be taken. -/
theorem fill (h : Fed step n s₀ l s rest) (hp : rest.length + p.length = n) :
    Fed step n s₀ (l ++ p) (step s (rest ++ p)) [] := by
  rcases h.split with ⟨bs, hbs, hl, hs⟩
  refine ⟨⟨bs ++ [rest ++ p], ?_, ?_, ?_⟩, ?_⟩
  · intro b hb
    rcases List.mem_append.mp hb with hmem | hlast
    · exact hbs b hmem
    · rw [List.mem_singleton.mp hlast, List.length_append]
      exact hp
  · rw [List.flatten_append, List.flatten_singleton, List.append_nil, hl, List.append_assoc]
  · rw [List.foldl_append, ← hs]
    rfl
  · have hlt := h.rest_lt
    show 0 < n
    omega

theorem foldl_chunks (h : Fed step n s₀ l s rest) : s = (chunks n l).foldl step s₀ := by
  rcases h.split with ⟨bs, hbs, hl, hs⟩
  have hn : 0 < n := Nat.lt_of_le_of_lt (Nat.zero_le _) h.rest_lt
  rw [hl, chunks_append_rest hn hbs h.rest_lt, hs]

/-- **However the input was cut, the stream stands at one place.** -/
theorem unique (h : Fed step n s₀ l s rest) (h' : Fed step n s₀ l s' rest') :
    s = s' ∧ rest = rest' := by
  have hn : 0 < n := Nat.lt_of_le_of_lt (Nat.zero_le _) h.rest_lt
  refine ⟨h.foldl_chunks.trans h'.foldl_chunks.symm, ?_⟩
  rcases h.split with ⟨bs, hbs, hl, _⟩
  rcases h'.split with ⟨bs', hbs', hl', _⟩
  have hcut : bs = bs' := by
    rw [← chunks_append_rest hn hbs h.rest_lt, ← hl, hl', chunks_append_rest hn hbs' h'.rest_lt]
  rw [hl, hcut] at hl'
  exact List.append_cancel_left hl'

theorem rest_length (h : Fed step n s₀ l s rest) : rest.length = l.length % n := by
  rcases h.split with ⟨bs, hbs, hl, _⟩
  rw [hl, List.length_append, flatten_length hbs, Nat.mul_add_mod, Nat.mod_eq_of_lt h.rest_lt]

end Fed

end BlockStream
