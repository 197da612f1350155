import Mathlib.Data.List.Basic

/-!
# Framed streams

A stream of frames laid end to end. A frame relation says which bytes carry which item;
when no frame is the beginning of another, a stream has at most one division into frames,
and every stream has a longest framed beginning. A scanner that takes one frame at a time
computes a fold over that division.

The library has two rules. The first is about a frame relation alone: divisions of one stream
agree as far as both go, so the longest one is unique. The second is about a loop: if one pass
takes a frame where one stands and stops where none does, then a whole run has acted on the
frames of the longest division and stopped at its end.
-/

namespace Framing

variable {α β γ σ ρ : Type}

/-- No frame is empty, and none is the beginning of another. -/
structure Code (Frame : β → List α → Prop) : Prop where
  nonempty : ∀ {x f}, Frame x f → f ≠ []
  unique : ∀ {x y f g}, Frame x f → Frame y g → f <+: g → x = y ∧ f = g

/-- The bytes of a division, end to end. -/
def bytes (fs : List (β × List α)) : List α := (fs.map Prod.snd).flatten

/-- Every part of a division is a frame of its item. -/
def Valid (Frame : β → List α → Prop) (fs : List (β × List α)) : Prop :=
  ∀ p ∈ fs, Frame p.1 p.2

@[simp] theorem bytes_nil : bytes ([] : List (β × List α)) = [] := rfl

@[simp] theorem bytes_cons (p : β × List α) (fs : List (β × List α)) :
    bytes (p :: fs) = p.2 ++ bytes fs := rfl

theorem bytes_append (fs gs : List (β × List α)) : bytes (fs ++ gs) = bytes fs ++ bytes gs := by
  induction fs with
  | nil => rfl
  | cons p fs ih => rw [List.cons_append, bytes_cons, bytes_cons, ih, List.append_assoc]

section

variable {Frame : β → List α → Prop}

theorem valid_nil : Valid Frame [] := fun _ h => absurd h (by simp)

theorem valid_cons {p : β × List α} {fs : List (β × List α)} :
    Valid Frame (p :: fs) ↔ Frame p.1 p.2 ∧ Valid Frame fs := by
  unfold Valid
  rw [List.forall_mem_cons]

theorem Valid.filter {fs : List (β × List α)} (h : Valid Frame fs) (keep : β × List α → Bool) :
    Valid Frame (fs.filter keep) :=
  fun p hp => h p (List.mem_of_mem_filter hp)

/-! ## The longest framed beginning -/

/-- `fs` divides a beginning of `b`, and what is left starts with no frame. -/
structure Longest (Frame : β → List α → Prop) (b : List α) (fs : List (β × List α))
    (rest : List α) : Prop where
  valid : Valid Frame fs
  eq : b = bytes fs ++ rest
  stuck : ∀ x f, Frame x f → ¬ f <+: rest

theorem Longest.cons {x : β} {f b : List α} {fs : List (β × List α)} {rest : List α}
    (h : Longest Frame b fs rest) (hf : Frame x f) :
    Longest Frame (f ++ b) ((x, f) :: fs) rest :=
  { valid := valid_cons.mpr ⟨hf, h.valid⟩
    eq := by rw [bytes_cons, List.append_assoc, ← h.eq]
    stuck := h.stuck }

namespace Code

variable (hc : Code Frame)
include hc

/-- Every stream has a longest framed beginning. -/
theorem exists_longest (b : List α) : ∃ fs rest, Longest Frame b fs rest := by
  induction hn : b.length using Nat.strongRecOn generalizing b with
  | ind n ih =>
      by_cases hb : ∃ x f, Frame x f ∧ f <+: b
      · rcases hb with ⟨x, f, hf, r, rfl⟩
        have hpos : 0 < f.length := List.length_pos_of_ne_nil (hc.nonempty hf)
        have hlt : r.length < n := by
          rw [← hn, List.length_append]
          omega
        rcases ih r.length hlt r rfl with ⟨fs, rest, h⟩
        exact ⟨(x, f) :: fs, rest, h.cons hf⟩
      · refine ⟨[], b, valid_nil, rfl, fun x f hf hp => hb ⟨x, f, hf, hp⟩⟩

/-- Two frames at the front of one stream are one frame. -/
theorem eq_of_append {x y : β} {f g r s : List α} (hf : Frame x f) (hg : Frame y g)
    (h : f ++ r = g ++ s) : x = y ∧ f = g := by
  have hf' : f <+: g ++ s := ⟨r, h⟩
  rcases Nat.le_total f.length g.length with hle | hle
  · exact hc.unique hf hg (List.prefix_of_prefix_length_le hf' (List.prefix_append g s) hle)
  · have hgf := List.prefix_of_prefix_length_le (List.prefix_append g s) hf' hle
    rcases hc.unique hg hf hgf with ⟨rfl, rfl⟩
    exact ⟨rfl, rfl⟩

/-- **The longest beginning is the longest**: any other division is a beginning of it. -/
theorem le_longest {b : List α} {fs gs : List (β × List α)} {rest s : List α}
    (h : Longest Frame b fs rest) (hg : Valid Frame gs) (hb : b = bytes gs ++ s) : gs <+: fs := by
  induction gs generalizing b fs with
  | nil => exact List.nil_prefix
  | cons p gs ih =>
      rcases valid_cons.mp hg with ⟨hp, hgs⟩
      rw [bytes_cons, List.append_assoc] at hb
      cases fs with
      | nil =>
          have hr : b = rest := h.eq
          exact absurd ⟨_, (hr ▸ hb).symm⟩ (h.stuck p.1 p.2 hp)
      | cons q fs =>
          rcases valid_cons.mp h.valid with ⟨hq, hfs⟩
          have he : q.2 ++ (bytes fs ++ rest) = p.2 ++ (bytes gs ++ s) := by
            rw [← hb, h.eq, bytes_cons, List.append_assoc]
          rcases hc.eq_of_append hq hp he with ⟨h1, h2⟩
          rw [h2] at he
          have hpq : p = q := Prod.ext h1.symm h2.symm
          rw [hpq]
          exact List.cons_prefix_cons.mpr
            ⟨rfl, ih ⟨hfs, rfl, h.stuck⟩ hgs (List.append_cancel_left he)⟩

/-- A stream that is all frames leaves nothing. -/
theorem rest_eq_nil_iff {b : List α} {fs : List (β × List α)} {rest : List α}
    (h : Longest Frame b fs rest) : rest = [] ↔ ∃ gs, Valid Frame gs ∧ b = bytes gs := by
  constructor
  · intro hr
    exact ⟨fs, h.valid, by rw [h.eq, hr, List.append_nil]⟩
  · intro hg
    rcases hg with ⟨gs, hg, hb⟩
    rcases hc.le_longest h hg (s := []) (by rw [hb, List.append_nil]) with ⟨ts, rfl⟩
    have he := h.eq
    rw [bytes_append, List.append_assoc, hb] at he
    have hlen := congrArg List.length he
    rw [List.length_append, List.length_append] at hlen
    exact List.eq_nil_of_length_eq_zero (by omega)

/-- A stream has one division. -/
theorem longest_unique {b : List α} {fs gs : List (β × List α)} {r s : List α}
    (hf : Longest Frame b fs r) (hg : Longest Frame b gs s) : fs = gs ∧ r = s := by
  have h1 := hc.le_longest hf hg.valid hg.eq
  have h2 := hc.le_longest hg hf.valid hf.eq
  have he : fs = gs := (h2.eq_of_length_le h1.length_le)
  refine ⟨he, ?_⟩
  have hb := hf.eq
  rw [hg.eq, he] at hb
  exact (List.append_cancel_left hb).symm

end Code

/-! ## Scanning -/

/-- What a scanner has done once it has taken the frames `fs` from position `off` on. -/
def foldAt (act : σ → Nat → β → List α → σ) : σ → Nat → List (β × List α) → σ
  | s, _, [] => s
  | s, off, p :: fs => foldAt act (act s off p.1 p.2) (off + p.2.length) fs

/-- An action that does not look at positions folds over the frames. -/
theorem foldAt_eq_foldl (act : σ → β → List α → σ) (s : σ) (off : Nat)
    (fs : List (β × List α)) :
    foldAt (fun s _ x f => act s x f) s off fs = fs.foldl (fun s p => act s p.1 p.2) s := by
  induction fs generalizing s off with
  | nil => rfl
  | cons p fs ih => exact ih _ _

/-- **The scanning rule**: a loop that takes a frame where one stands reaches the end of the
division with every frame acted on, in order and at its own position. -/
theorem scan (loop : Nat → σ → ρ) (act : σ → Nat → β → List α → σ) {buf : List α}
    (step : ∀ off s x f, Frame x f → f <+: buf.drop off →
      loop off s = loop (off + f.length) (act s off x f))
    {fs : List (β × List α)} (hv : Valid Frame fs) :
    ∀ off s, bytes fs <+: buf.drop off →
      loop off s = loop (off + (bytes fs).length) (foldAt act s off fs) := by
  induction fs with
  | nil => intro off s _; rfl
  | cons p fs ih =>
      intro off s hp
      rcases valid_cons.mp hv with ⟨hf, hfs⟩
      rcases hp with ⟨r, hr⟩
      rw [bytes_cons, List.append_assoc] at hr
      have hrest : buf.drop (off + p.2.length) = bytes fs ++ r := by
        rw [← List.drop_drop, ← hr, List.drop_left]
      rw [step off s p.1 p.2 hf ⟨_, hr⟩, ih hfs _ _ ⟨r, hrest.symm⟩, bytes_cons,
        List.length_append, Nat.add_assoc]
      rfl

end

end Framing
