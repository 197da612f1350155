import Mog.Book.Audit
import Mog.Sim.Exact
import Mog.Sim.Pipeline

/-!
# The audit

`audit` re-derives every queue position and then checks the book, the scheduler and the
trackers. It is asked in the middle of runs, and what it re-derives stays.

The audit recomputes positions, which is a change of the state: it makes every position exact
and says so. Its checks of book and scheduler follow from their invariants, those of the
trackers from the mirror. So an audit may be asked at any point of a run without disturbing what
follows.
-/

namespace Mog

open TrackTable

namespace ExecutionSimulator

variable {k : Nat} {cfg : SimConfig} (sim : ExecutionSimulator k)

/-- `verify_one`: a live tracker has its order's remainder, and a position. -/
def VerifyOne (i : Nat) : Prop :=
  (sim.track.tracked i).live = true →
    sim.book.remainingOf (sim.track.tracked i).ref = (sim.track.tracked i).qtyRemaining
      ∧ 0 ≤ (sim.track.tracked i).qtyAhead

instance (i : Nat) : Decidable (sim.VerifyOne i) := inferInstanceAs (Decidable (_ → _))

/-- `check_conservation`, over the slots that the index of live trackers lists. -/
def checkConservation (listed : List Nat) : Bool := listed.all (fun i => sim.VerifyOne i)

/-- `audit`; it works on the positions it has re-derived, and leaves them behind. -/
def audit (listed : List Nat) : Bool × ExecutionSimulator k :=
  let sim := sim.recomputeAllTracked
  (sim.book.audit && sim.wheel.audit && sim.checkConservation listed, sim)

variable {sim}

/-- The states of a run of legal calls with audits in between. -/
inductive Audited (cfg : SimConfig) : ExecutionSimulator k → Prop where
  | init : Audited cfg (init cfg)
  | call {sim : ExecutionSimulator k} (h : Audited cfg sim) (c : SimCall)
      (hl : c.Legal cfg.externalRefLimit) : Audited cfg (sim.call cfg c)
  | audit {sim : ExecutionSimulator k} (h : Audited cfg sim) (listed : List Nat) :
      Audited cfg (sim.audit listed).2

theorem Reaches.audited {ok : ExecutionSimulator k → SimCall → Prop} (h : Reaches cfg ok sim) :
    Audited cfg sim := by
  induction h with
  | init => exact .init
  | step _ c hl _ ih => exact ih.call c hl

/-- The exact-walk twin keeps the invariant and makes the positions exact. -/
theorem recomputed (h : SimInv cfg sim) :
    SimInv cfg sim.recomputeAllTracked ∧ Exact sim.recomputeAllTracked.book
      sim.recomputeAllTracked.track := by
  obtain ⟨off, hoff⟩ := exists_off sim.book sim.track
  have hr := recomputeAll_spec h.mirror h.book hoff
  exact ⟨h.repositioned hr, hr.off⟩

theorem Audited.inv (hc : OrderBook.ConfigOk k cfg.book) (hpos : 0 < cfg.eventCapacity)
    (hcap : cfg.eventCapacity ≤ 2 ^ 31) (h : Audited cfg sim) :
    SimInv cfg sim ∧ ∃ p, Follows cfg sim p := by
  induction h with
  | init => exact ⟨init_simInv hc, _, .start hpos hcap⟩
  | call _ c hl ih =>
      obtain ⟨hinv, p, hp⟩ := ih
      exact ⟨call_inv hinv hl, hp.next c⟩
  | audit _ listed ih =>
      obtain ⟨hinv, p, hp⟩ := ih
      exact ⟨(recomputed hinv).1, p, hp.still rfl rfl⟩

/-- Exact positions pass the check of conservation, whatever it is asked of. -/
theorem verifyOne_of_exact (h : SimInv cfg sim) (hex : Exact sim.book sim.track) (i : Nat) :
    sim.VerifyOne i := by
  intro hi
  obtain ⟨v, hv⟩ := Option.ne_none_iff_exists'.mp ((live_iff i).mp hi)
  obtain ⟨hown, hrec⟩ := h.mirror.record_of_some hv
  have hview := (at?_eq_some.mp hv).2
  have href : (sim.track.tracked i).ref = (sim.book.order i).orderRef :=
    congrArg TrackView.ref (hview.trans hrec)
  have hrem : (sim.track.tracked i).qtyRemaining = sim.book.rem i :=
    congrArg TrackView.qtyRemaining (hview.trans hrec)
  have hahead : (sim.track.tracked i).qtyAhead = v.qtyAhead := congrArg TrackView.qtyAhead hview
  have hexact := hex i v hv
  rw [href, hrem, hahead, hexact, h.book.remainingOf_live hown.1, Int.add_zero]
  exact ⟨rfl, h.book.ahead_nonneg i⟩

/-- Two bids of the strategy, of which the first is replaced at its own price. -/
def requeued : List SimCall :=
  [.submit { ref := 100, qty := 5, price := 3 } 0, .decideNext,
    .submit { ref := 101, qty := 5, price := 3 } 0, .decideNext, .replaceStrategy 100 100 5 3]

end ExecutionSimulator

end Mog
