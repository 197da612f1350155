import Mog.Ouch.OrderTable
import Mog.Ouch.Session
import Mog.Ouch.Tokens

/-!
# Do tokens identify orders?

The gateway names an order by the number that its token spells, and prints that number on
the frames. Two tokens that spell the same number share their order, and a token that is
not its number printed is not seen again. The table of stored terms is written before the
simulator decides whether an order is a duplicate.

The sessions for which the answer is yes are described call by call. What carries the
proof is small: the tokens so far are digits, which makes the number and the token two
spellings of one name; the records of replacements hold tokens that were sent; and the
table has room, so that what is stored under a name is what was stored last.
-/

namespace Mog

namespace Ouch

open ExecutionSimulator

/-- What is stored of an order besides its token. -/
structure Terms where
  shares : UInt32
  priceTicks : Int
  side : Option Side
  stock : Symbol
deriving DecidableEq

def OrderMeta.terms (m : OrderMeta) : Terms :=
  { shares := m.shares, priceTicks := m.priceTicks, side := m.side, stock := m.stock }

def EnterOrderWire.terms (wire : EnterOrderWire) : Terms :=
  { shares := wire.shares, priceTicks := wire.price.toNat
    side := Wire.sideFromWire wire.buySell, stock := wire.stock }

namespace OutboundFrame

/-- The tokens a frame carries. -/
def tokens : OutboundFrame → List Token
  | accepted _ token _ _ _ _ _ => [token]
  | replaced _ token _ _ _ _ _ previous => [token, previous]
  | executed _ token _ _ _ => [token]
  | cancelled _ token _ => [token]
  | aiqCancelled _ token _ _ => [token]
  | rejected _ token => [token]

end OutboundFrame

/-- The tokens by which a message enters or replaces an order. -/
def GatewayCall.tokens : GatewayCall → List Token
  | .enter wire _ => [wire.orderToken]
  | .replace wire _ => [wire.existingOrderToken, wire.replacementOrderToken]
  | _ => []

namespace OuchGateway

variable {k : Nat}

/-- The orders that the frames of a drain are about, each with the token it goes by there. A frame
about a replacement is about the order it replaces, too. -/
def named (g : OuchGateway k) : List (Nat × Token) :=
  (g.sim.log.decisions.drop g.lastDecisionIdx).map (fun d => (d.ref, tokenFromId d.ref))
    ++ (g.replacedEvents.drop g.lastReplacedIdx).flatMap (fun e =>
      [(e.ref, e.replacementToken), (idFromToken e.previousToken, e.previousToken)])
    ++ (g.sim.log.reports.drop g.lastReportIdx).map (fun r => (r.ref, tokenFromId r.ref))

/-- An order of this name rests, or is on its way to the market. -/
def Working (g : OuchGateway k) (ref : Nat) : Prop :=
  (g.sim.book.findHandle ref).index ≠ kNullIndex ∨ ¬ g.sim.wheel.Holds fun ev => ev.order.ref ≠ ref

/-- **Tokens identify orders**, as far as one call of a session can tell. -/
structure Identifies (cfg : SimConfig) (past : List GatewayCall) (g : OuchGateway k)
    (c : GatewayCall) : Prop where
  /-- Different tokens act on different orders. -/
  distinct : ∀ t ∈ (past ++ [c]).flatMap GatewayCall.tokens,
    ∀ t' ∈ (past ++ [c]).flatMap GatewayCall.tokens, idFromToken t = idFromToken t' → t = t'
  /-- The tokens on the frames of a drain are those of `named`, one for one. -/
  frames : c = .drain → (g.call cfg c).1.flatMap OutboundFrame.tokens = g.named.map Prod.snd
  /-- A frame carries the token under which its order has been entered or replaced. -/
  named : c = .drain → ∀ p ∈ g.named, ∀ t ∈ past.flatMap GatewayCall.tokens,
    idFromToken t = p.1 → p.2 = t
  /-- An order whose name is taken leaves the stored terms. -/
  kept : ∀ wire ts, c = .enter wire ts → g.Working (idFromToken wire.orderToken) →
    ∀ m, g.orders.find (idFromToken wire.orderToken) = some m →
      ∃ m', (g.call cfg c).2.orders.find (idFromToken wire.orderToken) = some m'
        ∧ m'.terms = m.terms

/-- `P` holds of each call of a session, where it is made. -/
def AlongPast (cfg : SimConfig) (P : List GatewayCall → OuchGateway k → GatewayCall → Prop) :
    List GatewayCall → List GatewayCall → OuchGateway k → Prop
  | _, [], _ => True
  | past, c :: cs, g => P past g c ∧ AlongPast cfg P (past ++ [c]) cs (g.call cfg c).2

/-- A message as a careful client sends it. -/
structure Proper (g : OuchGateway k) (c : GatewayCall) : Prop where
  /-- Tokens are fourteen digits. -/
  digits : ∀ t ∈ c.tokens, Digits t
  /-- An order is to buy or to sell. -/
  sided : ∀ wire ts, c = .enter wire ts → (Wire.sideFromWire wire.buySell).isSome
  /-- An order under a name that is in use has the stored terms. -/
  repeats : ∀ wire ts, c = .enter wire ts → g.Working (idFromToken wire.orderToken) →
    ∀ m, g.orders.find (idFromToken wire.orderToken) = some m → wire.terms = m.terms

variable {cfg : SimConfig} {g : OuchGateway k}

theorem named_frames (g : OuchGateway k) :
    g.drainOutboundStream.1.flatMap OutboundFrame.tokens = g.named.map Prod.snd := by
  have hdecision : ∀ d, (g.decisionFrame d).tokens = [tokenFromId d.ref] := by
    intro d
    unfold decisionFrame
    dsimp only
    cases d.kind <;> rfl
  unfold named drainOutboundStream
  simp only [List.map_append, List.flatMap_append, List.map_map, List.flatMap_map, List.map_flatMap,
    hdecision]
  rw [List.map_eq_flatMap, List.map_eq_flatMap]
  rfl

/-- What holds of a gateway between the calls of a session. -/
structure Named (past : List GatewayCall) (g : OuchGateway k) : Prop where
  digits : ∀ t ∈ past.flatMap GatewayCall.tokens, Digits t
  replaced : ∀ e ∈ g.replacedEvents, Digits e.replacementToken ∧ Digits e.previousToken
    ∧ e.ref = idFromToken e.replacementToken
  roomy : g.orders.Roomy

theorem named_attach (cfg : SimConfig) (symbol : Symbol) :
    Named [] (attach cfg symbol : OuchGateway k) where
  digits _ ht := absurd ht List.not_mem_nil
  replaced _ he := absurd he List.not_mem_nil
  roomy := FlatOrderTable.roomy_init

theorem Named.digits_call {past : List GatewayCall} (h : Named past g) {c : GatewayCall}
    (hc : ∀ t ∈ c.tokens, Digits t) :
    ∀ t ∈ (past ++ [c]).flatMap GatewayCall.tokens, Digits t := by
  intro t ht
  rw [List.flatMap_append] at ht
  rcases List.mem_append.mp ht with ht | ht
  · exact h.digits t ht
  · rw [List.flatMap_singleton] at ht
    exact hc t ht

/-- **A call keeps** what holds between the calls of a session. -/
theorem Named.call {past : List GatewayCall} (h : Named past g) {c : GatewayCall}
    (hc : ∀ t ∈ c.tokens, Digits t) : Named (past ++ [c]) (g.call cfg c).2 := by
  have hdigits := h.digits_call hc
  cases c with
  | enter wire arrivalTs =>
      exact ⟨hdigits, h.replaced, (FlatOrderTable.insertOrAssign_spec h.roomy _ _).1⟩
  | replace wire arrivalTs =>
      have hold : Digits wire.existingOrderToken := hc _ List.mem_cons_self
      have hnew : Digits wire.replacementOrderToken :=
        hc _ (List.mem_cons_of_mem _ (List.mem_singleton_self _))
      show Named _ (g.submitReplace wire arrivalTs).2
      unfold submitReplace
      dsimp only
      split
      · exact ⟨hdigits, h.replaced, h.roomy⟩
      · refine ⟨hdigits, fun e he => ?_, (FlatOrderTable.insertOrAssign_spec h.roomy _ _).1⟩
        rcases List.mem_append.mp he with he | he
        · exact h.replaced e he
        · rw [List.mem_singleton.mp he]
          exact ⟨hnew, hold, rfl⟩
  | cancel wire => exact ⟨hdigits, h.replaced, h.roomy⟩
  | simulator c => exact ⟨hdigits, h.replaced, h.roomy⟩
  | drain => exact ⟨hdigits, h.replaced, h.roomy⟩
  | clearReports => exact ⟨hdigits, h.replaced, h.roomy⟩
  | clearEvents => exact ⟨hdigits, h.replaced, h.roomy⟩

/-- Tokens of digits are told apart by their numbers. -/
theorem digits_injective {t t' : Token} (ht : Digits t) (ht' : Digits t')
    (h : idFromToken t = idFromToken t') : t = t' := by
  rw [← tokenFromId_idFromToken ht, h, tokenFromId_idFromToken ht']

/-- **A proper call** identifies orders by their tokens. -/
theorem Named.identifies {past : List GatewayCall} (h : Named past g) {c : GatewayCall}
    (hc : Proper g c) : Identifies cfg past g c where
  distinct t ht t' ht' heq :=
    digits_injective (h.digits_call hc.digits t ht) (h.digits_call hc.digits t' ht') heq
  frames hcall := by
    subst hcall
    exact named_frames g
  named _ p hp t ht hid := by
    have hdigits := h.digits t ht
    unfold OuchGateway.named at hp
    rcases List.mem_append.mp hp with hp | hp
    · rcases List.mem_append.mp hp with hp | hp
      · obtain ⟨d, -, rfl⟩ := List.mem_map.mp hp
        have hid : idFromToken t = d.ref := hid
        show tokenFromId d.ref = t
        rw [← hid]
        exact tokenFromId_idFromToken hdigits
      · obtain ⟨e, he, hpe⟩ := List.mem_flatMap.mp hp
        obtain ⟨hnew, hold, href⟩ := h.replaced e (List.mem_of_mem_drop he)
        rcases List.mem_cons.mp hpe with rfl | hpe
        · exact digits_injective hnew hdigits (href.symm.trans hid.symm)
        · rw [List.mem_singleton.mp hpe] at hid ⊢
          exact digits_injective hold hdigits hid.symm
    · obtain ⟨r, -, rfl⟩ := List.mem_map.mp hp
      have hid : idFromToken t = r.ref := hid
      show tokenFromId r.ref = t
      rw [← hid]
      exact tokenFromId_idFromToken hdigits
  kept wire ts hcall hworking m hm := by
    subst hcall
    have hterms := hc.repeats wire ts rfl hworking m hm
    have hne : idFromToken wire.orderToken ≠ 0 := by
      intro hzero
      rw [hzero] at hm
      cases hm
    have hstored := fun m' => (FlatOrderTable.insertOrAssign_spec h.roomy
      (idFromToken wire.orderToken) m').2 hne
    exact ⟨_, hstored _, hterms⟩

theorem Named.along {past cs : List GatewayCall} (h : Named past g)
    (hcs : AlongPast cfg (fun _ => Proper) past cs g) :
    AlongPast cfg (Identifies cfg) past cs g := by
  induction cs generalizing past g with
  | nil => trivial
  | cons c cs ih => exact ⟨h.identifies hcs.1, ih (h.call hcs.1.digits) hcs.2⟩

/--
**When tokens identify orders.**

In every session whose Enter and Replace messages carry tokens of fourteen digits, whose
Enter messages say `B` or `S`, and in which an Enter under a name that is in use repeats
the stored terms, different tokens act on different orders, every frame carries the token
under which its order has been entered or replaced, and no Enter under a name in use
touches the stored terms.
-/
theorem tokens_identify_run (cfg : SimConfig) (symbol : Symbol) (cs : List GatewayCall)
    (h : AlongPast cfg (fun _ => Proper) [] cs (attach cfg symbol : OuchGateway k)) :
    AlongPast cfg (Identifies cfg) [] cs (attach cfg symbol : OuchGateway k) :=
  (named_attach cfg symbol).along h

/-- The request to replace order 100 by order 102, of six at 4. -/
def moveBid : ReplaceOrderWire :=
  { existingOrderToken := tokenFromId 100, replacementOrderToken := tokenFromId 102, shares := 6
    price := 4 }

/-- A bid of five at 3 is entered, decided, entered once more and replaced. -/
theorem tokens_identify_run_bid :
    AlongPast deskConfig (Identifies deskConfig) []
      [.enter (enterBid 100) 0, .simulator .decideNext, .enter (enterBid 100) 1,
        .replace moveBid 2, .simulator .decideNext, .drain]
      (attach deskConfig (.replicate 8 32) : OuchGateway 4) := by
  have hquiet : ∀ (g : OuchGateway 4) (c : GatewayCall), c.tokens = [] →
      (∀ wire ts, c ≠ .enter wire ts) → Proper g c := fun g c htokens hc =>
    ⟨fun t ht => absurd (htokens ▸ ht) List.not_mem_nil, fun wire ts h => absurd h (hc wire ts),
      fun wire ts h => absurd h (hc wire ts)⟩
  have henter : ∀ (g : OuchGateway 4) (ts : Nat),
      (∀ m, g.orders.find (idFromToken (enterBid 100).orderToken) = some m →
        (enterBid 100).terms = m.terms) → Proper g (.enter (enterBid 100) ts) := by
    intro g ts hm
    refine ⟨List.forall_mem_singleton.mpr (digits_tokenFromId 100), fun wire _ h => ?_,
      fun wire _ h _ => ?_⟩
    · cases h
      rfl
    · cases h
      exact hm
  refine tokens_identify_run deskConfig _ _ ⟨henter _ _ fun m hm => ?_, hquiet _ _ rfl nofun,
    henter _ _ fun m hm => ?_, ⟨fun t ht => ?_, nofun, nofun⟩, hquiet _ _ rfl nofun,
    hquiet _ _ rfl nofun, trivial⟩
  · -- nothing is stored yet
    have hnone : (attach deskConfig (.replicate 8 32) : OuchGateway 4).orders.find
        (idFromToken (enterBid 100).orderToken) = none := by decide +kernel
    rw [hnone] at hm
    cases hm
  · -- the order rests, and its terms are stored
    generalize hg : (OuchGateway.call _ deskConfig (.simulator .decideNext)).2 = g at hm
    have hstored : (g.orders.find (idFromToken (enterBid 100).orderToken)).map OrderMeta.terms
        = some (enterBid 100).terms := by
      rw [← hg]
      decide +kernel
    rw [hm] at hstored
    exact (Option.some.inj hstored).symm
  · rcases List.mem_cons.mp ht with rfl | ht
    · exact digits_tokenFromId 100
    · rw [List.mem_singleton.mp ht]
      exact digits_tokenFromId 102

/-- The bid again, under a token that spells the same number behind three letters. -/
def enterLettered : EnterOrderWire :=
  { enterBid 100 with orderToken := #v[65, 66, 67, 48, 48, 48, 48, 48, 48, 48, 48, 49, 48, 48] }

/-- The bid again, of seven. -/
def enterSeven : EnterOrderWire := { enterBid 100 with shares := 7 }

/-- **Letters are lost, and a duplicate overwrites.** The frame that accepts the lettered order
carries fourteen digits; and a second order under the name of a resting one replaces its stored
shares. -/
theorem letters_lost :
    ¬ AlongPast deskConfig (Identifies deskConfig) []
        [.enter enterLettered 0, .simulator .decideNext, .drain]
        (attach deskConfig (.replicate 8 32) : OuchGateway 4)
      ∧ ¬ AlongPast deskConfig (Identifies deskConfig) []
        [.enter (enterBid 100) 0, .simulator .decideNext, .enter enterSeven 1]
        (attach deskConfig (.replicate 8 32) : OuchGateway 4) := by
  constructor
  · rintro ⟨-, -, hdrain, -⟩
    have htoken := hdrain.named rfl (100, tokenFromId 100) (by decide +kernel)
      enterLettered.orderToken (by decide +kernel) (by decide +kernel)
    revert htoken
    decide +kernel
  · rintro ⟨-, -, henter, -⟩
    generalize hg : (OuchGateway.call _ deskConfig (.simulator .decideNext)).2 = g at henter
    have hstored : (g.orders.find 100).map OrderMeta.terms = some (enterBid 100).terms := by
      rw [← hg]
      decide +kernel
    have hresting : (g.sim.book.findHandle 100).index ≠ kNullIndex := by
      rw [← hg]
      decide +kernel
    have hafter : ((g.call deskConfig (.enter enterSeven 1)).2.orders.find 100).map OrderMeta.terms
        = some enterSeven.terms := by
      rw [← hg]
      decide +kernel
    have hname : idFromToken enterSeven.orderToken = 100 := by decide +kernel
    cases hm : g.orders.find 100 with
    | none =>
        rw [hm] at hstored
        cases hstored
    | some m =>
        have hkept := henter.kept enterSeven 1 rfl
        rw [hname] at hkept
        obtain ⟨m', hm', hterms⟩ := hkept (Or.inl hresting) m hm
        rw [hm] at hstored
        rw [hm'] at hafter
        have hbefore : m.terms = (enterBid 100).terms := Option.some.inj hstored
        have hnow : m'.terms = enterSeven.terms := Option.some.inj hafter
        rw [hbefore, hnow] at hterms
        exact absurd hterms (by decide)

end OuchGateway

end Ouch

end Mog
