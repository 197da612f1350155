import Mog.Replay.Halts
import Mog.SimRun.Script
import Mathlib.Data.List.Perm.Subperm
import Mathlib.Data.List.Dedup

/-!
# The trade diff

A reconstruction is compared with a reference file row by row. The reader keeps the price
and the shares of a row under its match number, the shares in 32 bits; a second row with
the same number replaces the first, and the timestamp is checked and dropped. The verdict
is therefore about what was kept, and this file says when it is about the files.

Three descriptions of a comparison are related. The loop walks one table and looks each number
up in the other; its report is a statement about two maps; and the maps keep the last row of
each number. The table is walked in an order that nobody fixes, so the verdict is asked to hold
for all of them.
-/

namespace Mog

/-! ## Maps with one binding for each key -/

namespace Session

def Keyed {α : Type} (l : List (Nat × α)) : Prop := (l.map Prod.fst).Nodup

theorem Keyed.nil {α : Type} : Keyed ([] : List (Nat × α)) := List.nodup_nil

theorem Keyed.assign {α : Type} {l : List (Nat × α)} (h : Keyed l) (key : Nat) (value : α) :
    Keyed (assign l key value) := by
  unfold Keyed Session.assign
  rw [List.map_cons, List.nodup_cons]
  constructor
  · intro hmem
    obtain ⟨p, hp, hkey⟩ := List.mem_map.mp hmem
    exact absurd hkey (of_decide_eq_true (List.mem_filter.mp hp).2)
  · exact List.Nodup.sublist (List.filter_sublist.map _) h

theorem find_cons {α : Type} (p : Nat × α) (l : List (Nat × α)) (m : Nat) :
    find (p :: l) m = if p.1 = m then some p.2 else find l m := by
  unfold find
  by_cases hp : p.1 = m
  · rw [if_pos hp, List.find?_cons_of_pos (by simpa using hp)]
    rfl
  · rw [if_neg hp, List.find?_cons_of_neg (by simpa using hp)]

theorem Keyed.mem_iff {α : Type} {l : List (Nat × α)} (h : Keyed l) {m : Nat} {x : α} :
    (m, x) ∈ l ↔ find l m = some x := by
  induction l with
  | nil =>
      exact ⟨fun hmem => absurd hmem List.not_mem_nil,
        fun hf => absurd hf.symm (Option.some_ne_none x)⟩
  | cons p l ih =>
      obtain ⟨hfresh, hl⟩ := List.nodup_cons.mp h
      rw [find_cons, List.mem_cons, ih hl]
      by_cases hp : p.1 = m
      · subst hp
        rw [if_pos rfl]
        constructor
        · rintro (heq | hf)
          · rw [← heq]
          · exact absurd (List.mem_map_of_mem ((ih hl).mpr hf)) hfresh
        · intro heq
          exact Or.inl (Prod.ext rfl (Option.some.inj heq).symm)
      · rw [if_neg hp]
        refine ⟨fun hor => hor.resolve_left fun heq => hp ?_, Or.inr⟩
        rw [← heq]

theorem Keyed.nodup {α : Type} {l : List (Nat × α)} (h : Keyed l) : l.Nodup := List.Nodup.of_map _ h

/-- Two maps with the same bindings answer alike. -/
theorem Keyed.perm_iff {α : Type} {a b : List (Nat × α)} (ha : Keyed a) (hb : Keyed b) :
    a.Perm b ↔ ∀ m, find a m = find b m := by
  rw [List.perm_ext_iff_of_nodup ha.nodup hb.nodup]
  constructor
  · intro h m
    refine Option.ext fun x => ?_
    rw [← ha.mem_iff, ← hb.mem_iff]
    exact h (m, x)
  · rintro h ⟨m, x⟩
    rw [ha.mem_iff, hb.mem_iff, h m]

end Session

namespace Trades

open Session

/-! ## The reader -/

/-- A row as a file writes it. -/
structure FileRow where
  matchNumber : Nat
  tsNs : Nat
  priceTicks : Nat
  shares : Nat
deriving DecidableEq, Repr

/-- The price and the shares of each match number. -/
structure ParsedCsv where
  rows : List (Nat × Int × Nat) := []
deriving DecidableEq, Repr

/-- `std::from_chars` into 64 bits: the number in front and what follows it. -/
def fromChars (field : List Char) : Option (Nat × List Char) :=
  let digits := field.takeWhile Char.isDigit
  let val := Nat.ofDigitChars 10 digits 0
  if digits = [] ∨ 2 ^ 64 ≤ val then none else some (val, field.dropWhile Char.isDigit)

/-- The numbers before the first `f` commas of a line. -/
def parseNums : Nat → List Char → Option (List Nat)
  | 0, _ => some []
  | f + 1, line =>
      if ',' ∈ line then
        match fromChars (line.takeWhile (· ≠ ',')) with
        | some (num, []) => (parseNums f (line.dropWhile (· ≠ ',')).tail).map (num :: ·)
        | _ => none
      else none

/-- Fields: match, locate, ts, price, shares; the trailing ones are not validated. -/
def fileRow (line : List Char) : Option FileRow :=
  match parseNums 5 line with
  | some [matchNumber, _, tsNs, priceTicks, shares] => some { matchNumber, tsNs, priceTicks, shares }
  | _ => none

/-- What the reader keeps of a row. -/
def FileRow.entry (row : FileRow) : Int × Nat := (toI64 row.priceTicks, toU32 row.shares)

def ParsedCsv.add (out : ParsedCsv) (row : FileRow) : ParsedCsv :=
  { rows := assign out.rows row.matchNumber row.entry }

def csvHeader : List Char :=
  "match_number,locate,ts_ns,price_ticks,shares,printable,with_price".toList

def parseCanonicalCsv (text : List Char) (out : ParsedCsv) : Option ParsedCsv :=
  match SimRun.lines text with
  | [] => none
  | header :: rows =>
      if header = csvHeader then rows.foldlM (fun out line => (fileRow line).map out.add) out
      else none

/-! ## The comparison -/

structure DiffRow where
  matchNumber : Nat := 0
  oursPrice : Int := 0
  refPrice : Int := 0
  oursShares : Nat := 0
  refShares : Nat := 0
deriving DecidableEq, Repr

structure DiffReport where
  rowsOurs : Nat := 0
  rowsRef : Nat := 0
  matched : Nat := 0
  priceMismatch : Nat := 0
  sharesMismatch : Nat := 0
  firstDivergence : DiffRow := {}
  hasDivergence : Bool := false
deriving DecidableEq, Repr

def DiffReport.Clean (r : DiffReport) : Prop :=
  r.rowsOurs = r.rowsRef ∧ r.rowsRef = r.matched ∧ r.priceMismatch = 0 ∧ r.sharesMismatch = 0

instance (r : DiffReport) : Decidable r.Clean := inferInstanceAs (Decidable (_ ∧ _ ∧ _ ∧ _))

/-- The body of the loop, at one binding of ours. -/
def DiffReport.visit (ref : ParsedCsv) (r : DiffReport) (e : Nat × Int × Nat) : DiffReport :=
  match find ref.rows e.1 with
  | none => r
  | some (price, shares) =>
      let r : DiffReport :=
        { r with
          matched := r.matched + 1
          priceMismatch := if e.2.1 = price then r.priceMismatch else r.priceMismatch + 1
          sharesMismatch := if e.2.2 = shares then r.sharesMismatch else r.sharesMismatch + 1 }
      if (e.2.1 ≠ price ∨ e.2.2 ≠ shares) ∧ r.hasDivergence = false then
        { r with
          hasDivergence := true
          firstDivergence :=
            { matchNumber := e.1, oursPrice := e.2.1, refPrice := price
              oursShares := e.2.2, refShares := shares } }
      else r

/-- `diff`, with the order in which the hash table of ours happens to be walked. -/
def diff (order : List (Nat × Int × Nat)) (ours ref : ParsedCsv) : DiffReport :=
  order.foldl (DiffReport.visit ref) { rowsOurs := ours.rows.length, rowsRef := ref.rows.length }

/-! ## What the loop finds -/

/-- The reference has the match number of this binding. -/
def Known (ref : ParsedCsv) (e : Nat × Int × Nat) : Prop := find ref.rows e.1 ≠ none

instance (ref : ParsedCsv) (e : Nat × Int × Nat) : Decidable (Known ref e) :=
  inferInstanceAs (Decidable (_ ≠ _))

/-- The reference has the match number with another price or other shares. -/
def Diverges (ref : ParsedCsv) (e : Nat × Int × Nat) : Prop :=
  Known ref e ∧ find ref.rows e.1 ≠ some e.2

instance (ref : ParsedCsv) (e : Nat × Int × Nat) : Decidable (Diverges ref e) :=
  inferInstanceAs (Decidable (_ ∧ _))

/-- What a report says after some bindings of ours have been walked. -/
structure Walked (ours ref : ParsedCsv) (seen : List (Nat × Int × Nat)) (r : DiffReport) : Prop where
  rowsOurs : r.rowsOurs = ours.rows.length
  rowsRef : r.rowsRef = ref.rows.length
  matched : r.matched = seen.countP fun e => Known ref e
  mismatch : r.priceMismatch = 0 ∧ r.sharesMismatch = 0 ↔ ∀ e ∈ seen, ¬ Diverges ref e
  has : r.hasDivergence = true ↔ ∃ e ∈ seen, Diverges ref e
  first : ∀ e, (seen.find? fun e => Diverges ref e) = some e → r.firstDivergence.matchNumber = e.1

section
variable {ours ref : ParsedCsv} {seen : List (Nat × Int × Nat)} {r : DiffReport}

theorem visit_unknown {e : Nat × Int × Nat} (h : ¬ Known ref e) : r.visit ref e = r := by
  unfold DiffReport.visit
  rw [of_not_not h]

/-- A binding that the reference agrees with is counted, and that is all. -/
theorem visit_agreed {e : Nat × Int × Nat} (h : find ref.rows e.1 = some e.2) :
    r.visit ref e = { r with matched := r.matched + 1 } := by
  unfold DiffReport.visit
  rw [h]
  dsimp only
  rw [if_pos rfl, if_pos rfl, if_neg]
  rintro ⟨hne | hne, -⟩ <;> exact hne rfl

/-- A binding that the reference does not agree with is a mismatch, and the first of these
is the divergence that the report names. -/
theorem visit_diverges {e : Nat × Int × Nat} (h : Diverges ref e) :
    (r.visit ref e).rowsOurs = r.rowsOurs ∧ (r.visit ref e).rowsRef = r.rowsRef ∧
      (r.visit ref e).matched = r.matched + 1 ∧
      ¬ ((r.visit ref e).priceMismatch = 0 ∧ (r.visit ref e).sharesMismatch = 0) ∧
      (r.visit ref e).hasDivergence = true ∧
      (r.visit ref e).firstDivergence.matchNumber =
        if r.hasDivergence = true then r.firstDivergence.matchNumber else e.1 := by
  obtain ⟨hknown, hne⟩ := h
  obtain ⟨⟨price, shares⟩, hfind⟩ := Option.ne_none_iff_exists'.mp hknown
  have hapart : e.2.1 ≠ price ∨ e.2.2 ≠ shares := by
    by_contra hboth
    rw [not_or, not_not, not_not] at hboth
    refine hne ?_
    rw [hfind, ← hboth.1, ← hboth.2]
  unfold DiffReport.visit
  rw [hfind]
  dsimp only
  have hmismatch : ¬ ((if e.2.1 = price then r.priceMismatch else r.priceMismatch + 1) = 0 ∧
      (if e.2.2 = shares then r.sharesMismatch else r.sharesMismatch + 1) = 0) := by
    rintro ⟨hp, hs⟩
    rcases hapart with h | h
    · rw [if_neg h] at hp
      exact absurd hp (Nat.succ_ne_zero _)
    · rw [if_neg h] at hs
      exact absurd hs (Nat.succ_ne_zero _)
  by_cases hhas : r.hasDivergence = true
  · rw [if_neg (fun hc => by rw [hhas] at hc; exact absurd hc.2 (by decide)), if_pos hhas]
    exact ⟨rfl, rfl, rfl, hmismatch, hhas, rfl⟩
  · rw [if_pos ⟨hapart, Bool.eq_false_of_not_eq_true hhas⟩, if_neg hhas]
    exact ⟨rfl, rfl, rfl, hmismatch, rfl, rfl⟩

theorem Walked.start :
    Walked ours ref [] { rowsOurs := ours.rows.length, rowsRef := ref.rows.length } where
  rowsOurs := rfl
  rowsRef := rfl
  matched := rfl
  mismatch := ⟨fun _ _ h => absurd h List.not_mem_nil, fun _ => ⟨rfl, rfl⟩⟩
  has := ⟨fun h => absurd h Bool.false_ne_true, fun ⟨_, h, _⟩ => absurd h List.not_mem_nil⟩
  first := fun _ h => absurd h.symm (Option.some_ne_none _)

theorem exists_mem_append {P : Nat × Int × Nat → Prop} {e : Nat × Int × Nat} :
    (∃ x ∈ seen ++ [e], P x) ↔ (∃ x ∈ seen, P x) ∨ P e := by
  constructor
  · rintro ⟨x, hx, hP⟩
    rcases List.mem_append.mp hx with h | h
    · exact Or.inl ⟨x, h, hP⟩
    · exact Or.inr (List.mem_singleton.mp h ▸ hP)
  · rintro (⟨x, hx, hP⟩ | hP)
    · exact ⟨x, List.mem_append_left _ hx, hP⟩
    · exact ⟨e, List.mem_append_right _ List.mem_cons_self, hP⟩

/-- The report has a divergence exactly when the walk has met one. -/
theorem Walked.find_none (h : Walked ours ref seen r) :
    r.hasDivergence = false ↔ (seen.find? fun e => Diverges ref e) = none := by
  rw [← Bool.not_eq_true, h.has, List.find?_eq_none]
  constructor
  · exact fun hn x hx hd => hn ⟨x, hx, of_decide_eq_true hd⟩
  · exact fun hn ⟨x, hx, hd⟩ => hn x hx (decide_eq_true hd)

/-- A binding that does not diverge leaves the mismatches and the divergence alone. -/
theorem Walked.quiet (h : Walked ours ref seen r) {e : Nat × Int × Nat} {n : Nat}
    (hn : n = r.matched + if Known ref e then 1 else 0) (hquiet : ¬ Diverges ref e) :
    Walked ours ref (seen ++ [e]) { r with matched := n } where
  rowsOurs := h.rowsOurs
  rowsRef := h.rowsRef
  matched := by
    rw [List.countP_append, ← h.matched, List.countP_singleton]
    simpa using hn
  mismatch := by
    rw [List.forall_mem_append, List.forall_mem_singleton]
    exact h.mismatch.trans ⟨fun hall => ⟨hall, hquiet⟩, And.left⟩
  has := by
    rw [exists_mem_append]
    exact h.has.trans ⟨Or.inl, fun hor => hor.resolve_right hquiet⟩
  first := by
    intro x hx
    rw [List.find?_append, List.find?_cons_of_neg (by simpa using hquiet), List.find?_nil,
      Option.or_none] at hx
    exact h.first x hx

/-- **One more binding of ours.** -/
theorem Walked.visit (h : Walked ours ref seen r) (e : Nat × Int × Nat) :
    Walked ours ref (seen ++ [e]) (r.visit ref e) := by
  by_cases hdiv : Diverges ref e
  · obtain ⟨hours, href, hmatched, hmismatch, hhas, hfirst⟩ := visit_diverges (r := r) hdiv
    refine ⟨hours.trans h.rowsOurs, href.trans h.rowsRef, ?_, ?_, ?_, ?_⟩
    · rw [hmatched, List.countP_append, ← h.matched, List.countP_singleton,
        if_pos (decide_eq_true hdiv.1)]
    · refine ⟨fun hz => absurd hz hmismatch, fun hall => ?_⟩
      exact absurd hdiv (hall e (List.mem_append_right _ List.mem_cons_self))
    · exact ⟨fun _ => exists_mem_append.mpr (Or.inr hdiv), fun _ => hhas⟩
    · intro x hx
      rw [List.find?_append] at hx
      rw [hfirst]
      by_cases hbefore : r.hasDivergence = true
      · rw [if_pos hbefore]
        obtain ⟨y, hy⟩ : ∃ y, (seen.find? fun e => Diverges ref e) = some y := by
          refine Option.ne_none_iff_exists'.mp fun hnone => ?_
          rw [h.find_none.mpr hnone] at hbefore
          exact Bool.false_ne_true hbefore
        rw [hy, Option.some_or] at hx
        rw [← Option.some.inj hx]
        exact h.first y hy
      · rw [if_neg hbefore]
        rw [h.find_none.mp (Bool.eq_false_of_not_eq_true hbefore), Option.none_or,
          List.find?_cons_of_pos (by simpa using hdiv)] at hx
        rw [Option.some.inj hx]
  · by_cases hknown : Known ref e
    · have hagreed : find ref.rows e.1 = some e.2 := not_not.mp fun hne => hdiv ⟨hknown, hne⟩
      rw [visit_agreed hagreed]
      exact h.quiet (by rw [if_pos hknown]) hdiv
    · rw [visit_unknown hknown]
      exact h.quiet (by rw [if_neg hknown, Nat.add_zero]) hdiv

theorem Walked.run (h : Walked ours ref seen r) (es : List (Nat × Int × Nat)) :
    Walked ours ref (seen ++ es) (es.foldl (DiffReport.visit ref) r) := by
  induction es generalizing seen r with
  | nil =>
      rw [List.append_nil]
      exact h
  | cons e es ih =>
      rw [List.append_cons]
      exact ih (h.visit e)

/-- **What a diff says**, in whatever order ours is walked. -/
theorem diff_walked (order : List (Nat × Int × Nat)) : Walked ours ref order (diff order ours ref) :=
  Walked.start.run order

end

/-! ## The verdict on the maps -/

section
variable {ours ref : ParsedCsv} {order : List (Nat × Int × Nat)}

/-- A diff is clean exactly when the two maps are the same. -/
theorem clean_iff_maps (ho : Keyed ours.rows) (hr : Keyed ref.rows) (hp : order.Perm ours.rows) :
    (diff order ours ref).Clean ↔ ∀ m, find ours.rows m = find ref.rows m := by
  have hw : Walked ours ref order (diff order ours ref) := diff_walked order
  unfold DiffReport.Clean
  rw [hw.mismatch, hw.rowsOurs, hw.rowsRef, hw.matched]
  rw [← ho.perm_iff hr]
  constructor
  · rintro ⟨hlen, hcount, hagree⟩
    have hall : ∀ e ∈ order, Known ref e := by
      intro e he
      have hfull : (order.countP fun e => Known ref e) = order.length := by
        rw [← hcount, ← hlen, hp.length_eq]
      exact of_decide_eq_true (List.countP_eq_length.mp hfull e he)
    have hsub : ours.rows ⊆ ref.rows := by
      intro e he
      refine hr.mem_iff.mpr (not_not.mp fun hne => ?_)
      exact hagree e (hp.mem_iff.mpr he) ⟨hall e (hp.mem_iff.mpr he), hne⟩
    exact (ho.nodup.subperm hsub).perm_of_length_le (Nat.le_of_eq hlen.symm)
  · intro hperm
    have hmem : ∀ e ∈ order, find ref.rows e.1 = some e.2 := by
      intro e he
      exact hr.mem_iff.mp (hperm.mem_iff.mp (hp.mem_iff.mp he))
    refine ⟨hperm.length_eq, ?_, fun e he hdiv => hdiv.2 (hmem e he)⟩
    rw [← hperm.length_eq, ← hp.length_eq]
    refine (List.countP_eq_length.mpr fun e he => decide_eq_true ?_).symm
    unfold Known
    rw [hmem e he]
    exact Option.some_ne_none _

/-- A match number that both maps have, with another price or other shares. -/
def MapsApart (ours ref : ParsedCsv) (m : Nat) : Prop :=
  find ours.rows m ≠ none ∧ find ref.rows m ≠ none ∧ find ours.rows m ≠ find ref.rows m

theorem mapsApart_iff (ho : Keyed ours.rows) (hp : order.Perm ours.rows) {m : Nat} :
    MapsApart ours ref m ↔ ∃ e ∈ order, e.1 = m ∧ Diverges ref e := by
  constructor
  · rintro ⟨hours, href, hne⟩
    obtain ⟨x, hx⟩ := Option.ne_none_iff_exists'.mp hours
    refine ⟨(m, x), hp.mem_iff.mpr (ho.mem_iff.mpr hx), rfl, href, fun heq => hne ?_⟩
    rw [hx, heq]
  · rintro ⟨e, he, rfl, hknown, hne⟩
    have hfind : find ours.rows e.1 = some e.2 := ho.mem_iff.mp (hp.mem_iff.mp he)
    refine ⟨?_, hknown, ?_⟩
    · rw [hfind]
      exact Option.some_ne_none _
    · rw [hfind]
      exact fun heq => hne heq.symm

/-- The report has a divergence when the maps differ at a number of both, and names one. -/
theorem diff_divergence (ho : Keyed ours.rows) (hp : order.Perm ours.rows) :
    ((diff order ours ref).hasDivergence = true ↔ ∃ m, MapsApart ours ref m) ∧
      ((diff order ours ref).hasDivergence = true →
        MapsApart ours ref (diff order ours ref).firstDivergence.matchNumber) := by
  have hw : Walked ours ref order (diff order ours ref) := diff_walked order
  constructor
  · rw [hw.has]
    constructor
    · exact fun ⟨e, he, hd⟩ => ⟨e.1, (mapsApart_iff ho hp).mpr ⟨e, he, rfl, hd⟩⟩
    · intro ⟨m, hm⟩
      obtain ⟨e, he, _, hd⟩ := (mapsApart_iff ho hp).mp hm
      exact ⟨e, he, hd⟩
  · intro hhas
    obtain ⟨e, he⟩ : ∃ e, (order.find? fun e => Diverges ref e) = some e := by
      refine Option.ne_none_iff_exists'.mp fun hnone => ?_
      rw [hw.find_none.mpr hnone] at hhas
      exact Bool.false_ne_true hhas
    have hdiv : Diverges ref e := by simpa using List.find?_some he
    rw [hw.first e he]
    exact (mapsApart_iff ho hp).mpr ⟨e, List.mem_of_find?_eq_some he, rfl, hdiv⟩

/-- Any number at which the maps differ is the one named, when it is walked first. -/
theorem diff_names (ho : Keyed ours.rows) {m : Nat} (hm : MapsApart ours ref m) :
    ∃ order, order.Perm ours.rows ∧ (diff order ours ref).firstDivergence.matchNumber = m := by
  obtain ⟨e, he, rfl, hd⟩ := (mapsApart_iff ho (List.Perm.refl _)).mp hm
  refine ⟨e :: ours.rows.erase e, (List.perm_cons_erase he).symm, ?_⟩
  refine (diff_walked _).first e ?_
  exact List.find?_cons_of_pos (by simpa using hd)

end

/-! ## The rows of a file -/

/-- The rows of an accepted text, as they are written. -/
def fileRows (text : List Char) : List FileRow := (SimRun.lines text).tail.filterMap fileRow

/-- The rows of a match number, in the order of the file. -/
def rowsAt (rows : List FileRow) (m : Nat) : List FileRow := rows.filter fun row => row.matchNumber = m

/-- The last row of a match number, as the reader keeps it. -/
def kept (rows : List FileRow) (m : Nat) : Option (Int × Nat) :=
  (rowsAt rows m).getLast?.map FileRow.entry

theorem rowsAt_append (rows : List FileRow) (row : FileRow) (m : Nat) :
    rowsAt (rows ++ [row]) m = rowsAt rows m ++ if row.matchNumber = m then [row] else [] := by
  unfold rowsAt
  rw [List.filter_append]
  congr 1
  by_cases h : row.matchNumber = m
  · rw [if_pos h, List.filter_cons_of_pos (by simpa using h), List.filter_nil]
  · rw [if_neg h, List.filter_cons_of_neg (by simpa using h), List.filter_nil]

theorem kept_append (rows : List FileRow) (row : FileRow) (m : Nat) :
    kept (rows ++ [row]) m = if row.matchNumber = m then some row.entry else kept rows m := by
  unfold kept
  rw [rowsAt_append]
  by_cases h : row.matchNumber = m
  · rw [if_pos h, if_pos h, List.getLast?_concat]
    rfl
  · rw [if_neg h, if_neg h, List.append_nil]

theorem kept_eq_none {rows : List FileRow} {m : Nat} : kept rows m = none ↔ rowsAt rows m = [] := by
  unfold kept
  rw [Option.map_eq_none_iff, List.getLast?_eq_none_iff]

/-- Two files hold the same rows when they do for each match number. -/
theorem perm_iff_rowsAt {a b : List FileRow} : a.Perm b ↔ ∀ m, (rowsAt a m).Perm (rowsAt b m) := by
  constructor
  · exact fun h m => h.filter _
  · intro h
    rw [List.perm_iff_count]
    intro row
    have hcount : ∀ rows, (rowsAt rows row.matchNumber).count row = rows.count row :=
      fun rows => List.count_filter (by simp)
    rw [← hcount a, ← hcount b]
    exact (h row.matchNumber).count_eq row

/-- The map after some rows: one binding for each number, the last row of it. -/
structure Holds (out : ParsedCsv) (rows : List FileRow) : Prop where
  keyed : Keyed out.rows
  last : ∀ m, find out.rows m = kept rows m

theorem Holds.start : Holds {} [] where
  keyed := Keyed.nil
  last := fun _ => rfl

theorem Holds.add {out : ParsedCsv} {rows : List FileRow} (h : Holds out rows) (row : FileRow) :
    Holds (out.add row) (rows ++ [row]) where
  keyed := h.keyed.assign _ _
  last := by
    intro m
    rw [kept_append]
    by_cases hm : row.matchNumber = m
    · subst hm
      rw [if_pos rfl]
      exact find_assign_self _ _ _
    · rw [if_neg hm, ← h.last m]
      exact find_assign_of_ne _ _ (Ne.symm hm)

/-- The loop over the rows, from a map that holds some already. -/
theorem Holds.loop {out out' : ParsedCsv} {rows : List FileRow} (h : Holds out rows)
    {ls : List (List Char)}
    (hread : ls.foldlM (fun out line => (fileRow line).map out.add) out = some out') :
    Holds out' (rows ++ ls.filterMap fileRow) := by
  induction ls generalizing out rows with
  | nil =>
      cases hread
      rw [List.filterMap_nil, List.append_nil]
      exact h
  | cons line ls ih =>
      rw [List.foldlM_cons] at hread
      obtain ⟨out₁, hline, hread⟩ := Option.bind_eq_some_iff.mp hread
      obtain ⟨row, hrow, rfl⟩ := Option.map_eq_some_iff.mp hline
      rw [List.filterMap_cons_some hrow, List.append_cons]
      exact ih (h.add row) hread

/-- **What the reader keeps of a text it accepts.** -/
theorem parse_holds {text : List Char} {out : ParsedCsv}
    (h : parseCanonicalCsv text {} = some out) : Holds out (fileRows text) := by
  unfold parseCanonicalCsv at h
  unfold fileRows
  cases hlines : SimRun.lines text with
  | nil =>
      rw [hlines] at h
      exact absurd h.symm (Option.some_ne_none _)
  | cons header rows =>
      rw [hlines] at h
      dsimp only at h
      split at h
      · exact Holds.start.loop h
      · exact absurd h.symm (Option.some_ne_none _)

/-! ## The verdict on the files -/

/-- A match number of both files. -/
def Common (a b : List FileRow) (m : Nat) : Prop := rowsAt a m ≠ [] ∧ rowsAt b m ≠ []

/-- The files have the same match numbers. -/
def SameNumbers (a b : List FileRow) : Prop := ∀ m, rowsAt a m = [] ↔ rowsAt b m = []

/-- A common match number whose rows are not the same in the two files. -/
def Differs (a b : List FileRow) (m : Nat) : Prop :=
  Common a b m ∧ ¬ (rowsAt a m).Perm (rowsAt b m)

/-- A common match number whose last rows are apart in the price or in the low 32 bits of
the shares. -/
def KeptApart (a b : List FileRow) (m : Nat) : Prop := Common a b m ∧ kept a m ≠ kept b m

/-- What a diff should say of two files. -/
structure Verdict (a b : List FileRow) (r : DiffReport) : Prop where
  clean_iff : r.Clean ↔ a.Perm b
  named : ¬ r.Clean → (∃ m, Differs a b m) →
    r.hasDivergence = true ∧ Differs a b r.firstDivergence.matchNumber

/-- The verdict holds in whatever order the table of ours is walked. -/
def VerdictHolds (a b : List FileRow) (ours ref : ParsedCsv) : Prop :=
  ∀ order, order.Perm ours.rows → Verdict a b (diff order ours ref)

/-- The last rows, in 64 and 32 bits and without a timestamp, tell the files apart. -/
structure Telling (a b : List FileRow) : Prop where
  /-- If some number differs, some last rows are apart. -/
  found : (∃ m, Differs a b m) → ∃ m, KeptApart a b m
  /-- Unless the files differ in their numbers alone, last rows that are apart are a
  difference. -/
  sound : (∃ m, Differs a b m) ∨ SameNumbers a b → ∀ m, KeptApart a b m → Differs a b m

theorem mapsApart_keptApart {ours ref : ParsedCsv} {a b : List FileRow} (ha : Holds ours a)
    (hb : Holds ref b) {m : Nat} : MapsApart ours ref m ↔ KeptApart a b m := by
  unfold MapsApart KeptApart Common
  rw [ha.last, hb.last, ne_eq, ne_eq, kept_eq_none, kept_eq_none, and_assoc]

section
variable {a b : List FileRow} {ours ref : ParsedCsv}

theorem perm_iff_numbers : a.Perm b ↔ SameNumbers a b ∧ ¬ ∃ m, Differs a b m := by
  rw [perm_iff_rowsAt]
  constructor
  · intro h
    refine ⟨fun m => ⟨fun hnil => ?_, fun hnil => ?_⟩, fun ⟨m, hm⟩ => hm.2 (h m)⟩
    · exact ((hnil ▸ h m).symm).eq_nil
    · exact (hnil ▸ h m).eq_nil
  · intro ⟨hsame, hnone⟩ m
    by_cases hnil : rowsAt a m = []
    · rw [hnil, (hsame m).mp hnil]
    · refine not_not.mp fun hne => hnone ⟨m, ⟨hnil, fun hb => hnil ((hsame m).mpr hb)⟩, hne⟩

theorem kept_iff_numbers :
    (∀ m, kept a m = kept b m) ↔ SameNumbers a b ∧ ¬ ∃ m, KeptApart a b m := by
  constructor
  · intro h
    refine ⟨fun m => ?_, fun ⟨m, hm⟩ => hm.2 (h m)⟩
    rw [← kept_eq_none, ← kept_eq_none, h m]
  · intro ⟨hsame, hnone⟩ m
    by_cases hnil : rowsAt a m = []
    · rw [kept_eq_none.mpr hnil, kept_eq_none.mpr ((hsame m).mp hnil)]
    · refine not_not.mp fun hne => hnone ⟨m, ⟨hnil, fun hb => hnil ((hsame m).mpr hb)⟩, hne⟩

/-- A diff is clean when the files have the same numbers and the same last rows. -/
theorem clean_iff_kept (ho : Holds ours a) (hr : Holds ref b) {order : List (Nat × Int × Nat)}
    (hp : order.Perm ours.rows) :
    (diff order ours ref).Clean ↔ SameNumbers a b ∧ ¬ ∃ m, KeptApart a b m := by
  rw [clean_iff_maps ho.keyed hr.keyed hp, ← kept_iff_numbers]
  simp only [ho.last, hr.last]

theorem telling_of_verdict (ho : Holds ours a) (hr : Holds ref b) (h : VerdictHolds a b ours ref) :
    Telling a b where
  found := by
    intro hdiffers
    obtain ⟨hclean, hnamed⟩ := h ours.rows (List.Perm.refl _)
    have hdirty : ¬ (diff ours.rows ours ref).Clean := by
      rw [hclean, perm_iff_numbers]
      exact fun hsame => hsame.2 hdiffers
    obtain ⟨m, hm⟩ := (diff_divergence ho.keyed (List.Perm.refl _)).1.mp (hnamed hdirty hdiffers).1
    exact ⟨m, (mapsApart_keptApart ho hr).mp hm⟩
  sound := by
    intro hor m hm
    -- the walk that meets this number first names it
    obtain ⟨order, hp, hfirst⟩ := diff_names ho.keyed ((mapsApart_keptApart ho hr).mpr hm)
    obtain ⟨hclean, hnamed⟩ := h order hp
    have hdirty : ¬ (diff order ours ref).Clean := by
      rw [clean_iff_kept ho hr hp]
      exact fun hsame => hsame.2 ⟨m, hm⟩
    have hdiffers : ∃ m, Differs a b m := by
      rcases hor with hdiffers | hsame
      · exact hdiffers
      · rw [hclean, perm_iff_numbers] at hdirty
        exact not_not.mp fun hnone => hdirty ⟨hsame, hnone⟩
    rw [← hfirst]
    exact (hnamed hdirty hdiffers).2

theorem verdict_of_telling (ho : Holds ours a) (hr : Holds ref b) (h : Telling a b) :
    VerdictHolds a b ours ref := by
  intro order hp
  constructor
  case clean_iff =>
    rw [clean_iff_kept ho hr hp, perm_iff_numbers]
    refine and_congr_right fun hsame => not_congr ⟨fun ⟨m, hm⟩ => ⟨m, ?_⟩, h.found⟩
    exact h.sound (Or.inr hsame) m hm
  case named =>
    intro _ hdiffers
    obtain ⟨m, hm⟩ := h.found hdiffers
    obtain ⟨hhas, hfirst⟩ := @diff_divergence ours ref order ho.keyed hp
    have hdivergence := hhas.mpr ⟨m, (mapsApart_keptApart ho hr).mpr hm⟩
    refine ⟨hdivergence, h.sound (Or.inl hdiffers) _ ?_⟩
    exact (mapsApart_keptApart ho hr).mp (hfirst hdivergence)

end

/-! ## Files of distinct prints -/

theorem fromChars_lt {field rest : List Char} {val : Nat} (h : fromChars field = some (val, rest)) :
    val < 2 ^ 64 := by
  unfold fromChars at h
  dsimp only at h
  split at h
  · exact absurd h.symm (Option.some_ne_none _)
  · next hok =>
      obtain ⟨rfl, _⟩ := Prod.mk.inj (Option.some.inj h)
      exact Nat.lt_of_not_le fun hle => hok (Or.inr hle)

theorem parseNums_lt {f : Nat} {line : List Char} {nums : List Nat}
    (h : parseNums f line = some nums) : ∀ n ∈ nums, n < 2 ^ 64 := by
  induction f generalizing line nums with
  | zero =>
      cases h
      exact fun n hn => absurd hn List.not_mem_nil
  | succ f ih =>
      unfold parseNums at h
      split at h
      · split at h
        · next num hnum =>
            obtain ⟨rest, hrest, rfl⟩ := Option.map_eq_some_iff.mp h
            exact List.forall_mem_cons.mpr ⟨fromChars_lt hnum, ih hrest⟩
        · exact absurd h.symm (Option.some_ne_none _)
      · exact absurd h.symm (Option.some_ne_none _)

theorem fileRow_price_lt {line : List Char} {row : FileRow} (h : fileRow line = some row) :
    row.priceTicks < 2 ^ 64 := by
  unfold fileRow at h
  split at h
  · next hnums =>
      rw [← Option.some.inj h]
      exact parseNums_lt hnums _ (by simp)
  · exact absurd h.symm (Option.some_ne_none _)

/-- Within its widths an entry is the row's price and shares. -/
theorem entry_inj {x y : FileRow} (hpx : x.priceTicks < 2 ^ 64) (hpy : y.priceTicks < 2 ^ 64)
    (hsx : x.shares < 2 ^ 32) (hsy : y.shares < 2 ^ 32) (h : x.entry = y.entry) :
    x.priceTicks = y.priceTicks ∧ x.shares = y.shares := by
  obtain ⟨hprice, hshares⟩ := Prod.ext_iff.mp h
  unfold FileRow.entry toI64 toU32 at hprice hshares
  dsimp only at hprice hshares
  omega

/-- In a file of distinct numbers, the rows of one are that row. -/
theorem rowsAt_of_nodup {a : List FileRow} (h : (a.map FileRow.matchNumber).Nodup) {x : FileRow}
    (hx : x ∈ a) : rowsAt a x.matchNumber = [x] := by
  induction a with
  | nil => exact absurd hx List.not_mem_nil
  | cons y a ih =>
      obtain ⟨hfresh, hrest⟩ := List.nodup_cons.mp h
      unfold rowsAt
      rcases List.mem_cons.mp hx with rfl | hmem
      · rw [List.filter_cons_of_pos (by simp), List.filter_eq_nil_iff.mpr]
        intro z hz hzx
        exact hfresh (of_decide_eq_true hzx ▸ List.mem_map_of_mem hz)
      · rw [List.filter_cons_of_neg]
        · exact ih hrest hmem
        · intro hyx
          exact hfresh (of_decide_eq_true hyx ▸ List.mem_map_of_mem hmem)

/-- **Distinct prints.** Files without a repeated match number and with shares of 32 bits are
told apart when their common prints have the same times. -/
theorem Telling.of_distinct {a b : List Char}
    (ha : ((fileRows a).map FileRow.matchNumber).Nodup)
    (hb : ((fileRows b).map FileRow.matchNumber).Nodup)
    (hshares : ∀ x ∈ fileRows a ++ fileRows b, x.shares < 2 ^ 32)
    (htimes : ∀ x ∈ fileRows a, ∀ y ∈ fileRows b, x.matchNumber = y.matchNumber → x.tsNs = y.tsNs) :
    Telling (fileRows a) (fileRows b) := by
  have hapart : ∀ m, KeptApart (fileRows a) (fileRows b) m ↔ Differs (fileRows a) (fileRows b) m := by
    intro m
    refine and_congr_right fun ⟨hma, hmb⟩ => not_congr ?_
    obtain ⟨x, hx⟩ := List.exists_mem_of_ne_nil _ hma
    obtain ⟨y, hy⟩ := List.exists_mem_of_ne_nil _ hmb
    obtain ⟨hxa, hxm⟩ := List.mem_filter.mp hx
    obtain ⟨hyb, hym⟩ := List.mem_filter.mp hy
    have hrowsA : rowsAt (fileRows a) m = [x] := of_decide_eq_true hxm ▸ rowsAt_of_nodup ha hxa
    have hrowsB : rowsAt (fileRows b) m = [y] := of_decide_eq_true hym ▸ rowsAt_of_nodup hb hyb
    have hnumber : x.matchNumber = y.matchNumber :=
      (of_decide_eq_true hxm).trans (of_decide_eq_true hym).symm
    unfold kept
    rw [hrowsA, hrowsB, List.perm_singleton, List.getLast?_singleton, List.getLast?_singleton,
      Option.map_some, Option.map_some, Option.some.injEq, List.singleton_inj]
    constructor
    · intro hentry
      obtain ⟨_, _, hlx⟩ := List.mem_filterMap.mp hxa
      obtain ⟨_, _, hly⟩ := List.mem_filterMap.mp hyb
      obtain ⟨hprice, hsh⟩ := entry_inj (fileRow_price_lt hlx) (fileRow_price_lt hly)
        (hshares x (List.mem_append_left _ hxa)) (hshares y (List.mem_append_right _ hyb)) hentry
      have htime := htimes x hxa y hyb hnumber
      cases x
      cases y
      simp only [FileRow.mk.injEq]
      exact ⟨hnumber, htime, hprice, hsh⟩
    · exact congrArg FileRow.entry
  exact ⟨fun ⟨m, hm⟩ => ⟨m, (hapart m).mpr hm⟩, fun _ m => (hapart m).mp⟩

/-! ## The verdict -/

/-- **When the verdict is about the files**: exactly when their last rows tell them apart. -/
theorem verdict_iff_telling {a b : List Char} {ours ref : ParsedCsv}
    (ha : parseCanonicalCsv a {} = some ours) (hb : parseCanonicalCsv b {} = some ref) :
    VerdictHolds (fileRows a) (fileRows b) ours ref ↔ Telling (fileRows a) (fileRows b) := by
  have ho := parse_holds ha
  have hr := parse_holds hb
  exact ⟨telling_of_verdict ho hr, verdict_of_telling ho hr⟩

/-- A file of two prints. -/
def twoPrints : List Char := csvHeader ++ "\n77,1,2,100000,400,Y,N\n78,1,3,100005,300,Y,Y\n".toList

/-- The same prints, the second at another time. -/
def twoPrintsLater : List Char :=
  csvHeader ++ "\n77,1,2,100000,400,Y,N\n78,1,4,100005,300,Y,Y\n".toList

def twoPrintsMap : ParsedCsv := { rows := [(78, (100005, 300)), (77, (100000, 400))] }

theorem parse_twoPrints : parseCanonicalCsv twoPrints {} = some twoPrintsMap := by decide +kernel

/-- The first file's prints, the second at another price, and one more. -/
def twoPrintsDearer : List Char :=
  csvHeader ++ "\n77,1,2,100000,400,Y,N\n78,1,3,100006,300,Y,Y\n79,1,4,100005,100,Y,N\n".toList

def twoPrintsDearerMap : ParsedCsv :=
  { rows := [(79, (100005, 100)), (78, (100006, 300)), (77, (100000, 400))] }

/-- **A print at another price** is the one that the diff names, in either order of the walk. -/
theorem verdict_of_dearer_print :
    VerdictHolds (fileRows twoPrints) (fileRows twoPrintsDearer) twoPrintsMap twoPrintsDearerMap
      ∧ (diff twoPrintsMap.rows twoPrintsMap twoPrintsDearerMap).firstDivergence.matchNumber
        = 78 := by
  have hparse : parseCanonicalCsv twoPrintsDearer {} = some twoPrintsDearerMap := by
    decide +kernel
  refine ⟨(verdict_iff_telling parse_twoPrints hparse).mpr ?_, by decide +kernel⟩
  exact Telling.of_distinct (by decide +kernel) (by decide +kernel) (by decide +kernel)
    (by decide +kernel)

/-- A print at another time goes unseen. -/
theorem later_print_clean :
    ¬ ∀ a b ours ref, parseCanonicalCsv a {} = some ours → parseCanonicalCsv b {} = some ref →
      VerdictHolds (fileRows a) (fileRows b) ours ref := by
  intro h
  have hlater : parseCanonicalCsv twoPrintsLater {} = some twoPrintsMap := by decide +kernel
  have hverdict := h _ _ _ _ parse_twoPrints hlater twoPrintsMap.rows (List.Perm.refl _)
  have hclean : (diff twoPrintsMap.rows twoPrintsMap twoPrintsMap).Clean := by decide +kernel
  -- the second print has its time in one file only
  have hmem : { matchNumber := 78, tsNs := 3, priceTicks := 100005, shares := 300 }
      ∈ fileRows twoPrints := by decide +kernel
  exact absurd ((hverdict.clean_iff.mp hclean).mem_iff.mp hmem) (by decide +kernel)

end Trades

end Mog
