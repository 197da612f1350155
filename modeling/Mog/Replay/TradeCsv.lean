import Mog.Replay.Agree
import Mog.Replay.Prints
import Mog.Replay.TradeDiff
import Mog.SimRun.Csv
import Mathlib.Data.List.TakeWhile

/-!
# The trade file

The command writes the prints of a reconstruction as text, one row each, and compares a
reconstruction with the text of another. What a print may hold comes from the wire, so
that every number of it is one the reader takes back; the comparison through the text is
then the comparison of the two reconstructions.

What goes out is printed by the writer and what comes in is read by the reader of the diff,
which has its own limits: 64-bit numbers, 32-bit shares, one row a match number. That each
number fits is proved where it arises, from the fields of the wire through the book to the
print.
-/

namespace Mog

namespace Trades

open Wire Replay OrderBook SimRun Session

variable {k : Nat}

/-! ## The writer and the command -/

/-- The letter of a flag. -/
def flagChar (b : Bool) : Char := if b then 'Y' else 'N'

/-- The numbers of a row and its two flags, in the order of the header. -/
def Print.fields (p : Print) : List (List Char) :=
  [showNat p.matchNumber, showNat p.locate, showNat p.tsNs, showInt p.priceTicks,
    showNat p.shares, [flagChar p.printable], [flagChar p.fromExecuteWithPrice]]

/-- `to_csv`: the buffer of 128 characters holds the longest row. -/
def toCsv (p : Print) : List Char := [','].intercalate p.fields

/-- What `--csv` writes: the header and the records, each on a line of its own. -/
def csvText (records : List Print) : List Char :=
  (csvHeader :: records.map toCsv).flatMap fun line => line ++ ['\n']

/-- The map that `--diff` makes of our own records. -/
def ParsedCsv.ofRecords (records : List Print) : ParsedCsv :=
  records.foldl
    (fun po p => { rows := assign po.rows p.matchNumber (p.priceTicks, p.shares % 2 ^ 32) }) {}

/-- What `--diff` reports: nothing for a reference that is empty or not canonical. -/
def diffCommand (order : List (Nat × Int × Nat)) (records : List Print) (refText : List Char) :
    Option DiffReport :=
  if refText = [] then none
  else (parseCanonicalCsv refText {}).map fun pr => diff order (.ofRecords records) pr

/-! ## Rows read back -/

/-- The numbers of a print are ones the reader takes. -/
structure Print.Fits (p : Print) : Prop where
  matchNumber : p.matchNumber < 2 ^ 64
  locate : p.locate < 2 ^ 32
  tsNs : p.tsNs < 2 ^ 64
  price : WireInt p.priceTicks
  shares : p.shares < 2 ^ 32

theorem fromChars_showNat {n : Nat} (h : n < 2 ^ 64) : fromChars (showNat n) = some (n, []) := by
  have hdigits : ∀ c ∈ showNat n, c.isDigit := fun c hc => isDigit_showNat hc
  have htake : (showNat n).takeWhile Char.isDigit = showNat n :=
    List.takeWhile_eq_self_iff.mpr hdigits
  have hdrop : (showNat n).dropWhile Char.isDigit = [] :=
    List.dropWhile_eq_nil_iff.mpr hdigits
  have hval : Nat.ofDigitChars 10 (showNat n) 0 = n := Nat.ofDigitChars_ten_toDigits
  unfold fromChars
  dsimp only
  rw [htake, hdrop, hval]
  refine if_neg ?_
  rintro (hnil | hle)
  · exact Nat.toDigits_ne_nil hnil
  · exact absurd h (Nat.not_lt.mpr hle)

/-- The reader takes the numbers before the last fields of a line. -/
theorem parseNums_intercalate {nums : List Nat} (h : ∀ n ∈ nums, n < 2 ^ 64) {f : List Char}
    {fs : List (List Char)} :
    parseNums nums.length ([','].intercalate (nums.map showNat ++ f :: fs)) = some nums := by
  induction nums with
  | nil => rfl
  | cons n nums ih =>
      obtain ⟨hn, hrest⟩ := List.forall_mem_cons.mp h
      have hplain : ∀ c ∈ showNat n, (decide (c ≠ ',')) = true := by
        intro c hc
        refine decide_eq_true fun he => ?_
        exact absurd (he ▸ isDigit_showNat hc) (by decide)
      obtain ⟨g, gs, hg⟩ : ∃ g gs, nums.map showNat ++ f :: fs = g :: gs := by
        cases nums with
        | nil => exact ⟨_, _, rfl⟩
        | cons m nums => exact ⟨_, _, rfl⟩
      have hline : [','].intercalate ((n :: nums).map showNat ++ f :: fs)
          = showNat n ++ ',' :: [','].intercalate (nums.map showNat ++ f :: fs) := by
        rw [List.map_cons, List.cons_append, hg, List.intercalate_cons_cons, List.append_assoc]
        rfl
      rw [hline, List.length_cons, parseNums, if_pos (by simp)]
      have htake : (showNat n ++ ',' :: [','].intercalate (nums.map showNat ++ f :: fs)).takeWhile
          (· ≠ ',') = showNat n := by
        rw [List.takeWhile_append_of_pos hplain]
        simp
      have hdrop : (showNat n ++ ',' :: [','].intercalate (nums.map showNat ++ f :: fs)).dropWhile
          (· ≠ ',') = ',' :: [','].intercalate (nums.map showNat ++ f :: fs) := by
        rw [List.dropWhile_append_of_pos hplain]
        simp
      rw [htake, hdrop, fromChars_showNat hn]
      dsimp only
      rw [List.tail_cons, ih hrest]
      rfl

/-- The row that a reader sees of a print. -/
def Print.row (p : Print) : FileRow :=
  { matchNumber := p.matchNumber, tsNs := p.tsNs, priceTicks := p.priceTicks.toNat
    shares := p.shares }

theorem showInt_nonneg {z : Int} (h : 0 ≤ z) : showInt z = showNat z.toNat := by
  unfold showInt
  rw [if_neg (Int.not_lt.mpr h)]
  congr 1
  omega

/-- **A row reads back.** -/
theorem fileRow_toCsv {p : Print} (h : p.Fits) : fileRow (toCsv p) = some p.row := by
  obtain ⟨hprice, hlt⟩ := h.price
  have hnums : ∀ n ∈ [p.matchNumber, p.locate, p.tsNs, p.priceTicks.toNat, p.shares],
      n < 2 ^ 64 := by
    have hmatch := h.matchNumber
    have hlocate := h.locate
    have hts := h.tsNs
    have hshares := h.shares
    simp only [List.forall_mem_cons]
    refine ⟨hmatch, by omega, hts, by omega, by omega, fun n hn => absurd hn List.not_mem_nil⟩
  have hread : parseNums 5 ([','].intercalate
      [showNat p.matchNumber, showNat p.locate, showNat p.tsNs, showNat p.priceTicks.toNat,
        showNat p.shares, [flagChar p.printable], [flagChar p.fromExecuteWithPrice]])
      = some [p.matchNumber, p.locate, p.tsNs, p.priceTicks.toNat, p.shares] :=
    parseNums_intercalate hnums
  unfold fileRow toCsv Print.fields
  rw [showInt_nonneg hprice, hread]
  rfl

/-- The reader keeps of the row what the comparison keeps of the print. -/
theorem entry_row {p : Print} (h : p.Fits) : p.row.entry = (p.priceTicks, p.shares % 2 ^ 32) := by
  obtain ⟨hprice, hlt⟩ := h.price
  have hshares := h.shares
  unfold FileRow.entry Print.row toI64 toU32
  dsimp only
  refine Prod.ext ?_ ?_
  · dsimp only
    omega
  · dsimp only
    omega

/-- No field holds a line break. -/
theorem plain_fields (p : Print) : ∀ f ∈ p.fields, ∀ c ∈ f, c ≠ '\n' ∧ c ≠ '\r' := by
  have hnat : ∀ n : Nat, ∀ c ∈ showNat n, c ≠ '\n' ∧ c ≠ '\r' := by
    intro n c hc
    exact ⟨fun he => not_plain (Or.inr (Or.inl he)) (Or.inl (isDigit_showNat hc)),
      fun he => not_plain (Or.inr (Or.inr he)) (Or.inl (isDigit_showNat hc))⟩
  have hint : ∀ z : Int, ∀ c ∈ showInt z, c ≠ '\n' ∧ c ≠ '\r' := by
    intro z c hc
    exact ⟨fun he => not_plain (Or.inr (Or.inl he)) (plain_showInt hc),
      fun he => not_plain (Or.inr (Or.inr he)) (plain_showInt hc)⟩
  have hflag : ∀ b : Bool, ∀ c ∈ [flagChar b], c ≠ '\n' ∧ c ≠ '\r' := by
    intro b c hc
    rw [List.mem_singleton.mp hc]
    cases b <;> decide
  intro f hf
  simp only [Print.fields, List.mem_cons, List.not_mem_nil, or_false] at hf
  rcases hf with rfl | rfl | rfl | rfl | rfl | rfl | rfl
  · exact hnat _
  · exact hnat _
  · exact hnat _
  · exact hint _
  · exact hnat _
  · exact hflag _
  · exact hflag _

theorem toCsv_not_mem {c : Char} (h : c = '\n' ∨ c = '\r') (p : Print) : c ∉ toCsv p := by
  intro hmem
  rcases mem_intercalate _ hmem with rfl | ⟨f, hf, hc⟩
  · rcases h with h | h <;> exact absurd h (by decide)
  · obtain ⟨hn, hr⟩ := Trades.plain_fields p f hf c hc
    exact h.elim hn hr

theorem toCsv_ne_nil (p : Print) : toCsv p ≠ [] := by
  unfold toCsv Print.fields
  rw [List.intercalate_cons_cons, List.append_assoc]
  exact List.append_ne_nil_of_left_ne_nil Nat.toDigits_ne_nil _

theorem lines_csvText (records : List Print) :
    lines (csvText records) = csvHeader :: records.map toCsv := by
  refine lines_flatMap ?_ ?_ ?_
  · exact List.forall_mem_cons.mpr ⟨by decide, List.forall_mem_map.mpr fun p _ => toCsv_ne_nil p⟩
  · exact List.forall_mem_cons.mpr
      ⟨by decide, List.forall_mem_map.mpr fun p _ => toCsv_not_mem (Or.inl rfl) p⟩
  · exact List.forall_mem_cons.mpr
      ⟨by decide, List.forall_mem_map.mpr fun p _ => toCsv_not_mem (Or.inr rfl) p⟩

/-- **The file reads back** as the map of its records. -/
theorem parse_csvText {records : List Print} (h : ∀ p ∈ records, p.Fits) :
    parseCanonicalCsv (csvText records) {} = some (.ofRecords records) := by
  have hloop : ∀ (records : List Print) (out : ParsedCsv), (∀ p ∈ records, p.Fits) →
      (records.map toCsv).foldlM (fun out line => (fileRow line).map out.add) out
        = some (records.foldl (fun po p =>
          { rows := assign po.rows p.matchNumber (p.priceTicks, p.shares % 2 ^ 32) }) out) := by
    intro records
    induction records with
    | nil => exact fun _ _ => rfl
    | cons p records ih =>
        intro out hall
        obtain ⟨hp, hrest⟩ := List.forall_mem_cons.mp hall
        rw [List.map_cons, List.foldlM_cons, fileRow_toCsv hp]
        have hadd : out.add p.row
            = { rows := assign out.rows p.matchNumber (p.priceTicks, p.shares % 2 ^ 32) } := by
          unfold ParsedCsv.add
          rw [entry_row hp]
          rfl
        show (records.map toCsv).foldlM _ (out.add p.row) = _
        rw [hadd]
        exact ih _ hrest
  unfold parseCanonicalCsv
  rw [lines_csvText]
  dsimp only
  rw [if_pos rfl]
  exact hloop records {} h

/-! ## What the map of a reconstruction holds -/

/-- The price and the shares of the last print with a match number. -/
def lastPrint (records : List Print) (m : Nat) : Option (Int × Nat) :=
  ((records.filter fun p => p.matchNumber = m).getLast?).map fun p => (p.priceTicks, p.shares)

/-- One binding for each number, the last print of it. -/
theorem ofRecords_spec {records : List Print} (h : ∀ p ∈ records, p.Fits) :
    Keyed (ParsedCsv.ofRecords records).rows
      ∧ ∀ m, find (ParsedCsv.ofRecords records).rows m = lastPrint records m := by
  induction records using List.reverseRecOn with
  | nil => exact ⟨Keyed.nil, fun _ => rfl⟩
  | append_singleton records p ih =>
      obtain ⟨hrest, hp⟩ := List.forall_mem_append.mp h
      obtain ⟨hkeyed, hlast⟩ := ih hrest
      have hshares := (hp p (List.mem_singleton_self p)).shares
      have hstep : (ParsedCsv.ofRecords (records ++ [p])).rows
          = assign (ParsedCsv.ofRecords records).rows p.matchNumber (p.priceTicks, p.shares) := by
        unfold ParsedCsv.ofRecords
        rw [List.foldl_append, List.foldl_cons, List.foldl_nil, Nat.mod_eq_of_lt hshares]
      rw [hstep]
      refine ⟨hkeyed.assign _ _, fun m => ?_⟩
      unfold lastPrint
      rw [List.filter_append]
      by_cases hm : p.matchNumber = m
      · subst hm
        rw [find_assign_self, List.filter_cons_of_pos (by simp), List.filter_nil,
          List.getLast?_concat]
        rfl
      · rw [find_assign_of_ne _ _ (Ne.symm hm), hlast, List.filter_cons_of_neg (by simpa using hm),
          List.filter_nil, List.append_nil]
        rfl

/-! ## Every print fits -/

/-- What is decoded is in range. -/
theorem decoded_inRange {f : List UInt8} {m : Message} (h : decodeMessage f = .ok m) :
    m.InRange := by
  obtain ⟨-, hreads⟩ := decodeMessage_eq_ok.mp h
  have hlen := hreads.size_le
  have hheader : (decodeHeader f).InRange := by
    refine ⟨?_, ?_, ?_⟩
    · exact loadBe_lt (w := 2) (List.length_take_le _ _)
    · exact loadBe_lt (w := 2) (List.length_take_le _ _)
    · exact loadBe_lt (w := 6) (List.length_take_le _ _)
  have hint : ∀ off, WireInt (be32 f off) := by
    intro off
    exact ⟨Int.natCast_nonneg _, Int.ofNat_lt.mpr (be32_lt _ _)⟩
  cases m with
  | addOrder m =>
      simp only [Reads, decodeAddOrder] at hreads
      rw [if_neg (Nat.not_lt.mpr (show kAddOrderSize ≤ f.length from hlen))] at hreads
      obtain ⟨s, -, rfl⟩ := checkAndWrap_eq_ok.mp hreads
      simp only [frameSize, kAddOrderSize] at hlen
      exact ⟨hheader, be64_lt _ _, hint _, bytesAt_length (by omega), hint _⟩
  | addOrderAttribution m =>
      simp only [Reads, decodeAddOrderAttribution] at hreads
      rw [if_neg (Nat.not_lt.mpr (show kAddOrderAttributionSize ≤ f.length from hlen))] at hreads
      obtain ⟨s, -, rfl⟩ := checkAndWrap_eq_ok.mp hreads
      simp only [frameSize, kAddOrderAttributionSize] at hlen
      exact ⟨hheader, be64_lt _ _, hint _, bytesAt_length (by omega), hint _,
        bytesAt_length (by omega)⟩
  | orderExecuted m =>
      simp only [Reads, decodeOrderExecuted] at hreads
      rw [if_neg (Nat.not_lt.mpr (show kOrderExecutedSize ≤ f.length from hlen))] at hreads
      cases hreads
      exact ⟨hheader, be64_lt _ _, hint _, be64_lt _ _⟩
  | orderExecutedWithPrice m =>
      simp only [Reads, decodeOrderExecutedWithPrice] at hreads
      rw [if_neg (Nat.not_lt.mpr (show kOrderExecutedWithPriceSize ≤ f.length from hlen))] at hreads
      cases hreads
      exact ⟨hheader, be64_lt _ _, hint _, be64_lt _ _, hint _⟩
  | orderCancel m =>
      simp only [Reads, decodeOrderCancel] at hreads
      rw [if_neg (Nat.not_lt.mpr (show kOrderCancelSize ≤ f.length from hlen))] at hreads
      cases hreads
      exact ⟨hheader, be64_lt _ _, hint _⟩
  | orderDelete m =>
      simp only [Reads, decodeOrderDelete] at hreads
      rw [if_neg (Nat.not_lt.mpr (show kOrderDeleteSize ≤ f.length from hlen))] at hreads
      cases hreads
      exact ⟨hheader, be64_lt _ _⟩
  | orderReplace m =>
      simp only [Reads, decodeOrderReplace] at hreads
      rw [if_neg (Nat.not_lt.mpr (show kOrderReplaceSize ≤ f.length from hlen))] at hreads
      cases hreads
      exact ⟨hheader, be64_lt _ _, be64_lt _ _, hint _, hint _⟩

/-- Every order rests at a price of the wire. -/
def WirePrices (b : OrderBook k) : Prop := ∀ i, b.live i → WireInt (b.order i).priceTicks

variable {b : OrderBook k}

theorem WirePrices.add (hw : WirePrices b) (h : b.Valid) (ref : Nat) (s : Side) (qty : Int)
    {price : Int} (hp : WireInt price) : WirePrices (b.add ref s qty price).book := by
  rcases add_cases h ref s qty price with ⟨-, -, i, hi⟩ | ⟨-, -, hbook⟩
  · intro j hj
    by_cases hij : j = i
    · subst hij
      have hself : ((b.add ref s qty price).book.order j).priceTicks = price :=
        congrArg OrderView.priceTicks hi.self
      rw [hself]
      exact hp
    · have hold := ((hi.live j).mp hj).resolve_left hij
      have hsame : ((b.add ref s qty price).book.order j).priceTicks = (b.order j).priceTicks :=
        congrArg OrderView.priceTicks (hi.frame j hij)
      rw [hsame]
      exact hw j hold
  · rw [hbook]
    exact hw

theorem WirePrices.reduced (hw : WirePrices b) {b' : OrderBook k} {i : Nat} {qty : Int}
    (hred : Reduced b b.levelSlots b' i qty) : WirePrices b' := by
  intro j hj
  rw [(hred.kept hj).2.1]
  exact hw j ((hred.live j).mp hj).1

theorem WirePrices.execute (hw : WirePrices b) (h : b.Valid) (ref : Nat) (qty : Int) :
    WirePrices (b.execute ref qty).book := by
  by_cases hok : (b.execute ref qty).tick.ok
  · obtain ⟨i, -, -, -, -, hred, -⟩ := execute_accepted h hok
    exact hw.reduced hred
  · obtain ⟨e, he⟩ := (told_execute b ref qty).resolve_left hok
    rw [he]
    exact hw

theorem WirePrices.remove (hw : WirePrices b) (h : b.Valid) (ref : Nat) :
    WirePrices (b.remove ref).book := by
  by_cases hz : ref = 0
  · rw [hz, remove_zero]
    exact hw
  rcases remove_cases h hz with ⟨i, -, -, -, -, hred⟩ | ⟨-, -, hbook⟩
  · exact hw.reduced hred
  · rw [hbook]
    exact hw

/-- **One message** leaves every order at a price of the wire. -/
theorem WirePrices.apply (hw : WirePrices b) (h : b.Valid) {m : Message} (hm : m.InRange) :
    WirePrices (b.apply m).book := by
  cases m with
  | addOrder v => exact hw.add h v.orderRef v.side v.shares hm.2.2.2.2
  | addOrderAttribution v => exact hw.add h v.orderRef v.side v.shares hm.2.2.2.2.1
  | orderExecuted v => exact hw.execute h v.orderRef v.executedShares
  | orderExecutedWithPrice v => exact hw.execute h v.orderRef v.executedShares
  | orderCancel v => exact hw.execute h v.orderRef v.cancelledShares
  | orderDelete v => exact hw.remove h v.orderRef
  | orderReplace v =>
      show WirePrices (b.replace v.originalOrderRef v.newOrderRef v.shares v.price).book
      by_cases hok : (b.replace v.originalOrderRef v.newOrderRef v.shares v.price).tick.ok
      · obtain ⟨s, hbook, -⟩ := replace_accepted hok
        rw [hbook]
        have hremoved : (b.remove v.originalOrderRef).book.Valid :=
          h.apply (.orderDelete ⟨⟨0, 0, 0⟩, v.originalOrderRef⟩)
        exact (hw.remove h v.originalOrderRef).add hremoved v.newOrderRef s v.shares hm.2.2.2.2
      · obtain ⟨e, he⟩ := (told_replace b _ _ _ _).resolve_left hok
        rw [he]
        exact hw

/-- What holds of a recorder in a run. -/
structure Sound (r : Recorder k) : Prop where
  valid : r.book.Valid
  prices : WirePrices r.book
  fits : ∀ p ∈ r.summary.records, p.Fits

/-- An accepted execution is printed at a price of the wire. -/
theorem Sound.price {r : Recorder k} (h : Sound r) {m : Message} {e : ExecutionMsg}
    (hm : m.InRange) (he : m.execution? = some e) (hok : (r.book.apply m).tick.ok) :
    WireInt (if e.wirePrice.isSome then e.wirePrice.getD 0
      else (r.book.apply m).tick.priceTicks) := by
  cases m with
  | orderExecuted v =>
      cases he
      obtain ⟨i, hi, -, -, -, -, hprice⟩ := execute_accepted h.valid hok
      show WireInt (r.book.execute v.orderRef v.executedShares).tick.priceTicks
      rw [hprice]
      exact h.prices i hi
  | orderExecutedWithPrice v =>
      cases he
      exact hm.2.2.2.2
  | _ => exact nomatch he

/-- The header and the match number of an execution in range. -/
theorem execution_inRange {m : Message} {e : ExecutionMsg} (hm : m.InRange)
    (he : m.execution? = some e) : e.header.InRange ∧ e.matchNumber < 2 ^ 64 := by
  cases m with
  | orderExecuted v =>
      cases he
      exact ⟨hm.1, hm.2.2.2⟩
  | orderExecutedWithPrice v =>
      cases he
      exact ⟨hm.1, hm.2.2.2.1⟩
  | _ => exact nomatch he

theorem Sound.onMessage {r : Recorder k} (h : Sound r) {m : Message} (hm : m.InRange) :
    Sound (r.onMessage m) := by
  have hbook := (onMessage_book r m).1
  refine ⟨?_, ?_, ?_⟩
  · rw [hbook]
    exact h.valid.apply m
  · rw [hbook]
    exact h.prices.apply h.valid hm
  · cases he : m.execution? with
    | none =>
        rw [onMessage_other r he]
        exact h.fits
    | some e =>
        rw [onMessage_execution r he]
        unfold Recorder.record
        by_cases hok : (r.book.apply m).tick.ok
        · rw [if_neg (not_not.mpr hok)]
          obtain ⟨hheader, hmatch⟩ := execution_inRange hm he
          have hlocate := hheader.locate
          have hts := hheader.tsNs
          refine List.forall_mem_append.mpr ⟨h.fits, List.forall_mem_singleton.mpr ?_⟩
          exact
            { matchNumber := hmatch
              locate := Nat.lt_trans hlocate (by decide)
              tsNs := Nat.lt_trans hts (by decide)
              price := h.price hm he hok
              shares := Nat.mod_lt _ (by decide) }
        · rw [if_pos hok]
          exact h.fits

theorem Sound.recorded {fs : List (SessionItem × List UInt8)} :
    Framing.Valid SessionFrame fs → ∀ {r : Recorder k}, Sound r → Sound (recorded r fs) := by
  induction fs with
  | nil => exact fun _ _ h => h
  | cons x fs ih =>
      intro hvalid r h
      have hrest : Framing.Valid SessionFrame fs := fun p hp => hvalid p (List.mem_cons_of_mem _ hp)
      have hframe := hvalid x List.mem_cons_self
      rcases x with ⟨item, f⟩
      cases item with
      | skip type => exact ih hrest (r := r.onFrame type 0 f) ⟨h.valid, h.prices, h.fits⟩
      | message m => exact ih hrest (h.onMessage (decoded_inRange hframe.1))

/-- **Every print of a reconstruction fits the file.** -/
theorem runTrades_fits {kernels : KernelTable} {cfg : BookConfig} (hc : ConfigOk k cfg)
    {format : Format} {bytes : List UInt8} {out : Summary}
    (h : runTrades k kernels { format, book := cfg } bytes = .ok out) :
    ∀ p ∈ out.records, p.Fits := by
  rcases @runs_together k kernels cfg format bytes with ⟨e, st, -, herr⟩ | ⟨fs, n, -, hvalid, -, hok⟩
  · rw [herr] at h
    exact nomatch h
  · rw [hok] at h
    cases h
    have hstart : Sound (.init cfg : Recorder k) :=
      { valid := (init_inv hc).valid
        prices := fun i hi => absurd hi Bool.false_ne_true
        fits := fun p hp => absurd hp List.not_mem_nil }
    exact (hstart.recorded hvalid).fits

/-! ## The comparison through the file -/

/-- A match number that both have, with another price or other shares. -/
def PrintsApart (ours ref : List Print) (m : Nat) : Prop :=
  lastPrint ours m ≠ none ∧ lastPrint ref m ≠ none ∧ lastPrint ours m ≠ lastPrint ref m

/-- What a report should say of two reconstructions. -/
structure Compared (ours ref : List Print) (r : DiffReport) : Prop where
  rowsOurs : r.rowsOurs = (ours.map Print.matchNumber).dedup.length
  rowsRef : r.rowsRef = (ref.map Print.matchNumber).dedup.length
  clean : r.Clean ↔ ∀ m, lastPrint ours m = lastPrint ref m
  divergence : r.hasDivergence = true ↔ ∃ m, PrintsApart ours ref m
  named : r.hasDivergence = true → PrintsApart ours ref r.firstDivergence.matchNumber

/-- The map has as many bindings as there are numbers. -/
theorem ofRecords_length {records : List Print} (h : ∀ p ∈ records, p.Fits) :
    (ParsedCsv.ofRecords records).rows.length = (records.map Print.matchNumber).dedup.length := by
  obtain ⟨hkeyed, hlast⟩ := ofRecords_spec h
  have hperm : ((ParsedCsv.ofRecords records).rows.map Prod.fst).Perm
      (records.map Print.matchNumber).dedup := by
    rw [List.perm_ext_iff_of_nodup hkeyed (List.nodup_dedup _)]
    intro m
    rw [List.mem_dedup]
    constructor
    · intro hm
      obtain ⟨⟨m', x⟩, hx, rfl⟩ := List.mem_map.mp hm
      have hfind := hkeyed.mem_iff.mp hx
      rw [hlast] at hfind
      obtain ⟨p, hp, -⟩ := Option.map_eq_some_iff.mp hfind
      obtain ⟨hmem, hnumber⟩ := List.mem_filter.mp (List.mem_of_getLast? hp)
      exact List.mem_map.mpr ⟨p, hmem, of_decide_eq_true hnumber⟩
    · intro hm
      obtain ⟨p, hp, rfl⟩ := List.mem_map.mp hm
      obtain ⟨x, hx⟩ : ∃ x, lastPrint records p.matchNumber = some x := by
        refine Option.ne_none_iff_exists'.mp fun hnone => ?_
        have hempty := List.getLast?_eq_none_iff.mp (Option.map_eq_none_iff.mp hnone)
        exact absurd (List.mem_filter.mpr ⟨hp, decide_eq_true rfl⟩) (hempty ▸ List.not_mem_nil)
      rw [← hlast] at hx
      exact List.mem_map.mpr ⟨_, hkeyed.mem_iff.mpr hx, rfl⟩
  have hlen := hperm.length_eq
  rw [List.length_map] at hlen
  exact hlen

/-- What a comparison of two maps in memory says. -/
theorem diff_compared {ours ref : List Print} (ho : ∀ p ∈ ours, p.Fits) (hr : ∀ p ∈ ref, p.Fits)
    {order : List (Nat × Int × Nat)} (hp : order.Perm (ParsedCsv.ofRecords ours).rows) :
    Compared ours ref (diff order (.ofRecords ours) (.ofRecords ref)) := by
  obtain ⟨hko, hours⟩ := ofRecords_spec ho
  obtain ⟨hkr, href⟩ := ofRecords_spec hr
  have hw : Walked (.ofRecords ours) (.ofRecords ref) order
      (diff order (.ofRecords ours) (.ofRecords ref)) := diff_walked order
  have hapart : ∀ m, MapsApart (.ofRecords ours) (.ofRecords ref) m ↔ PrintsApart ours ref m := by
    intro m
    unfold MapsApart PrintsApart
    rw [hours, href]
  obtain ⟨hdiv, hname⟩ := @diff_divergence (.ofRecords ours) (.ofRecords ref) order hko hp
  refine ⟨?_, ?_, ?_, ?_, ?_⟩
  · rw [hw.rowsOurs, ofRecords_length ho]
  · rw [hw.rowsRef, ofRecords_length hr]
  · rw [clean_iff_maps hko hkr hp]
    exact forall_congr' fun m => by rw [hours, href]
  · rw [hdiv]
    exact exists_congr hapart
  · exact fun hhas => (hapart _).mp (hname hhas)

/--
**The trade file carries a reconstruction.**

For two inputs that are reconstructed, in whatever formats and with whatever books: the
text written of the one is a reference that the command takes, and the report of the other
against it is clean exactly when the two print the same prices and shares under every
match number, and names a number at which they do not when it reports a divergence.
-/
theorem file_carries {kernels : KernelTable} {cfg cfg' : BookConfig} (hc : ConfigOk k cfg)
    (hc' : ConfigOk k cfg') {format format' : Format} {bytes bytes' : List UInt8}
    {ours ref : Summary}
    (hours : runTrades k kernels { format, book := cfg } bytes = .ok ours)
    (href : runTrades k kernels { format := format', book := cfg' } bytes' = .ok ref)
    {order : List (Nat × Int × Nat)}
    (hp : order.Perm (ParsedCsv.ofRecords ours.records).rows) :
    ∃ r, diffCommand order ours.records (csvText ref.records) = some r
      ∧ Compared ours.records ref.records r := by
  refine ⟨_, ?_, diff_compared (runTrades_fits hc hours) (runTrades_fits hc' href) hp⟩
  have hfull : csvText ref.records ≠ [] := by
    unfold csvText
    rw [List.flatMap_cons]
    exact List.append_ne_nil_of_left_ne_nil (by decide) _
  unfold diffCommand
  rw [if_neg hfull, parse_csvText (runTrades_fits hc' href)]
  rfl

/-- A reconstruction agrees with its own file. -/
theorem file_carries_bid : ∃ r, diffCommand [(3, 7, 40)]
      [{ matchNumber := 3, locate := 1, tsNs := 6, priceTicks := 7, shares := 40
         printable := true, fromExecuteWithPrice := false }]
      (csvText [{ matchNumber := 3, locate := 1, tsNs := 6, priceTicks := 7, shares := 40
                  printable := true, fromExecuteWithPrice := false }]) = some r ∧ r.Clean := by
  have hout : runTrades 10 (kernelsFor .avx2) { format := .itchRaw, book := faultConfig } filledBid
      = .ok { bytesConsumed := 67, decoded := 2, prints := 1
              records := [{ matchNumber := 3, locate := 1, tsNs := 6, priceTicks := 7, shares := 40
                            printable := true, fromExecuteWithPrice := false }] } := by
    decide +kernel
  have hc : ConfigOk 10 faultConfig := ⟨by decide, by decide, by decide, by decide, by decide⟩
  obtain ⟨r, hr, hcompared⟩ := file_carries hc hc hout hout
    (List.Perm.refl [(3, 7, 40)])
  exact ⟨r, hr, hcompared.clean.mpr fun _ => rfl⟩

end Trades

end Mog
