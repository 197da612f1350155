import Mog.Book.Types
import Mog.Lib.WordScan

/-!
# The paged price ladder

Each side of the book addresses its levels by tick offset. A directory maps a
page of `2 ^ kPageShift` ticks to a page of the pool, claimed the first time the
page is touched and never given back; a page carries its levels, one occupancy
bit per level in 64-bit words, and a summary word with one bit per mask word.

A `Level *` of the source is a pair of page and offset here: pages are sticky, so
the pair stays good for as long as the pointer does.
-/

namespace Mog

open WordScan

/-- The directory entry of a page not claimed yet. -/
def kNoPage : Nat := 0xFFFFFFFF

structure Level where
  qtyTotal : Int := 0
  head : Nat := kNullIndex
  tail : Nat := kNullIndex
  count : Nat := 0
deriving DecidableEq, Repr, Inhabited

structure Page where
  occupancy : Nat := 0
  summaryMask : BitVec 64 := 0#64
  mask : Nat → BitVec 64 := fun _ => 0#64
  levels : Nat → Level := fun _ => {}

/-- A `Level *`. -/
structure LevelPtr where
  page : Nat
  offset : Nat
deriving DecidableEq, Repr

structure LadderConfig where
  loTick : Int
  /-- Exclusive upper bound. -/
  hiTick : Int
  pagePool : Nat
deriving DecidableEq, Repr

structure PriceLadder (kPageShift : Nat) where
  lo : Int
  hi : Int
  poolLen : Nat
  pagesClaimed : Nat := 0
  dir : Nat → Nat := fun _ => kNoPage
  pages : Nat → Page := fun _ => {}

def kPageTicks (kPageShift : Nat) : Nat := 2 ^ kPageShift

def kMaskWords (kPageShift : Nat) : Nat := (kPageTicks kPageShift + 63) / 64

namespace PriceLadder

variable {kPageShift : Nat}

def init (cfg : LadderConfig) : PriceLadder kPageShift :=
  { lo := cfg.loTick, hi := cfg.hiTick, poolLen := cfg.pagePool }

/-- The number of directory entries, `validated_dir_len` of the source. -/
def dirLen (l : PriceLadder kPageShift) : Nat :=
  ((l.hi - l.lo).toNat + kPageTicks kPageShift - 1) / kPageTicks kPageShift

def inBand (l : PriceLadder kPageShift) (tick : Int) : Prop := l.lo ≤ tick ∧ tick < l.hi

instance (l : PriceLadder kPageShift) (tick : Int) : Decidable (l.inBand tick) :=
  inferInstanceAs (Decidable (_ ∧ _))

/-- `(tick - lo_) >> kPageShift`. -/
def dirIndex (l : PriceLadder kPageShift) (tick : Int) : Nat :=
  (tick - l.lo).toNat / kPageTicks kPageShift

/-- `(tick - lo_) & (kPageTicks - 1)`. -/
def offsetOf (l : PriceLadder kPageShift) (tick : Int) : Nat :=
  (tick - l.lo).toNat % kPageTicks kPageShift

/-- The tick a directory entry and an offset stand for. -/
def tickOf (l : PriceLadder kPageShift) (d o : Nat) : Int :=
  l.lo + (d * kPageTicks kPageShift : Nat) + o

/-- Read through a level pointer. -/
def level (l : PriceLadder kPageShift) (p : LevelPtr) : Level := (l.pages p.page).levels p.offset

/-- Write through a level pointer. -/
def setLevel (l : PriceLadder kPageShift) (p : LevelPtr) (lv : Level) : PriceLadder kPageShift :=
  let pg := l.pages p.page
  let pg' := { pg with levels := Function.update pg.levels p.offset lv }
  { l with pages := Function.update l.pages p.page pg' }

/-- The tick's page is claimed already, or the pool has a page left. -/
def claimable (l : PriceLadder kPageShift) (tick : Int) : Prop :=
  l.dir (l.dirIndex tick) ≠ kNoPage ∨ l.pagesClaimed < l.poolLen

instance (l : PriceLadder kPageShift) (tick : Int) : Decidable (l.claimable tick) :=
  inferInstanceAs (Decidable (_ ∨ _))

/-- The page of directory entry `d`, claimed on first touch. -/
def claim (l : PriceLadder kPageShift) (d : Nat) : PriceLadder kPageShift × Nat :=
  if l.dir d = kNoPage then
    ({ l with
        pagesClaimed := l.pagesClaimed + 1
        dir := Function.update l.dir d l.pagesClaimed }, l.pagesClaimed)
  else (l, l.dir d)

/-- Record that the level at `offset` has become nonempty. -/
def markNonzero (p : Page) (offset : Nat) : Page :=
  let w := offset / 64
  { p with
    occupancy := p.occupancy + 1
    mask := Function.update p.mask w (p.mask w ||| (1#64 <<< (offset % 64)))
    summaryMask := p.summaryMask ||| (1#64 <<< w) }

/-- Record that the level at `offset` has become empty. -/
def markZero (p : Page) (offset : Nat) : Page :=
  let w := offset / 64
  let m := p.mask w &&& ~~~(1#64 <<< (offset % 64))
  { p with
    occupancy := p.occupancy - 1
    mask := Function.update p.mask w m
    summaryMask := if m = 0#64 then p.summaryMask &&& ~~~(1#64 <<< w) else p.summaryMask }

/-- The quantity change of one level, with the page's bitmaps kept in step. -/
def applyPage (p : Page) (offset : Nat) (delta : Int) : Page :=
  let lv := p.levels offset
  let qty := lv.qtyTotal + delta
  let p' := { p with levels := Function.update p.levels offset { lv with qtyTotal := qty } }
  if lv.qtyTotal = 0 ∧ qty ≠ 0 then markNonzero p' offset
  else if lv.qtyTotal ≠ 0 ∧ qty = 0 then markZero p' offset
  else p'

/-- Apply a signed quantity change at a tick and return the level. -/
def apply (l : PriceLadder kPageShift) (tick delta : Int) : PriceLadder kPageShift × LevelPtr :=
  let c := l.claim (l.dirIndex tick)
  let offset := l.offsetOf tick
  let page := applyPage (c.1.pages c.2) offset delta
  ({ c.1 with pages := Function.update c.1.pages c.2 page }, ⟨c.2, offset⟩)

/-- The level at a tick; `none` outside the band and on pages never touched. -/
def peek (l : PriceLadder kPageShift) (tick : Int) : Option Level :=
  if ¬ l.inBand tick then none
  else if l.dir (l.dirIndex tick) = kNoPage then none
  else some (l.level ⟨l.dir (l.dirIndex tick), l.offsetOf tick⟩)

/-- The first nonempty offset of a page at or after `startO`, through the masks. -/
def scanUp (kPageShift : Nat) (p : Page) (startO : Nat) : Option Nat :=
  let wStart := startO / 64
  let m := p.mask wStart &&& ~~~((1#64 <<< (startO % 64)) - 1#64)
  if m ≠ 0#64 then some (wStart * 64 + countrZero m)
  else if wStart + 1 < kMaskWords kPageShift then
    let sumM := p.summaryMask &&& ~~~((1#64 <<< (wStart + 1)) - 1#64)
    if sumM ≠ 0#64 then
      let w := countrZero sumM
      some (w * 64 + countrZero (p.mask w))
    else none
  else none

/-- The loop of `first_above`: `n` directory entries left, the next one `d`. -/
def firstAboveFrom (l : PriceLadder kPageShift) (d0 o0 : Nat) : Nat → Nat → Int
  | 0, _ => kNoTick
  | n + 1, d =>
      let ps := l.dir d
      if ps = kNoPage ∨ (l.pages ps).occupancy = 0 then firstAboveFrom l d0 o0 n (d + 1)
      else
        match scanUp kPageShift (l.pages ps) (if d = d0 then o0 else 0) with
        | some o => l.tickOf d o
        | none => firstAboveFrom l d0 o0 n (d + 1)

/-- The nearest tick strictly above with nonzero quantity. -/
def firstAbove (l : PriceLadder kPageShift) (fromExclusive : Int) : Int :=
  if l.hi - 1 ≤ fromExclusive then kNoTick
  else
    let start := if fromExclusive < l.lo then l.lo else fromExclusive + 1
    let d0 := l.dirIndex start
    l.firstAboveFrom d0 (l.offsetOf start) (l.dirLen - d0) d0

/-- The last nonempty offset of a page at or before `startO`, through the masks. -/
def scanDown (p : Page) (startO : Nat) : Option Nat :=
  let wStart := startO / 64
  let bitPos := startO % 64
  let topMask := if bitPos = 63 then ~~~0#64 else (1#64 <<< (bitPos + 1)) - 1#64
  let m := p.mask wStart &&& topMask
  if m ≠ 0#64 then some (wStart * 64 + (63 - countlZero m))
  else if 0 < wStart then
    let sumM := p.summaryMask &&& ((1#64 <<< wStart) - 1#64)
    if sumM ≠ 0#64 then
      let w := 63 - countlZero sumM
      some (w * 64 + (63 - countlZero (p.mask w)))
    else none
  else none

/-- The loop of `first_below`, down to directory entry 0. -/
def firstBelowFrom (l : PriceLadder kPageShift) (d0 o0 : Nat) : Nat → Int
  | 0 => firstBelowIn l d0 o0 0 kNoTick
  | d + 1 => firstBelowIn l d0 o0 (d + 1) (firstBelowFrom l d0 o0 d)
where
  /-- Directory entry `d`, and where the loop goes on when it holds nothing. -/
  firstBelowIn (l : PriceLadder kPageShift) (d0 o0 d : Nat) (rest : Int) : Int :=
    let ps := l.dir d
    if ps ≠ kNoPage ∧ (l.pages ps).occupancy ≠ 0 then
      match scanDown (l.pages ps) (if d = d0 then o0 else kPageTicks kPageShift - 1) with
      | some o => l.tickOf d o
      | none => rest
    else rest

/-- The nearest tick strictly below with nonzero quantity. -/
def firstBelow (l : PriceLadder kPageShift) (fromExclusive : Int) : Int :=
  if fromExclusive ≤ l.lo then kNoTick
  else
    let start := if l.hi < fromExclusive then l.hi - 1 else fromExclusive - 1
    l.firstBelowFrom (l.dirIndex start) (l.offsetOf start) (l.dirIndex start)

/-- Every nonempty level with its tick, in the order `for_each_level` visits them. -/
def levels (l : PriceLadder kPageShift) : List (Int × Level) :=
  (List.range l.dirLen).flatMap fun d =>
    if l.dir d = kNoPage then []
    else (List.range (kPageTicks kPageShift)).filterMap fun o =>
      let lv := (l.pages (l.dir d)).levels o
      if lv.qtyTotal ≠ 0 then some (l.tickOf d o, lv) else none

end PriceLadder

end Mog
