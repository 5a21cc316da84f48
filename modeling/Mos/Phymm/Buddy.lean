import Mos.Lib.Dyadic
import Mos.Lib.Word

/-!
# The buddy allocator of physical pages

`src/mm/impl/phymm.c`.  Free blocks are kept in one list for each order, threaded through the page records; the lists
are modelled as lists of page indices, head first, and `none` stands for `PHYMM_INVALID`.  Page indices stay far below
`2 ^ 32` (`Config.end_le`), so sums of an index and a block size do not wrap; only the counter `buddy_free_pages` is
computed as an unsigned word.
-/

namespace Mos.Phymm

open Lib Function

def maxBuddyOrder : Nat := 10

def phymmReserved : Nat := 0xFFFFFFFE

def phymmOrderNone : Nat := 0xFE

/-- The managed range and the limits of the memory layout, in pages. -/
structure Config where
  phymmBegin : Nat
  phymmEnd : Nat
  kernelRamPages : Nat
  dmaRamPages : Nat
  preferredBase : Nat
  end_le : phymmEnd + 2 ^ maxBuddyOrder ≤ 2 ^ 32

/-- `phymm_page` without its list node. -/
structure Page where
  refCount : Nat
  order : Nat
  flags : Nat
  deriving DecidableEq

structure State where
  pages : Nat → Page
  buddyLists : Nat → List Nat
  buddyFreePages : Nat

def State.setPage (s : State) (idx : Nat) (page : Page) : State := { s with pages := update s.pages idx page }

/-- The loop of `ceil_log2`.  After 32 doublings the size is 0 and the loop does not end. -/
def ceilLog2Loop (n : Nat) : Nat → Nat → Nat → Option Nat
  | 0, _, _ => none
  | rounds + 1, size, order => if size < n then ceilLog2Loop n rounds (size * 2 % 2 ^ 32) (order + 1) else some order

def ceilLog2 (n : Nat) : Option Nat := ceilLog2Loop n 32 1 0

def buddyPush (s : State) (idx order : Nat) : State :=
  { pages := update s.pages idx { s.pages idx with order := order },
    buddyLists := update s.buddyLists order (idx :: s.buddyLists order),
    buddyFreePages := addW 32 s.buddyFreePages (2 ^ order) }

/-- `buddy_remove`: unlink the page from the list it is on. -/
def buddyRemove (s : State) (idx : Nat) : State :=
  { s with
    buddyLists := fun o => (s.buddyLists o).erase idx,
    buddyFreePages := subW 32 s.buddyFreePages (2 ^ (s.pages idx).order) }

/-- The page's list node is linked. -/
def onList (s : State) (idx : Nat) : Bool := (List.range (maxBuddyOrder + 1)).any fun o => idx ∈ s.buddyLists o

def buddyIsFreeAtOrder (cfg : Config) (s : State) (idx order : Nat) : Bool :=
  if idx < cfg.phymmBegin ∨ idx ≥ cfg.phymmEnd then false
  else (s.pages idx).refCount == 0 && (s.pages idx).order == order && onList s idx

/-- Write the order of an allocated block on its head page and mark its other pages. -/
def markBlock (cfg : Config) (s : State) (idx order : Nat) : State :=
  { s with pages := fun p =>
      if p = idx then { s.pages p with order := order }
      else if idx < p ∧ p < idx + 2 ^ order ∧ p < cfg.phymmEnd then { s.pages p with order := phymmOrderNone }
      else s.pages p }

/-- Make `idx` a free block of the given order. -/
def pushFree (s : State) (idx order : Nat) : State :=
  buddyPush (s.setPage idx { s.pages idx with refCount := 0 }) idx order

/-- The splitting loop that keeps the lower halves, from order `cur` down. -/
def splitLow (cfg : Config) (idx order : Nat) : Nat → State → State
  | 0, s => s
  | cur + 1, s =>
    if cur + 1 > order then
      splitLow cfg idx order cur
        (if idx + 2 ^ cur < cfg.phymmEnd then pushFree s (idx + 2 ^ cur) cur else s)
    else s

/-- The splitting loop of `buddy_alloc_high`, which keeps the upper halves. -/
def splitHigh (cfg : Config) (order : Nat) : Nat → State → Nat → State × Nat
  | 0, s, idx => (s, idx)
  | cur + 1, s, idx =>
    if cur + 1 > order then
      if idx + 2 ^ cur < cfg.phymmEnd then splitHigh cfg order cur (pushFree s idx cur) (idx + 2 ^ cur)
      else splitHigh cfg order cur s idx
    else (s, idx)

/-- The first block, by order and then in list order, that `pick` chooses from its list. -/
def firstBlock (pick : Nat → List Nat → Option Nat) (s : State) : List Nat → Option Block
  | [] => none
  | o :: os => match pick o (s.buddyLists o) with
    | some idx => some ⟨o, idx⟩
    | none => firstBlock pick s os

def ordersFrom (order : Nat) : List Nat := List.range' order (maxBuddyOrder + 1 - order)

def buddyBlockFits (minIdx maxIdx order idx : Nat) : Bool := minIdx ≤ idx && idx + 2 ^ order ≤ maxIdx

def buddyAllocInRange (cfg : Config) (s : State) (order minIdx maxIdx : Nat) : State × Option Nat :=
  if minIdx ≥ maxIdx then (s, none)
  else match firstBlock (fun o l => l.find? (buddyBlockFits minIdx maxIdx o)) s (ordersFrom order) with
    | none => (s, none)
    | some b => (markBlock cfg (splitLow cfg b.start order b.order (buddyRemove s b.start)) b.start order,
        some b.start)

def higher (best : Option Nat) (idx : Nat) : Option Nat :=
  match best with
  | none => some idx
  | some b => if idx > b then some idx else some b

/-- The scan of `buddy_alloc_high` for the highest block of a list. -/
def highest (l : List Nat) : Option Nat := l.foldl higher none

def buddyAllocHigh (cfg : Config) (s : State) (order : Nat) : State × Option Nat :=
  match firstBlock (fun _ l => highest l) s (ordersFrom order) with
  | none => (s, none)
  | some b =>
    let split := splitHigh cfg order b.order (buddyRemove s b.start) b.start
    (markBlock cfg split.1 split.2 order, some split.2)

/-- The coalescing loop; `rounds` is the number of orders left above `order`. -/
def coalesce (cfg : Config) : Nat → State → Nat → Nat → State × Block
  | 0, s, idx, order => (s, ⟨order, idx⟩)
  | rounds + 1, s, idx, order =>
    if buddyIsFreeAtOrder cfg s (buddy order idx) order then
      coalesce cfg rounds (buddyRemove s (buddy order idx)) (if buddy order idx < idx then buddy order idx else idx)
        (order + 1)
    else (s, ⟨order, idx⟩)

def buddyFreeBlock (cfg : Config) (s : State) (idx order : Nat) : State :=
  let merged := coalesce cfg (maxBuddyOrder - order) s idx order
  let s := merged.1
  let idx := merged.2.start
  buddyPush (s.setPage idx { s.pages idx with refCount := 0, flags := 0 }) idx merged.2.order

def phymmKernelPageLimit (cfg : Config) : Nat :=
    if cfg.kernelRamPages < cfg.phymmEnd then cfg.kernelRamPages else cfg.phymmEnd

/-- Try a second allocation if the first gave nothing. -/
def orElse (first : State × Option Nat) (second : State → State × Option Nat) : State × Option Nat :=
  match first.2 with
  | some _ => first
  | none => second first.1

def phymmAllocKernel (cfg : Config) (s : State) (pageCount : Nat) : Option (State × Option Nat) := do
  let order ← ceilLog2 (if pageCount ≠ 0 then pageCount else 1)
  if order > maxBuddyOrder then return (s, none)
  return orElse (buddyAllocInRange cfg s order cfg.preferredBase (phymmKernelPageLimit cfg)) fun s =>
    buddyAllocInRange cfg s order cfg.phymmBegin (phymmKernelPageLimit cfg)

def phymmAllocDma (cfg : Config) (s : State) (pageCount : Nat) : Option (State × Option Nat) := do
  let order ← ceilLog2 (if pageCount ≠ 0 then pageCount else 1)
  if order > maxBuddyOrder then return (s, none)
  let limit := if cfg.dmaRamPages > cfg.phymmEnd then cfg.phymmEnd else cfg.dmaRamPages
  return buddyAllocInRange cfg s order cfg.phymmBegin limit

def phymmAllocUser (cfg : Config) (s : State) : State × Option Nat :=
  orElse (orElse (buddyAllocInRange cfg s 0 0x100000 cfg.phymmEnd) fun s =>
    buddyAllocInRange cfg s 0 (phymmKernelPageLimit cfg) cfg.phymmEnd) fun s =>
  buddyAllocHigh cfg s 0

def phymmAllocCachePages (cfg : Config) (s : State) (pageCount : Nat) : Option (State × Option Nat) := do
  let order ← ceilLog2 (if pageCount ≠ 0 then pageCount else 1)
  if order > maxBuddyOrder then return (s, none)
  return orElse (orElse (buddyAllocInRange cfg s order 0x100000 cfg.phymmEnd) fun s =>
    buddyAllocInRange cfg s order (phymmKernelPageLimit cfg) cfg.phymmEnd) fun s =>
    if cfg.phymmEnd ≤ phymmKernelPageLimit cfg then buddyAllocHigh cfg s order else (s, none)

def phymmFreeKernel (cfg : Config) (s : State) (pageIndex pageCount : Nat) : Option State :=
  if pageIndex < cfg.phymmBegin ∨ pageIndex ≥ cfg.phymmEnd then some s
  else do
    let order ← (if (s.pages pageIndex).order > maxBuddyOrder then ceilLog2 (if pageCount ≠ 0 then pageCount else 1)
      else some (s.pages pageIndex).order)
    return buddyFreeBlock cfg s pageIndex order

def phymmFreeUser (cfg : Config) (s : State) (pageIndex : Nat) : State :=
  if pageIndex < cfg.phymmBegin ∨ pageIndex ≥ cfg.phymmEnd then s else buddyFreeBlock cfg s pageIndex 0

/-- The inner loop of `buddy_add_free_range`: the largest order, from `order` down, at which `p` is aligned and the
block fits. -/
def fitOrder (p stop : Nat) : Nat → Nat
  | 0 => 0
  | o + 1 => if p % 2 ^ (o + 1) = 0 ∧ p + 2 ^ (o + 1) ≤ stop then o + 1 else fitOrder p stop o

def buddyAddFreeRange (s : State) (p stop : Nat) : State :=
  if h : p < stop then
    let order := fitOrder p stop maxBuddyOrder
    if p + 2 ^ order > stop then s
    else buddyAddFreeRange (buddyPush s p order) (p + 2 ^ order) stop
  else s
termination_by stop - p
decreasing_by
  have := Nat.two_pow_pos (fitOrder p stop maxBuddyOrder)
  omega

/-- One usable region of the memory map: clear its page records and add its pages. -/
def addRegion (s : State) (region : Nat × Nat) : State :=
  buddyAddFreeRange
    { s with pages := fun p =>
        if region.1 ≤ p ∧ p < region.2 then { s.pages p with refCount := 0, order := phymmOrderNone } else s.pages p }
    region.1 region.2

/-- `phymm_init` before it walks the memory map: empty lists, every page reserved. -/
def initial : State :=
  { pages := fun _ => ⟨phymmReserved, phymmOrderNone, 0⟩, buddyLists := fun _ => [], buddyFreePages := 0 }

def boot (regions : List (Nat × Nat)) : State := regions.foldl addRegion initial

end Mos.Phymm
