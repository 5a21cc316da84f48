import Mos.Lib.Word

/-!
# The kernel heap

`src/lib/impl/kmalloc.c`: segregated free lists with exact bins for small sizes and power-of-two bins above, a bitmap
of the non-empty bins, splitting on allocation and merging with the right neighbour on `free`.

The header words are a memory indexed by address.  The circular list of a bin is the list of the block addresses that
its links pass through, first entry first.  `malloc` gives up the heap lock while it extends the heap, so it is
modelled in two parts, `malloc` and `mallocExtended`; the pages come from `kblk_raw`, whose answer is the argument
`raw`.
-/

namespace Mos.Kmalloc

open Lib Function

inductive Arch
  | i386 | x64
  deriving DecidableEq

def Arch.ptrSize : Arch → Nat
  | i386 => 4
  | x64 => 8

/-- The width of `vaddr_t`, and of `PAGE_SIZE`. -/
def Arch.bits : Arch → Nat
  | i386 => 32
  | x64 => 64

def hdrSz : Nat := 8

def allocBit : Nat := 1

def minBlk (a : Arch) : Nat := hdrSz + 2 * a.ptrSize

def align8 (n : Nat) : Nat := addW 32 n 7 / 8 * 8

def smallBinMax : Nat := 1024

def smallBinCount (a : Arch) : Nat := (smallBinMax - minBlk a) / 8 + 1

def largeBinCount : Nat := 22

def numBins (a : Arch) : Nat := smallBinCount a + largeBinCount

def binBitmapWords (a : Arch) : Nat := (numBins a + 31) / 32

def pageSize : Nat := 4096

structure Heap where
  /-- The 32-bit word at an address; only the words at block headers are read. -/
  hdr : Nat → Nat
  bins : Nat → List Nat
  binBitmap : Nat → BitVec 32
  heapQuota : Nat
  heapQuotaHigh : Nat

/-- The header without `ALLOC_BIT`. -/
def blkSz (h : Heap) (b : Nat) : Nat := h.hdr b - h.hdr b % 2

def blkIsAlloc (h : Heap) (b : Nat) : Bool := h.hdr b % 2 == 1

def setHdr (h : Heap) (b totalSize : Nat) (alloc : Bool) : Heap :=
  { h with hdr := update h.hdr b (totalSize ||| if alloc then allocBit else 0) }

def blkNext (h : Heap) (b : Nat) : Nat := b + blkSz h b

/-- The loop of `size_to_bin` over the power-of-two bins. -/
def largeBin (sz : Nat) : Nat → Nat → Nat → Nat
  | 0, i, _ => i
  | rounds + 1, i, bound => if sz ≤ bound then i else largeBin sz rounds (i + 1) (bound * 2 % 2 ^ 32)

def sizeToBin (a : Arch) (sz : Nat) : Nat :=
  if sz ≤ smallBinMax then subW 32 sz (minBlk a) / 8
  else largeBin sz (largeBinCount - 1) (smallBinCount a) (smallBinMax * 2)

def flInsert (a : Arch) (h : Heap) (block : Nat) : Heap :=
  let bin := sizeToBin a (blkSz h block)
  { h with
    bins := update h.bins bin (block :: h.bins bin),
    binBitmap := update h.binBitmap (bin / 32) (h.binBitmap (bin / 32) ||| (1#32 <<< (bin % 32))) }

/-- `fl_remove`: unlink the block from the list it is on, and clear the bit of its bin if that became empty. -/
def flRemove (a : Arch) (h : Heap) (block : Nat) : Heap :=
  let bin := sizeToBin a (blkSz h block)
  let bins := fun k => (h.bins k).erase block
  { h with
    bins := bins,
    binBitmap :=
      if bins bin = [] then
        update h.binBitmap (bin / 32) (h.binBitmap (bin / 32) &&& ~~~(1#32 <<< (bin % 32)))
      else h.binBitmap }

/-- `__builtin_ctz` -/
def ctz (w : BitVec 32) : Nat := ((List.range 32).find? w.getLsbD).getD 32

/-- The loop of `next_nonempty_bin`, with `left` words after the current one. -/
def scanWords (bitmap : Nat → BitVec 32) : Nat → Nat → BitVec 32 → Option Nat
  | 0, word, active => if active ≠ 0 then some (word * 32 + ctz active) else none
  | left + 1, word, active =>
    if active ≠ 0 then some (word * 32 + ctz active) else scanWords bitmap left (word + 1) (bitmap (word + 1))

def nextNonemptyBin (a : Arch) (h : Heap) (start : Nat) : Nat :=
  if start ≥ numBins a then numBins a
  else
    let word := start / 32
    let active := h.binBitmap word &&& (BitVec.allOnes 32 <<< (start % 32))
    (scanWords h.binBitmap (binBitmapWords a - 1 - word) word active).getD (numBins a)

/-- The first block of the first non-empty bin from `start` on. -/
def takeBin (a : Arch) (h : Heap) (start : Nat) : Option (Heap × Nat) :=
  let bin := nextNonemptyBin a h start
  if bin = numBins a then none
  else (h.bins bin).head?.map fun block => (flRemove a h block, block)

def findFree (a : Arch) (h : Heap) (need : Nat) : Option (Heap × Nat) :=
  let start := sizeToBin a need
  if start ≥ smallBinCount a then
    match (h.bins start).find? fun block => decide (blkSz h block ≥ need) with
    | some block => some (flRemove a h block, block)
    | none => takeBin a h (start + 1)
  else takeBin a h start

def extendPages (a : Arch) (minSz : Nat) : Nat := addW a.bits (addW 32 minSz hdrSz) (pageSize - 1) / pageSize

def extendChunk (a : Arch) (minSz : Nat) : Nat := extendPages a minSz * pageSize % 2 ^ 32

/-- `extend_heap`, with the answer of `kblk_raw(pages)`; `none` is the address 0. -/
def extendHeap (a : Arch) (h : Heap) (minSz : Nat) (raw : Option Nat) : Heap × Option Nat :=
  match raw with
  | none => (h, none)
  | some addr =>
    let chunk := extendChunk a minSz
    let h := { h with hdr := update h.hdr (addr + chunk - hdrSz) allocBit }
    (setHdr h addr (subW 32 chunk hdrSz) false, some addr)

def coalesceRight (a : Arch) (h : Heap) (b : Nat) : Heap :=
  let next := blkNext h b
  if blkIsAlloc h next then h
  else
    let h := flRemove a h next
    setHdr h b (addW 32 (blkSz h b) (blkSz h next)) false

/-- The size of the block `malloc` looks for. -/
def mallocNeed (a : Arch) (size : Nat) : Nat :=
  let need := align8 (addW 32 size hdrSz)
  if need < minBlk a then minBlk a else need

/-- The end of `malloc`: split the block in hand, mark it and count it. -/
def mallocBlock (a : Arch) (h : Heap) (need blk : Nat) : Heap × Nat :=
  let rem := subW 32 (blkSz h blk) need
  let h :=
    if rem ≥ minBlk a then
      let h := setHdr h blk need true
      let lo := blk + need
      flInsert a (setHdr h lo rem false) lo
    else setHdr h blk (blkSz h blk) true
  let quota := addW 32 h.heapQuota (blkSz h blk)
  ({ h with heapQuota := quota, heapQuotaHigh := if quota > h.heapQuotaHigh then quota else h.heapQuotaHigh },
    blk + hdrSz)

inductive MallocResult
  | null
  | ptr (p : Nat)
  /-- No block was found; the caller has released the lock and extends the heap. -/
  | extend (need : Nat)
  deriving DecidableEq

def malloc (a : Arch) (h : Heap) (size : Nat) : Heap × MallocResult :=
  if size = 0 then (h, .null)
  else
    let need := mallocNeed a size
    match findFree a h need with
    | some (h, blk) =>
      let r := mallocBlock a h need blk
      (r.1, .ptr r.2)
    | none => (h, .extend need)

def mallocExtended (a : Arch) (h : Heap) (need : Nat) (raw : Option Nat) : Heap × MallocResult :=
  match extendHeap a h need raw with
  | (h, none) => (h, .null)
  | (h, some blk) =>
    let r := mallocBlock a h need blk
    (r.1, .ptr r.2)

def free (a : Arch) (h : Heap) (ptr : Nat) : Heap :=
  if ptr = 0 then h
  else
    let blk := ptr - hdrSz
    let sz := blkSz h blk
    let h := { h with heapQuota := subW 32 h.heapQuota sz }
    let h := coalesceRight a (setHdr h blk sz false) blk
    flInsert a h blk

/-- `kmalloc_init` on any memory. -/
def kmallocInit (hdr : Nat → Nat) : Heap :=
  { hdr := hdr, bins := fun _ => [], binBitmap := fun _ => 0, heapQuota := 0, heapQuotaHigh := 0 }

end Mos.Kmalloc
