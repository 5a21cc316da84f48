import Mos.Lib.Cover
import Mos.Lib.SearchTree
import Mathlib.Algebra.Group.Nat.Defs

/-!
# The region map of an address space

`src/mm/impl/mmap.c`: a process's mappings are disjoint regions in a red-black tree whose comparator calls two
overlapping ranges equal, so that a lookup is an overlap query.  The operations below follow the source statement by
statement; what they do to page tables, files and reference counts is left out, since none of it feeds back into the
tree.

Loops are bounded by `fuel` and answer `none` when it runs out.  Rebalancing is a parameter `B : Balancing VmRegion`.
-/

namespace Mos.Vm

open Lib

def pageSize : Nat := 4096

/-- Round an address down to its page: `addr & PAGE_SIZE_MASK`. -/
def pageOf (addr : Nat) : Nat := addr / pageSize * pageSize

/-- The constants of an architecture that the region code reads. -/
structure Arch where
  vaddrBits : Nat
  nativeTaskSize : Nat
  deviceIo : Option (Nat × Nat)
  bits_ge : 12 ≤ vaddrBits
  task_aligned : pageSize ∣ nativeTaskSize
  task_lt : nativeTaskSize < 2 ^ vaddrBits

def x64 : Arch where
  vaddrBits := 64
  nativeTaskSize := 0x0000800000000000
  deviceIo := some (0xC0000000, 0x100000000)
  bits_ge := by decide
  task_aligned := by decide
  task_lt := by decide

/-- `arch_mm_user_range_valid`. -/
def Arch.userRangeValid (arch : Arch) (address length : Nat) : Bool :=
  if address ≥ arch.nativeTaskSize ∨ length > arch.nativeTaskSize - address then false
  else match arch.deviceIo with
    | none => true
    | some (ioBegin, ioEnd) => !(address < ioEnd ∧ address + length > ioBegin)

/-- `struct _vm_region`, with `stop` for its `end`; a `fault_lock` and a `file` are known by their addresses. -/
structure VmRegion where
  begin : Nat
  stop : Nat
  prot : Int
  flag : Int
  fp : Option Nat
  offset : UInt64
  anonId : Nat
  faultLock : Nat
  deriving DecidableEq

structure VmKey where
  begin : Nat
  stop : Nat

def VmRegion.key (r : VmRegion) : VmKey := ⟨r.begin, r.stop⟩

/-- `vm_region_compare`: ranges that overlap compare equal. -/
def vmRegionCompare (key₁ key₂ : VmKey) : Ordering :=
  if key₁.stop ≤ key₂.begin then .lt
  else if key₁.begin ≥ key₂.stop then .gt
  else .eq

structure MmStruct where
  vmaIndex : Lib.Tree VmRegion
  vmaGeneration : UInt32
  taskSize : Nat

def MmStruct.regions (mm : MmStruct) : List VmRegion := mm.vmaIndex.toList

section Tree

variable (B : Balancing VmRegion)

def vmTreeFind (mm : MmStruct) (key : VmKey) : Option VmRegion :=
  mm.vmaIndex.find fun r => vmRegionCompare key r.key

/-- `vm_tree_insert`; a region that overlaps a present one is not inserted. -/
def vmTreeInsert (mm : MmStruct) (region : VmRegion) : MmStruct :=
  match mm.vmaIndex.insert (fun r => vmRegionCompare region.key r.key) region with
  | none => mm
  | some t => { mm with vmaIndex := B.insertColor t, vmaGeneration := mm.vmaGeneration + 1 }

def vmTreeRemove (mm : MmStruct) (region : VmRegion) : MmStruct :=
  { mm with vmaIndex := B.erase mm.vmaIndex region, vmaGeneration := mm.vmaGeneration + 1 }

/-- `vm_find_region`: the end of the probe wraps at the last page. -/
def vmFindRegion (arch : Arch) (mm : MmStruct) (addr : Nat) : Option VmRegion :=
  vmTreeFind mm ⟨pageOf addr, (pageOf addr + pageSize) % 2 ^ arch.vaddrBits⟩

/-- `vm_find_vma`: the first region that ends above `addr`. -/
def vmFindVma (mm : MmStruct) (addr : Nat) : Option VmRegion :=
  mm.vmaIndex.lowerBound
    (fun r => if pageOf addr < r.begin then .lt else if pageOf addr ≥ r.stop then .gt else .eq) none

end Tree

/-- The arguments of `vm_add_map_with_lock`; a null `fault_lock` asks for a new one. -/
structure MapArgs where
  begin : Nat
  stop : Nat
  prot : Int
  flag : Int
  fp : Option Nat
  offset : UInt64
  anonId : Nat
  faultLock : Option Nat

/-- The region that `vm_add_map_with_lock` builds; `fresh` is the lock that `vm_fault_lock_new` would return. -/
def MapArgs.region (a : MapArgs) (fresh : Nat) : VmRegion :=
  { begin := a.begin, stop := a.stop, prot := a.prot, flag := a.flag, fp := a.fp, offset := a.offset,
    anonId := a.anonId, faultLock := a.faultLock.getD fresh }

/-- The arguments that re-insert the part `[begin, stop)` of region `o`, with its own lock and the offset moved along
with `begin`. -/
def VmRegion.part (o : VmRegion) (begin stop : Nat) (prot : Int) : MapArgs :=
  { begin := begin, stop := stop, prot := prot, flag := o.flag, fp := o.fp,
    offset := o.offset + UInt64.ofNat (begin - o.begin), anonId := o.anonId, faultLock := some o.faultLock }

section Operations

variable (arch : Arch) (B : Balancing VmRegion) (fresh : Nat)

/-- `vm_add_map_with_lock`: resolve one conflict after another, then insert. -/
def vmAddMapWithLock : Nat → MmStruct → MapArgs → Option MmStruct
  | 0, _, _ => none
  | fuel + 1, mm, a =>
    match vmTreeFind mm ⟨a.begin, a.stop⟩ with
    | none => some (vmTreeInsert B mm (a.region fresh))
    | some o => do
      let mm := vmTreeRemove B mm o
      let mm ← (if o.begin < a.begin then vmAddMapWithLock fuel mm (o.part o.begin a.begin o.prot) else some mm)
      let mm ← (if o.stop > a.stop then vmAddMapWithLock fuel mm (o.part a.stop o.stop o.prot) else some mm)
      vmAddMapWithLock fuel mm a

def vmAddMap (fuel : Nat) (mm : MmStruct) (a : MapArgs) : Option MmStruct :=
  vmAddMapWithLock B fresh fuel mm { a with faultLock := none }

/-- The loop of `vm_mprotect`, with the probe at `probe`. -/
def vmMprotectLoop (begin stop : Nat) (newProt : Int) : Nat → MmStruct → Nat → Option MmStruct
  | 0, _, _ => none
  | fuel + 1, mm, probe =>
    match vmFindVma mm probe with
    | none => some mm
    | some o =>
      if o.begin < stop then do
        let updBegin := if o.begin > begin then o.begin else begin
        let updEnd := if o.stop < stop then o.stop else stop
        let mm := vmTreeRemove B mm o
        let mm ← (if o.begin < updBegin
          then vmAddMapWithLock B fresh (fuel + 1) mm (o.part o.begin updBegin o.prot) else some mm)
        let mm ← vmAddMapWithLock B fresh (fuel + 1) mm (o.part updBegin updEnd newProt)
        let mm ← (if updEnd < o.stop
          then vmAddMapWithLock B fresh (fuel + 1) mm (o.part updEnd o.stop o.prot) else some mm)
        vmMprotectLoop begin stop newProt fuel mm updEnd
      else some mm

def vmMprotect (fuel : Nat) (mm : MmStruct) (begin stop : Nat) (newProt : Int) : Option MmStruct :=
  vmMprotectLoop B fresh begin stop newProt fuel mm begin

/-- The loop of `do_munmap`. -/
def munmapLoop (begin stop : Nat) : Nat → MmStruct → Option MmStruct
  | 0, _ => none
  | fuel + 1, mm =>
    match vmTreeFind mm ⟨begin, stop⟩ with
    | none => some mm
    | some r => do
      let unmapBegin := if r.begin > begin then r.begin else begin
      let unmapEnd := if r.stop < stop then r.stop else stop
      let mm := vmTreeRemove B mm r
      let mm ← (if r.begin < unmapBegin
        then vmAddMapWithLock B fresh (fuel + 1) mm (r.part r.begin unmapBegin r.prot) else some mm)
      let mm ← (if r.stop > unmapEnd
        then vmAddMapWithLock B fresh (fuel + 1) mm (r.part unmapEnd r.stop r.prot) else some mm)
      munmapLoop begin stop fuel mm

def einval : Int := -22

/-- The end that `do_munmap` computes from a start and a length. -/
def munmapEnd (begin length : Nat) : Nat :=
  (begin + ((length + pageSize - 1) % 2 ^ arch.vaddrBits) / pageSize * pageSize) % 2 ^ arch.vaddrBits

def doMunmap (fuel : Nat) (mm : MmStruct) (addr length : Nat) : Option (Int × MmStruct) :=
  let begin := pageOf addr
  if begin ≥ mm.taskSize ∨ length > mm.taskSize - begin then some (einval, mm)
  else if !arch.userRangeValid begin length then some (einval, mm)
  else if length = 0 then some (0, mm)
  else (munmapLoop B fresh begin (munmapEnd arch begin length) fuel mm).map fun mm => (0, mm)

def vmExtendMap (mm : MmStruct) (begin oldEnd newEnd : Nat) : Int × MmStruct :=
  if begin ≥ oldEnd ∨ oldEnd ≥ newEnd then (0, mm)
  else match vmFindRegion arch mm begin with
    | none => (0, mm)
    | some region =>
      if region.begin ≠ begin ∨ region.stop ≠ oldEnd then (0, mm)
      else if (vmTreeFind mm ⟨oldEnd, newEnd⟩).isSome then (0, mm)
      else
        (1, { mm with
          vmaIndex := mm.vmaIndex.map fun r => if r = region then { r with stop := newEnd } else r,
          vmaGeneration := mm.vmaGeneration + 1 })

def vmDelMap (mm : MmStruct) (addr : Nat) : MmStruct :=
  match vmFindRegion arch mm (pageOf addr) with
  | none => mm
  | some region => vmTreeRemove B mm region

end Operations

end Mos.Vm
