import Mos.Paging.Fault
import Mos.Vm.Space

/-!
# Calls on address spaces

Fork, the calls that change a region map together with the page tables, write-back, and the steps of the rest of the
kernel that move pages.  `write_page` succeeds.  Loops over regions are bounded by `fuel` and answer `none` when it
runs out; the parts of a region that stay mapped do not meet any other region, and are put back as in
`Vm.vmAddMapWithLock`.
-/

namespace Mos.Paging

open Vm Function

variable {α : Type}

def State.setMm (s : State α) (a : Nat) (mm : MmStruct) : State α := { s with mm := update s.mm a mm }

/-- The pages that the loops over `[begin, stop)` visit. -/
def pageRange (begin stop : Nat) : List Nat :=
  (List.range ((stop - begin + pageSize - 1) / pageSize)).map fun i => begin + i * pageSize

/-- `fs_page_cache_update` for the bytes of one page, which may lie in two pages of the cache. -/
def State.fsPageCacheUpdate (s : State α) (file : Nat) (offset : UInt64) (data : Nat → Byte α) : State α :=
  let within := (offset % 4096).toNat
  let s := match s.pageCache.lookup ⟨file, pageFloor offset⟩ with
    | some q => s.fill q fun i => if within ≤ i then data (i - within) else s.bytes q i
    | none => s
  if within = 0 then s
  else match s.pageCache.lookup ⟨file, pageFloor offset + 4096⟩ with
    | some q => s.fill q fun i => if i < within then data (pageSize - within + i) else s.bytes q i
    | none => s

/-- `write_page`, as `ext4_file_write_page` has it for the files of the page cache. -/
def State.writePage (s : State α) (C : Config) (file : Nat) (offset : UInt64) (data : Nat → Byte α) : State α :=
  let s := { s with log := .writePage file offset data :: s.log }
  if C.kind file = .cached then s.fsPageCacheUpdate file offset data else s

/-- `phymm_clear_dirty`. -/
def State.clearDirty (s : State α) (p : Nat) : State α := { s with dirty := update s.dirty p false }

/-- One round of the loop of `vm_flush_dirty_region`. -/
def flushPage (C : Config) (a file : Nat) (r : VmRegion) (s : State α) (va : Nat) : State α :=
  match s.pte a va with
  | none => s
  | some e =>
    if s.pool.owns e.pfn && s.dirty e.pfn then
      (s.writePage C file (r.offset + UInt64.ofNat (va - r.begin)) (s.bytes e.pfn)).clearDirty e.pfn
    else s

def vmFlushDirtyRegion (C : Config) (s : State α) (a : Nat) (r : VmRegion) (begin stop : Nat) : State α :=
  match r.fp with
  | none => s
  | some f =>
    if C.flushes r.flag r.fp then (pageRange begin stop).foldl (flushPage C a (C.fileId f) r) s else s

def vmFlushAllDirty (C : Config) (s : State α) (a : Nat) : State α :=
  (s.mm a).regions.foldl (fun s r => vmFlushDirtyRegion C s a r r.begin r.stop) s

def vmFlushFileDirty (C : Config) (s : State α) (a f : Nat) : State α :=
  (s.mm a).regions.foldl (fun s r =>
    if r.fp.any fun g => C.fileId g = C.fileId f then vmFlushDirtyRegion C s a r r.begin r.stop else s) s

def unmapRange (s : State α) (a begin stop : Nat) : State α :=
  (pageRange begin stop).foldl (fun s va => s.unmapPage a va) s

section Regions

variable (C : Config) (fresh a : Nat)

def vmAddMap (args : MapArgs) : Nat → State α → Option (State α)
  | 0, _ => none
  | fuel + 1, s =>
    match vmTreeFind (s.mm a) ⟨args.begin, args.stop⟩ with
    | none => some (s.setMm a (vmTreeInsert C.balancing (s.mm a) (args.region fresh)))
    | some o => do
      let unmapBegin := if o.begin > args.begin then o.begin else args.begin
      let unmapEnd := if o.stop < args.stop then o.stop else args.stop
      let s := unmapRange (vmFlushDirtyRegion C s a o unmapBegin unmapEnd) a unmapBegin unmapEnd
      let mm := vmTreeRemove C.balancing (s.mm a) o
      let mm ← (if o.begin < args.begin
        then vmAddMapWithLock C.balancing fresh (fuel + 1) mm (o.part o.begin args.begin o.prot) else some mm)
      let mm ← (if o.stop > args.stop
        then vmAddMapWithLock C.balancing fresh (fuel + 1) mm (o.part args.stop o.stop o.prot) else some mm)
      vmAddMap args fuel (s.setMm a mm)

/-- The loop of `do_munmap`. -/
def munmapLoop (begin stop : Nat) : Nat → State α → Option (State α)
  | 0, _ => none
  | fuel + 1, s =>
    match vmTreeFind (s.mm a) ⟨begin, stop⟩ with
    | none => some s
    | some r => do
      let unmapBegin := if r.begin > begin then r.begin else begin
      let unmapEnd := if r.stop < stop then r.stop else stop
      let s := unmapRange (vmFlushDirtyRegion C s a r unmapBegin unmapEnd) a unmapBegin unmapEnd
      let mm := vmTreeRemove C.balancing (s.mm a) r
      let mm ← (if r.begin < unmapBegin
        then vmAddMapWithLock C.balancing fresh (fuel + 1) mm (r.part r.begin unmapBegin r.prot) else some mm)
      let mm ← (if r.stop > unmapEnd
        then vmAddMapWithLock C.balancing fresh (fuel + 1) mm (r.part unmapEnd r.stop r.prot) else some mm)
      munmapLoop begin stop fuel (s.setMm a mm)

def doMunmap (fuel : Nat) (s : State α) (addr length : Nat) : Option (State α × Int) :=
  let begin := pageOf addr
  if begin ≥ (s.mm a).taskSize ∨ length > (s.mm a).taskSize - begin then some (s, einval)
  else if !C.arch.userRangeValid begin length then some (s, einval)
  else if length = 0 then some (s, 0)
  else (munmapLoop C fresh a begin (munmapEnd C.arch begin length) fuel s).map fun s => (s, 0)

def enomem : Int := -12

/-- The loop of `sys_madvise` for `MADV_DONTNEED`. -/
def madviseLoop (stop : Nat) : Nat → State α → Nat → Int → Option (State α × Int)
  | 0, _, _, _ => none
  | fuel + 1, s, cursor, result =>
    if cursor < stop then
      match vmFindVma (s.mm a) cursor with
      | none => some (s, enomem)
      | some r =>
        if r.begin ≥ stop then some (s, enomem)
        else
          let result := if r.begin > cursor then enomem else result
          let cursor := if r.begin > cursor then r.begin else cursor
          let limit := if r.stop < stop then r.stop else stop
          if C.isDirect r.fp then some (s, einval)
          else
            let s := match r.fp with
              | some f => if isShared r.flag then vmFlushFileDirty C s a f else s
              | none => s
            madviseLoop stop fuel (unmapRange s a cursor limit) limit result
    else some (s, result)

/-- `sys_madvise` with `MADV_DONTNEED`. -/
def sysMadvise (fuel : Nat) (s : State α) (begin length : Nat) : Option (State α × Int) :=
  if begin % pageSize ≠ 0 then some (s, einval)
  else if begin ≥ (s.mm a).taskSize ∨ length > (s.mm a).taskSize - begin ∨ !C.arch.userRangeValid begin length
  then some (s, einval)
  else madviseLoop C a (munmapEnd C.arch begin length) fuel s begin 0

/-- `arch_mm_clone_region` at one present entry of the parent. -/
def cloneEntry (c : Nat) (r : VmRegion) (s : State α) (e : Pte) : State α :=
  let managed := !C.isDirect r.fp && s.pool.owns e.pfn
  let entry := if managed && !isShared r.flag then { e with writable := false } else e
  let s := (s.setPte entry).setPte { entry with space := c }
  if managed then s.get e.pfn else s

/-- The loop of `arch_mm_clone_region`; `leafOk` if the page tables of the child can be allocated. -/
def cloneEntries (c : Nat) (r : VmRegion) (leafOk : Nat → Bool) : List Nat → State α → State α × Bool
  | [], s => (s, true)
  | va :: l, s =>
    match s.pte a va with
    | none => cloneEntries c r leafOk l s
    | some e => if leafOk va then cloneEntries c r leafOk l (cloneEntry C c r s e) else (s, false)

/-- The arguments with which `vm_add_map_clone` copies a region. -/
def cloneArgs (r : VmRegion) : MapArgs :=
  ⟨r.begin, r.stop, r.prot, r.flag, r.fp, r.offset, r.anonId, some r.faultLock⟩

/-- The calls of `copy_vma_callback` on the regions of the parent. -/
def copyVmas (c : Nat) (leafOk : Nat → Bool) : List VmRegion → State α → Option (State α × Bool)
  | [], s => some (s, true)
  | r :: l, s => do
    let mm ← vmAddMapWithLock C.balancing fresh 1 (s.mm c) (cloneArgs r)
    match cloneEntries C a c r leafOk (pageRange r.begin r.stop) (s.setMm c mm) with
    | (s, true) => copyVmas c leafOk l s
    | (s, false) => some (s, false)

/-- `copy_page_range` into a new address space `c`.  After a failure the child is torn down. -/
def copyPageRange (c : Nat) (leafOk : Nat → Bool) (s : State α) : Option (State α × Bool) :=
  copyVmas C fresh a c leafOk (s.mm a).regions
    (s.setMm c { vmaIndex := .leaf, vmaGeneration := 1, taskSize := (s.mm a).taskSize })

end Regions

/-- `release_mm`: `mm_destroy_user_map`, then `vm_tree_destroy`. -/
def releaseMm (s : State α) (a : Nat) : State α :=
  let s := (s.ptes.filter fun e => e.space = a).foldl (fun s e => (s.clearPte e.space e.va).release e) s
  s.setMm a { s.mm a with vmaIndex := .leaf }

/-- `do_exit` of the last task of an address space. -/
def doExit (C : Config) (s : State α) (a : Nat) : State α := releaseMm (vmFlushAllDirty C s a) a

def fsPageCacheInvalidate (s : State α) (file : Nat) : State α :=
  ((s.pageCache.map Prod.fst).filter fun k => k.file = file).foldl (fun s k =>
    match s.pageCache.lookup k with
    | some p => s.cacheRemove k p
    | none => s) s

/-- `mm_anon_shared_put` of the last region with this identifier. -/
def mmAnonSharedPut (s : State α) (anonId : Nat) : State α :=
  ((s.anonShared.map Prod.fst).filter fun k => k.1 = anonId ||| 0x80000000).foldl (fun s k =>
    match s.anonShared.lookup k with
    | some p => { s with anonShared := s.anonShared.eraseP fun x => x.1 = k }.put p
    | none => s) s

/-- A page is allocated and kept with a reference (`vm_alloc`, a driver, a page table) or without one. -/
def allocOther (s : State α) (g : Grant) (counted : Bool) : State α :=
  match s.alloc g with
  | (s, none) => s
  | (s, some p) => if counted then { s with held := p :: s.held }.get p else { s with other := p :: s.other }

def dropHeld (C : Config) (s : State α) (p : Nat) : State α :=
  if p ∈ s.held ∧ p ≠ C.zeroPage then { s with held := s.held.erase p }.put p else s

/-- A store of the user; the entry is present and writable. -/
def userStore (C : Config) (s : State α) (a addr : Nat) (v : α) : Option (State α) :=
  let va := pageOf addr
  let pos := addr % pageSize
  match s.pte a va with
  | none => none
  | some e =>
    if e.writable then
      let stamp := s.clock + 1
      let s := { s.fill e.pfn (update (s.bytes e.pfn) pos ⟨stamp, v⟩) with clock := stamp }
      match regionAt s a va with
      | some r => match r.fp with
        | some f =>
          if C.flushes r.flag r.fp then
            some { s with
              log := .store a va pos (C.fileId f) (r.offset + UInt64.ofNat (va - r.begin)) stamp :: s.log }
          else some s
        | none => some s
      | none => some s
    else none

inductive Op (α : Type)
  | fault (a addr : Nat) (write : Bool) (o : Choices α)
  | store (a addr : Nat) (v : α)
  | fork (a c : Nat) (leafOk : Nat → Bool)
  | mmap (a : Nat) (args : MapArgs)
  | munmap (a addr length : Nat)
  | madvise (a begin length : Nat)
  | flushFile (a f : Nat)
  | flushAll (a : Nat)
  | exit (a : Nat)
  | release (a : Nat)
  /-- `fs_page_cache_read` of one page. -/
  | readFile (file : Nat) (offset : UInt64) (o : Choices α)
  | invalidate (file : Nat)
  | anonPut (anonId : Nat)
  | alloc (g : Grant) (counted : Bool)
  | drop (p : Nat)
  | releaseOther (p : Nat)

/-- The effect of a call; `fresh` is the lock of a new region. -/
def exec [Zero α] (C : Config) (fresh fuel : Nat) (s : State α) : Op α → Option (State α)
  | .fault a addr write o => some (pfProcess C s a addr write o).1
  | .store a addr v => userStore C s a addr v
  | .fork a c leafOk => (copyPageRange C fresh a c leafOk s).map Prod.fst
  | .mmap a args => vmAddMap C fresh a { args with faultLock := none } fuel s
  | .munmap a addr length => (doMunmap C fresh a fuel s addr length).map Prod.fst
  | .madvise a begin length => (sysMadvise C a fuel s begin length).map Prod.fst
  | .flushFile a f => some (vmFlushFileDirty C s a f)
  | .flushAll a => some (vmFlushAllDirty C s a)
  | .exit a => some (doExit C s a)
  | .release a => some (releaseMm s a)
  | .readFile file offset o =>
    if C.kind file = .cached then
      match s.fsPageCacheGet ⟨file, pageFloor offset⟩ o with
      | (s, none) => some s
      | (s, some (p, _)) => some (s.put p)
    else some s
  | .invalidate file => some (fsPageCacheInvalidate s file)
  | .anonPut anonId => some (mmAnonSharedPut s anonId)
  | .alloc g counted => some (allocOther s g counted)
  | .drop p => some (dropHeld C s p)
  | .releaseOther p => some (s.releaseOther p)

/-- What the callers see to: a new mapping has a proper range, and the child of a fork is a new address space. -/
def Op.Valid (C : Config) (s : State α) : Op α → Prop
  | .mmap _ args => RangeOk C.arch args.begin args.stop
  | .fork a c _ => a ≠ c ∧ (s.mm c).regions = [] ∧ ∀ e ∈ s.ptes, e.space ≠ c
  | _ => True

/-- A call that returns. -/
def Step [Zero α] (C : Config) (s : State α) (op : Op α) (s' : State α) : Prop :=
  op.Valid C s ∧ ∃ fresh fuel, exec C fresh fuel s op = some s'

end Mos.Paging
