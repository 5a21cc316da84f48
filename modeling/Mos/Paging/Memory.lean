import Mos.Lib.RefCount
import Mos.Vm.View

/-!
# Physical pages, page tables and page caches

The state that `src/mm/impl/pagefault.c`, `mmap.c`, `cache.c`, `phymm.c`, `src/fs/impl/cache.c` and
`arch/x64/mm/impl/mm.c` share: page-table entries of all address spaces, reference counts and free pages, the page
cache of the file system, and the tables of shared pages.

The choices of the rest of the kernel are arguments: which free page an allocation returns and whether it fails, which
cached pages are evicted, whether a page table can be allocated, what a file page contains.  Reference counts do not
wrap.  A byte carries the number of the store that wrote it (`stamp`), zero for bytes that come from a file; `log`
records the stores and the calls of `write_page`.  Neither is read by the code.
-/

namespace Mos.Paging

open Lib Vm Function

/-- How the page faults of a file are served. -/
inductive FileKind
  /-- By its `map_page` hook; `retains` if the hook takes a reference that `map_page_put` drops. -/
  | mapPage (retains : Bool)
  /-- `VM_REGION_F_DIRECT_PHYS`: the file is a window on physical memory. -/
  | directPhys
  /-- Through the page cache of the file system. -/
  | cached
  /-- By `read_page` into a page that only shared mappings share. -/
  | uncached
  deriving DecidableEq

structure Config where
  arch : Arch
  balancing : Balancing VmRegion
  zeroPage : Nat
  /-- The identity of an open file (`vm_same_file_identity`). -/
  fileId : Nat → Nat
  kind : Nat → FileKind

/-- A present page-table entry, with `direct` for `PAGE_ENTRY_DIRECT_PHYS`. -/
structure Pte where
  space : Nat
  va : Nat
  pfn : Nat
  writable : Bool
  direct : Bool
  deriving DecidableEq

/-- Whether the entry is the one of address `va` in `space`. -/
def Pte.isAt (space va : Nat) (e : Pte) : Bool := e.space = space && e.va = va

/-- The key of a page of a file; the offset is that of the page. -/
structure Key where
  file : Nat
  offset : UInt64
  deriving DecidableEq

/-- `offset & ~(PAGE_SIZE - 1)`. -/
def pageFloor (offset : UInt64) : UInt64 := offset - offset % 4096

/-- The key of a page of a shared anonymous mapping, with `ANON_SHARED_BIT` in the identifier. -/
def anonKey (anonId : Nat) (offset : UInt64) : Nat × UInt64 := (anonId ||| 0x80000000, offset)

structure Byte (α : Type) where
  stamp : Nat
  val : α
  deriving DecidableEq

inductive Event (α : Type)
  /-- A store at byte `pos` of the page that `space` has mapped at `va`, shared, from `offset` of `file`. -/
  | store (space va pos file : Nat) (offset : UInt64) (stamp : Nat)
  | writePage (file : Nat) (offset : UInt64) (data : Nat → Byte α)

structure State (α : Type) where
  mm : Nat → MmStruct
  ptes : List Pte
  pool : Pool Nat
  dirty : Nat → Bool
  bytes : Nat → Nat → Byte α
  pageCache : List (Key × Nat)
  fileShared : List (Key × Nat)
  anonShared : List ((Nat × UInt64) × Nat)
  /-- Pages on which other parts of the kernel hold a reference, the zero page among them. -/
  held : List Nat
  /-- Pages that other parts of the kernel use without a reference. -/
  other : List Nat
  /-- Pages that nothing refers to and nothing frees. -/
  lost : List Nat
  clock : Nat
  log : List (Event α)

variable {α : Type}

namespace State

/-- `phymm_reference_page`. -/
def get (s : State α) (p : Nat) : State α := { s with pool := s.pool.get p }

/-- `phymm_dereference_page`, and `phymm_free_user` if the count drops to zero. -/
def put (s : State α) (p : Nat) : State α := { s with pool := s.pool.put p }

/-- `phymm_free_user`. -/
def freeUser (s : State α) (p : Nat) : State α := { s with pool := s.pool.give p }

/-- The allocator hands out `p`.  Freeing resets the flags of the head of the block only, so that `p` can come with
either value of the dirty flag. -/
def take (s : State α) (p : Nat) (flag : Bool) : State α :=
  { s with pool := s.pool.take p, dirty := update s.dirty p flag }

def fill (s : State α) (p : Nat) (data : Nat → Byte α) : State α := { s with bytes := update s.bytes p data }

/-- `phymm_mark_dirty`. -/
def markDirty (s : State α) (p : Nat) : State α := { s with dirty := update s.dirty p true }

/-- `p` stays allocated with no reference to it. -/
def lose (s : State α) (p : Nat) : State α := { s with lost := p :: s.lost }

def pte (s : State α) (space va : Nat) : Option Pte := s.ptes.find? (Pte.isAt space va)

/-- Write an entry at its place. -/
def setPte (s : State α) (e : Pte) : State α := { s with ptes := e :: s.ptes.eraseP (Pte.isAt e.space e.va) }

def clearPte (s : State α) (space va : Nat) : State α := { s with ptes := s.ptes.eraseP (Pte.isAt space va) }

/-- `mm_map_page` with a page, once the page tables are there. -/
def mapPage (s : State α) (e : Pte) : State α := (s.setPte e).get e.pfn

def release (s : State α) (e : Pte) : State α :=
  if e.direct then s else if s.pool.owns e.pfn && 0 < s.pool.count e.pfn then s.put e.pfn else s

/-- `mm_unmap_page`. -/
def unmapPage (s : State α) (space va : Nat) : State α :=
  match s.pte space va with
  | none => s
  | some e => (s.clearPte space va).release e

/-- `fs_page_cache_remove`. -/
def cacheRemove (s : State α) (k : Key) (p : Nat) : State α :=
  { s with pageCache := s.pageCache.eraseP fun x => x.1 = k }.put p

/-- `fs_page_cache_evict_one_unsafe`, at the page that it finds. -/
def evictOne (s : State α) (k : Key) : State α :=
  match s.pageCache.lookup k with
  | none => s
  | some p => if s.pool.count p = 1 then s.cacheRemove k p else s

/-- `mm_file_shared_add`. -/
def fileSharedAdd (s : State α) (k : Key) (p : Nat) : State α :=
  match s.fileShared.lookup k with
  | some _ => s
  | none => { s with fileShared := (k, p) :: s.fileShared }.get p

/-- `mm_anon_shared_add`. -/
def anonSharedAdd (s : State α) (k : Nat × UInt64) (p : Nat) : State α :=
  match s.anonShared.lookup k with
  | some _ => s
  | none => { s with anonShared := (k, p) :: s.anonShared }.get p

/-- Another part of the kernel frees a page that it used. -/
def releaseOther (s : State α) (p : Nat) : State α :=
  if p ∈ s.other then { s with other := s.other.erase p }.freeUser p else s

end State

/-- The outcome of an allocation: what `phymm_reclaim_user_cache` frees, from the page cache and from the block cache,
and the page that is returned. -/
structure Grant where
  reclaimed : List Key
  released : List Nat
  page : Option Nat
  flag : Bool

/-- `phymm_alloc_user`, tried again after `phymm_reclaim_user_cache`; likewise `phymm_alloc_cache`. -/
def State.alloc (s : State α) (g : Grant) : State α × Option Nat :=
  let s := g.released.foldl State.releaseOther (g.reclaimed.foldl State.evictOne s)
  match g.page with
  | none => (s, none)
  | some p => if s.pool.free p then (s.take p g.flag, some p) else (s, none)

/-- `flag & MAP_SHARED`. -/
def isShared (flag : Int) : Bool := flag % 2 = 1

/-- `prot & PROT_WRITE`. -/
def canWrite (prot : Int) : Bool := prot / 2 % 2 = 1

namespace Config

variable (C : Config)

/-- How the file of a region is served; none for anonymous memory. -/
def kindOf (fp : Option Nat) : Option FileKind := fp.map fun f => C.kind (C.fileId f)

/-- `vm_region_flags_for_file`. -/
def isDirect (fp : Option Nat) : Bool := C.kindOf fp = some .directPhys

/-- A mapping that `vm_flush_dirty_region` writes back. -/
def flushes (flag : Int) (fp : Option Nat) : Bool :=
  isShared flag && (C.kindOf fp = some .cached || C.kindOf fp = some .uncached)

end Config

end Mos.Paging
