import Mos.Paging.Memory

/-!
# Page faults

`src/mm/impl/pagefault.c`.  A fault runs with the mapping lock of its address space and is one step; translations that
the code flushes are gone when it returns.  Execute permissions, cache types and the statistics are left out.
-/

namespace Mos.Paging

open Vm

variable {α : Type}

/-- What the rest of the kernel answers during a fault. -/
structure Choices (α : Type) where
  /-- Pages that `fs_page_cache_get` evicts to keep to its budget. -/
  trim : List Key
  load : Grant
  readOk : Bool
  content : Nat → α
  mallocOk : Bool
  copy : Grant
  copyOk : Bool
  mapOk : Bool
  /-- What `map_page` returns. -/
  hook : Option Nat
  around : Nat → Bool

namespace State

/-- `pf_read_file_page_direct` and `fs_page_cache_load`: read a page of the file into a page of memory. -/
def loadPage (s : State α) (o : Choices α) : State α × Option Nat :=
  match s.alloc o.load with
  | (s, none) => (s, none)
  | (s, some p) => if o.readOk then (s.fill p fun i => ⟨0, o.content i⟩, some p) else (s.freeUser p, none)

/-- Put a page into the page cache, which takes a reference. -/
def cacheInsert (s : State α) (k : Key) (p : Nat) : State α := { s with pageCache := (k, p) :: s.pageCache }.get p

/-- `fs_page_cache_get`: the page, with a reference for the caller, and whether it was cached. -/
def fsPageCacheGet (s : State α) (k : Key) (o : Choices α) : State α × Option (Nat × Bool) :=
  match s.pageCache.lookup k with
  | some p => (s.get p, some (p, true))
  | none =>
    match (o.trim.foldl evictOne s).loadPage o with
    | (s, none) => (s, none)
    | (s, some p) =>
      match s.pageCache.lookup k with
      | some existing => ((s.get existing).freeUser p, some (existing, true))
      | none => if o.mallocOk then ((s.cacheInsert k p).get p, some (p, false)) else (s.freeUser p, none)

end State

/-- `pf_file_page_result`; `loaded` if the page was read for this fault and has no reference. -/
structure FilePage where
  page : Nat
  cacheHit : Bool
  needsSharedRegistration : Bool
  retained : Bool
  loaded : Bool

def pfGetFilePage (s : State α) (kind : FileKind) (k : Key) (shared : Bool) (o : Choices α) :
    State α × Option FilePage :=
  if kind = .cached then
    match s.fsPageCacheGet k o with
    | (s, none) => (s, none)
    | (s, some (p, hit)) => (s, some ⟨p, hit, false, true, false⟩)
  else
    match (if shared then s.fileShared.lookup k else none) with
    | some p => (s, some ⟨p, false, true, false, false⟩)
    | none =>
      match s.loadPage o with
      | (s, none) => (s, none)
      | (s, some p) => (s, some ⟨p, false, shared, false, true⟩)

def pfCopyPrivatePage (s : State α) (source : Nat) (o : Choices α) : State α × Option Nat :=
  match (s.get source).alloc o.copy with
  | (s, none) => (s.put source, none)
  | (s, some p) =>
    if o.copyOk then ((s.fill p (s.bytes source)).put source, some p) else ((s.freeUser p).put source, none)

def fileFaultAroundPages : Nat := 16

/-- The addresses around a fault, within the region, with their keys. -/
def neighbours (va file : Nat) (r : VmRegion) : List (Nat × Key) :=
  let base := va / (fileFaultAroundPages * pageSize) * (fileFaultAroundPages * pageSize)
  let begin := if base < r.begin then r.begin else base
  let stop := if base + fileFaultAroundPages * pageSize > r.stop then r.stop
    else base + fileFaultAroundPages * pageSize
  let offset := pageFloor (r.offset + UInt64.ofNat (begin - r.begin))
  (List.range ((stop - begin) / pageSize)).map fun i =>
    (begin + i * pageSize, ⟨file, offset + UInt64.ofNat (i * pageSize)⟩)

/-- `fs_page_cache_get_cached_range`: the cached pages among the given ones, with a reference to each. -/
def getCachedRange (s : State α) (l : List (Nat × Key)) : State α × List (Nat × Nat) :=
  let pages := l.filterMap fun x => (s.pageCache.lookup x.2).map fun p => (x.1, p)
  (pages.foldl (fun s x => s.get x.2) s, pages)

def pfMapCachedNeighbors (s : State α) (a va file : Nat) (r : VmRegion) (around : Nat → Bool) : State α :=
  let (s, pages) := getCachedRange s (neighbours va file r)
  pages.foldl (fun s x =>
    (if (s.pte a x.1).isNone && around x.1 then s.mapPage ⟨a, x.1, x.2, false, false⟩ else s).put x.2) s

/-! ### Missing pages of a file: `pf_handle_invalid_file_map` -/

/-- The file has a `map_page` hook, which returns a page that its owner holds. -/
def mapHookPage (s : State α) (a va : Nat) (r : VmRegion) (retains write : Bool) (o : Choices α) : State α × Bool :=
  match o.hook with
  | none => (s, false)
  | some source =>
    if source ∈ s.held then
      let s := if retains then s.get source else s
      let mapPagePut := fun s : State α => if retains then s.put source else s
      if write && !isShared r.flag then
        match pfCopyPrivatePage s source o with
        | (s, none) => (mapPagePut s, false)
        | (s, some p) =>
          if o.mapOk then (mapPagePut (s.mapPage ⟨a, va, p, true, false⟩), true)
          else ((mapPagePut s).freeUser p, false)
      else if o.mapOk then
        (mapPagePut (s.mapPage ⟨a, va, source, canWrite r.prot && isShared r.flag, false⟩), true)
      else (mapPagePut s, false)
    else (s, false)

/-- The file is a window on physical memory. -/
def mapDirectPage (s : State α) (a va : Nat) (r : VmRegion) (offset : UInt64) (o : Choices α) : State α × Bool :=
  if o.mapOk then (s.setPte ⟨a, va, offset.toNat / pageSize, canWrite r.prot, true⟩, true) else (s, false)

/-- The page comes from a cache or is read. -/
def mapFilePage (s : State α) (a va : Nat) (r : VmRegion) (kind : FileKind) (k : Key) (write : Bool) (o : Choices α) :
    State α × Bool :=
  match pfGetFilePage s kind k (isShared r.flag) o with
  | (s, none) => (s, false)
  | (s, some page) =>
    let fsPageCachePut := fun s : State α => if page.retained then s.put page.page else s
    if write && !isShared r.flag then
      match pfCopyPrivatePage s page.page o with
      | (s, none) => (fsPageCachePut s, false)
      | (s, some p) =>
        if o.mapOk then (fsPageCachePut (s.mapPage ⟨a, va, p, true, false⟩), true)
        else (fsPageCachePut (s.freeUser p), false)
    else
      -- Shared file pages become writable only after dirty accounting.
      let s := if write then s.markDirty page.page else s
      if o.mapOk then
        let s := s.mapPage ⟨a, va, page.page, write, false⟩
        let s := if isShared r.flag && page.needsSharedRegistration then s.fileSharedAdd k page.page else s
        let s := if !write && page.cacheHit && page.retained then pfMapCachedNeighbors s a va k.file r o.around else s
        (fsPageCachePut s, true)
      -- A page that was read for this fault is neither mapped nor freed.
      else (if page.loaded then s.lose page.page else fsPageCachePut s, false)

def pfHandleInvalidFileMap (C : Config) (s : State α) (a va : Nat) (r : VmRegion) (f : Nat) (offset : UInt64)
    (write : Bool) (o : Choices α) : State α × Bool :=
  match C.kind (C.fileId f) with
  | .mapPage retains => mapHookPage s a va r retains write o
  | .directPhys => mapDirectPage s a va r offset o
  | kind => mapFilePage s a va r kind ⟨C.fileId f, pageFloor offset⟩ write o

/-- `vm_find_map_cached`. -/
def regionAt (s : State α) (a va : Nat) : Option VmRegion :=
  match vmFindVma (s.mm a) va with
  | some r => if r.begin ≤ va ∧ va < r.stop then some r else none
  | none => none

def wpPageCopy (s : State α) (e : Pte) (o : Choices α) : State α × Bool :=
  match pfCopyPrivatePage s e.pfn o with
  | (s, none) => (s, false)
  | (s, some p) =>
    if o.mapOk then ((s.mapPage { e with pfn := p, writable := true }).put e.pfn, true) else (s.freeUser p, false)

def doWpPage (s : State α) (a va : Nat) (o : Choices α) : State α × Bool :=
  match regionAt s a va with
  | none => (s, false)
  | some r =>
    if !canWrite r.prot then (s, false)
    else match s.pte a va with
      | none => (s, false)
      | some e =>
        if e.writable then (s, true)
        else if isShared r.flag then
          let s := s.setPte { e with writable := true }
          (if r.fp.isSome then s.markDirty e.pfn else s, true)
        else if s.pool.count e.pfn > 1 then wpPageCopy s e o
        else (s.setPte { e with writable := true }, true)

variable [Zero α]

def zeros : Nat → Byte α := fun _ => ⟨0, 0⟩

/-- `mm_map_page` with a new page, and `memset`; used for anonymous memory. -/
def mapNewPage (s : State α) (a va : Nat) (o : Choices α) : State α × Option Nat :=
  match s.alloc o.copy with
  | (s, none) => (s, none)
  | (s, some p) => if o.mapOk then ((s.mapPage ⟨a, va, p, true, false⟩).fill p zeros, some p) else (s.freeUser p,
      none)

def pfHandleInvalidMemory (C : Config) (s : State α) (a va : Nat) (r : VmRegion) (offset : UInt64) (o : Choices α) :
    State α × Bool :=
  if isShared r.flag && r.anonId ≠ 0 then
    match s.anonShared.lookup (anonKey r.anonId offset) with
    | some p => if o.mapOk then (s.mapPage ⟨a, va, p, false, false⟩, true) else (s, false)
    | none =>
      match mapNewPage s a va o with
      | (s, none) => (s, false)
      | (s, some p) => (s.anonSharedAdd (anonKey r.anonId offset) p, true)
  else if canWrite r.prot then
    match mapNewPage s a va o with
    | (s, none) => (s, false)
    | (s, some _) => (s, true)
  else if o.mapOk then (s.mapPage ⟨a, va, C.zeroPage, false, false⟩, true)
  else (s, false)

/-- `pf_handle_page_invalid`.  A fault below the stack is this call after the stack has been extended by
`vm_add_map`. -/
def pfHandlePageInvalid (C : Config) (s : State α) (a va : Nat) (write : Bool) (o : Choices α) : State α × Bool :=
  match regionAt s a va with
  | none => (s, false)
  | some r =>
    if r.prot = 0 || (write && !canWrite r.prot) then (s, false)
    else if (s.pte a va).isSome then (s, true)
    else
      let offset := r.offset + UInt64.ofNat (va - r.begin)
      match r.fp with
      | some f => pfHandleInvalidFileMap C s a va r f offset write o
      | none => pfHandleInvalidMemory C s a va r offset o

/-- `pf_process`: a missing page, or a write to a page that is present. -/
def pfProcess (C : Config) (s : State α) (a addr : Nat) (write : Bool) (o : Choices α) : State α × Bool :=
  let va := pageOf addr
  match s.pte a va with
  | none => pfHandlePageInvalid C s a va write o
  | some _ => if write then doWpPage s a va o else (s, false)

end Mos.Paging
