import Mos.Paging.Calls

/-!
# The page protocol

Every call is a sequence of small steps, each of which moves one page or one reference: `Micro`.  Between two small
steps of one call the kernel may itself hold references (`pins`) and pages that have no reference yet (`loose`).  The
small steps say from where a page may come when an entry or a cache takes a reference to it; nothing else about the
calls matters below.

What a run is allowed to do beyond that is a parameter (`Allowed`).
-/

namespace Mos.Paging

open Vm

variable {α : Type}

namespace State

/-- The pages to which a cache or another part of the kernel refers. -/
def shared (s : State α) : List Nat :=
  s.pageCache.map Prod.snd ++ (s.fileShared.map Prod.snd ++ (s.anonShared.map Prod.snd ++ s.held))

/-- The pages to which a page-table entry refers; entries that map physical memory directly do not count. -/
def mapped (s : State α) : List Nat := (s.ptes.filter fun e => !e.direct).map Pte.pfn

def refs (s : State α) : List Nat := s.mapped ++ s.shared

/-- The attributes of the address of an entry. -/
def attr (s : State α) (e : Pte) : Option PageAttr := (s.mm e.space).view e.va

end State

/-- The key under which the page at an address is cached. -/
def Config.keyOf (C : Config) (f : Nat) (offset : UInt64) : Key := ⟨C.fileId f, pageFloor offset⟩

structure Cfg (α : Type) where
  s : State α
  pins : List Nat
  loose : List Nat

structure Allowed (α : Type) where
  store : State α → Pte → Prop
  /-- A new mapping that gives these attributes to an address. -/
  attr : Nat → PageAttr → Prop
  /-- Unmapping an address of a space without writing the page back, after the given events. -/
  forget : List (Event α) → Nat → Nat → Prop
  /-- Dropping pages from the page cache while they are mapped. -/
  invalidate : Prop

def Allowed.all : Allowed α := ⟨fun _ _ => True, fun _ _ => True, fun _ _ _ => True, True⟩

/-- Where a page that is mapped shared and written back must come from. -/
def Backed (C : Config) (s : State α) (t : PageAttr) (p : Nat) : Prop :=
  ∀ f, t.fp = some f → isShared t.flag = true →
    (C.kind (C.fileId f) = .cached → s.pageCache.lookup (C.keyOf f t.offset) = some p) ∧
    (C.kind (C.fileId f) = .uncached → s.fileShared.lookup (C.keyOf f t.offset) = some p)

variable (C : Config) (A : Allowed α)

/-- The conditions on the place of a new entry. -/
structure Place (s : State α) (e : Pte) (t : PageAttr) : Prop where
  absent : s.pte e.space e.va = none
  aligned : pageSize ∣ e.va
  attr : s.attr e = some t
  direct : e.direct = C.isDirect t.fp

inductive Micro : Cfg α → Cfg α → Prop
  | perm {s pins pins' loose loose'} : pins.Perm pins' → loose.Perm loose' → Micro ⟨s, pins, loose⟩ ⟨s, pins', loose'⟩
  -- pages without a reference
  | take {s pins loose p flag} : s.pool.free p = true → Micro ⟨s, pins, loose⟩ ⟨s.take p flag, pins, p :: loose⟩
  | give {s pins loose p} : Micro ⟨s, pins, p :: loose⟩ ⟨s.freeUser p, pins, loose⟩
  | fill {s pins loose p data} : Micro ⟨s, pins, p :: loose⟩ ⟨s.fill p data, pins, p :: loose⟩
  | lose {s pins loose p} : Micro ⟨s, pins, p :: loose⟩ ⟨s.lose p, pins, loose⟩
  | keep {s pins loose p} : Micro ⟨s, pins, p :: loose⟩ ⟨{ s with other := p :: s.other }, pins, loose⟩
  | unkeep {s pins loose p} : p ∈ s.other →
    Micro ⟨s, pins, loose⟩ ⟨{ s with other := s.other.erase p }.freeUser p, pins, loose⟩
  -- references of the kernel
  | hold {s pins loose p} : Micro ⟨s, pins, p :: loose⟩ ⟨{ s with held := p :: s.held }.get p, pins, loose⟩
  | drop {s pins loose p} : p ∈ s.held → p ≠ C.zeroPage →
    Micro ⟨s, pins, loose⟩ ⟨{ s with held := s.held.erase p }.put p, pins, loose⟩
  | pin {s pins loose p} : p ∈ s.shared ∨ 1 < s.pool.count p → Micro ⟨s, pins, loose⟩ ⟨s.get p, p :: pins, loose⟩
  | pinLoose {s pins loose p} : Micro ⟨s, pins, p :: loose⟩ ⟨s.get p, p :: pins, loose⟩
  | unpin {s pins loose p} : Micro ⟨s, p :: pins, loose⟩ ⟨s.put p, pins, loose⟩
  -- caches
  | insert {s pins loose k p} : s.pageCache.lookup k = none →
    Micro ⟨s, pins, p :: loose⟩ ⟨s.cacheInsert k p, pins, loose⟩
  | evict {s pins loose k p} : s.pageCache.lookup k = some p →
    s.pool.count p = 1 ∨ A.invalidate → Micro ⟨s, pins, loose⟩ ⟨s.cacheRemove k p, pins, loose⟩
  | addFile {s pins loose e t f} : e ∈ s.ptes →
    s.attr e = some t → isShared t.flag = true → t.fp = some f → C.kind (C.fileId f) = .uncached →
    Micro ⟨s, pins, loose⟩ ⟨{ s with fileShared := (C.keyOf f t.offset, e.pfn) :: s.fileShared }.get e.pfn, pins,
      loose⟩
  | addAnon {s pins loose e t k} : e ∈ s.ptes → s.attr e = some t → isShared t.flag = true → t.fp = none →
    Micro ⟨s, pins, loose⟩ ⟨{ s with anonShared := (k, e.pfn) :: s.anonShared }.get e.pfn, pins, loose⟩
  | dropAnon {s pins loose k p} : s.anonShared.lookup k = some p →
    Micro ⟨s, pins, loose⟩ ⟨{ s with anonShared := s.anonShared.eraseP fun x => x.1 = k }.put p, pins, loose⟩
  -- entries
  | mark {s pins loose p} : Micro ⟨s, pins, loose⟩ ⟨s.markDirty p, pins, loose⟩
  | map {s pins loose e t} : Place C s e t → e.direct = false →
    e.pfn ∈ pins ∨ e.pfn ∈ s.shared → (isShared t.flag = false → e.writable = false) → Backed C s t e.pfn →
    Micro ⟨s, pins, loose⟩ ⟨s.mapPage e, pins, loose⟩
  | mapLoose {s pins loose e t} : Place C s e t → e.direct = false →
    (isShared t.flag = true → C.kindOf t.fp ≠ some .cached) →
      Micro ⟨s, pins, e.pfn :: loose⟩ ⟨s.mapPage e, pins, loose⟩
  | mapDirect {s pins loose e t} : Place C s e t → e.direct = true →
    e.writable = canWrite t.prot → Micro ⟨s, pins, loose⟩ ⟨s.setPte e, pins, loose⟩
  | replace {s pins loose e t p} :
    s.pte e.space e.va = some e → e.direct = false → s.attr e = some t → isShared t.flag = false →
    Micro ⟨s, pins, p :: loose⟩ ⟨s.mapPage { e with pfn := p, writable := true }, e.pfn :: pins, loose⟩
  | writable {s pins loose e t} : s.pte e.space e.va = some e →
    e.direct = false → s.attr e = some t → isShared t.flag = true ∨ s.pool.count e.pfn ≤ 1 →
    Micro ⟨s, pins, loose⟩ ⟨s.setPte { e with writable := true }, pins, loose⟩
  | unmap {s pins loose e} : s.pte e.space e.va = some e →
    (∀ t, s.attr e = some t → C.flushes t.flag t.fp = true → s.dirty e.pfn = false ∨ A.forget s.log e.space e.va) →
    Micro ⟨s, pins, loose⟩ ⟨(s.clearPte e.space e.va).release e, pins, loose⟩
  | clone {s pins loose e t c r} :
    s.pte e.space e.va = some e → s.pte c e.va = none → s.attr e = some t → (s.mm c).view e.va = some t →
    r.flag = t.flag → r.fp = t.fp → Micro ⟨s, pins, loose⟩ ⟨cloneEntry C c r s e, pins, loose⟩
  -- contents
  | flush {s pins loose e t f} : s.pte e.space e.va = some e →
    s.attr e = some t → t.fp = some f → C.flushes t.flag t.fp = true → Micro ⟨s, pins, loose⟩
      ⟨(s.writePage C (C.fileId f) t.offset (s.bytes e.pfn)).clearDirty e.pfn, pins, loose⟩
  | store {s s' pins loose a addr v} : userStore C s a addr v = some s' →
    (∀ e, s.pte a (pageOf addr) = some e → A.store s e) → Micro ⟨s, pins, loose⟩ ⟨s', pins, loose⟩
  -- regions
  | remap {s pins loose a mm} : MmOk C.arch mm → (∀ e ∈ s.ptes, e.space = a → mm.view e.va = (s.mm a).view e.va) →
    (∀ x t, mm.view x = some t → (∃ b, (s.mm b).view x = some t) ∨ A.attr x t) →
    Micro ⟨s, pins, loose⟩ ⟨s.setMm a mm, pins, loose⟩

end Mos.Paging
