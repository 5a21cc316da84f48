import Mos.Lib.Keyed
import Mos.Lib.Run
import Mos.Shm.Create

/-!
# System V shared memory: segments and attachments

`src/syscall/impl/sys_ipc.c`, with fork and exit of the tasks that use it.  A segment and an attachment are records in
fixed tables; the attachments are found by the task that made them and the address.  The calls run one after another,
and the trees and slots of a table are the list of the records in it.

What an address space has attached (`maps`) changes with its mappings: `do_mmap` and `do_munmap` replace and remove
ranges, a fork copies them and the exit of the last task of the space drops them.  The address that `do_mmap` finds
and the pages that the allocator returns are arguments of a call.
-/

namespace Mos.Shm

open Lib Vm Function

def enoent : Int := -2

def efault : Int := -14

def eexist : Int := -17

def enosys : Int := -38

def ipcPrivate : Int := 0

/-- `MOS_SHM_SEGMENT_MAX` and `MOS_SHM_ATTACH_MAX`. -/
def segmentMax : Nat := 32

def attachMax : Nat := 64

structure Segment where
  shmid : Nat
  ns : Nat
  key : Int
  size : Nat
  pages : List (Option Nat)
  removed : Bool
  attachCount : Nat
  deriving DecidableEq

structure Attach where
  shmid : Nat
  owner : Nat
  addr : Nat
  size : Nat
  deriving DecidableEq

/-- A segment at an address of an address space. -/
structure Mapping where
  space : Nat
  addr : Nat
  size : Nat
  shmid : Nat
  deriving DecidableEq

structure State where
  segs : List Segment
  attaches : List Attach
  nextId : Nat
  /-- Pages on which the segments hold a reference. -/
  held : List Nat
  space : Nat → Option Nat
  ns : Nat → Nat
  maps : List Mapping

def State.init (space : Nat → Option Nat) (ns : Nat → Nat) : State := ⟨[], [], 1, [], space, ns, []⟩

def meet (addr size addr' size' : Nat) : Bool := addr < addr' + size' && addr' < addr + size

/-- The mappings of a space that a range meets are gone. -/
def State.unmap (s : State) (space addr size : Nat) : State :=
  { s with maps := s.maps.filter fun m => !(m.space = space && meet m.addr m.size addr size) }

/-- `shm_ids_find`. -/
def State.idsFind (s : State) (shmid : Nat) : Option Segment := s.segs.find? fun g => g.shmid = shmid

/-- `shm_keys_find`; a removed segment is not in the tree. -/
def State.keysFind (s : State) (ns : Nat) (key : Int) : Option Segment :=
  s.segs.find? fun g => g.ns = ns && g.key = key && !g.removed

def State.setSegment (s : State) (g : Segment) : State :=
  { s with segs := replaceKey Segment.shmid s.segs g }

def Segment.frames (g : Segment) : List Nat := g.pages.filterMap id

/-- `mos_shm_destroy_segment`, with `mos_shm_release_pages`. -/
def State.destroySegment (s : State) (g : Segment) : State :=
  { s with segs := removeKey Segment.shmid s.segs g.shmid, held := s.held.diff g.frames }

/-- `sys_shmget`; `alloc` if there is memory for the table of pages. -/
def sysShmget (arch : Kmalloc.Arch) (s : State) (t : Nat) (key : Int) (size : Nat) (creat excl alloc : Bool) :
    Int × State :=
  if size = 0 then (einval, s)
  else
    match if key ≠ ipcPrivate then s.keysFind (s.ns t) key else none with
    | some g =>
      if creat ∧ excl then (eexist, s)
      else if size > g.size then (einval, s)
      else (g.shmid, s)
    | none =>
      if key ≠ ipcPrivate ∧ !creat then (enoent, s)
      else
        match mosShmCreate arch size alloc (s.segs.length < segmentMax) with
        | .error e => (e, s)
        | .ok z =>
          let g : Segment := ⟨s.nextId, s.ns t, key, z.size, List.replicate z.pageCount none, false, 0⟩
          (s.nextId, { s with segs := g :: s.segs, nextId := s.nextId + 1 })

/-- `mos_shm_ensure_page`. -/
def ensurePage (s : State) (g : Segment) (i : Nat) (grant : Option Nat) : Option (State × Segment) :=
  match g.pages[i]? with
  | none => none
  | some (some _) => some (s, g)
  | some none => grant.map fun p =>
    let g := { g with pages := g.pages.set i (some p) }
    ({ s with held := p :: s.held }.setSegment g, g)

/-- The loop of `mos_shm_map_pages` over the page numbers. -/
def mapPages (grants : Nat → Option Nat) (mapOk : Nat → Bool) : List Nat → State → Segment → State × Bool
  | [], s, _ => (s, true)
  | i :: l, s, g =>
    match ensurePage s g i (grants i) with
    | none => (s, false)
    | some (s, g) => if mapOk i then mapPages grants mapOk l s g else (s, false)

/-- What `do_mmap` and the allocators answer. -/
structure AtEnv where
  mapped : Except Int Nat
  grants : Nat → Option Nat
  mapOk : Nat → Bool

def mosShmat (s : State) (t a shmid shmaddr : Nat) (rnd : Bool) (env : AtEnv) : Int × State :=
  if shmaddr ≠ 0 ∧ !rnd ∧ shmaddr % pageSize ≠ 0 then (einval, s)
  else
    match s.idsFind shmid with
    | none => (einval, s)
    | some g =>
      if g.ns ≠ s.ns t ∨ g.removed then (einval, s)
      else if s.attaches.length ≥ attachMax then (enospc, s)
      else
        match env.mapped with
        | .error e => (e, s)
        | .ok mapped =>
          let s := s.unmap a mapped g.size
          match mapPages env.grants env.mapOk (List.range (g.size / pageSize)) s g with
          | (s, false) => (enomem, s)
          | (s, true) =>
            match s.idsFind shmid with
            | none => (einval, s)
            | some g =>
              let s := s.setSegment { g with attachCount := g.attachCount + 1 }
              (mapped, { s with
                attaches := ⟨shmid, t, mapped, g.size⟩ :: s.attaches, maps := ⟨a, mapped, g.size, shmid⟩ :: s.maps })

/-- The address at which `do_mmap` is asked to map; none if it may choose. -/
def fixedAddr (shmaddr : Nat) (rnd : Bool) : Option Nat :=
  if shmaddr = 0 then none else some (if rnd then pageOf shmaddr else shmaddr)

/-- `shm_address_find`. -/
def State.addressFind (s : State) (t addr : Nat) : Option Attach :=
    s.attaches.find? fun r => r.owner = t && r.addr = addr

def sysShmdt (s : State) (t a addr : Nat) : Int × State :=
  match s.addressFind t addr with
  | none => (einval, s)
  | some r =>
    let s := { s with attaches := s.attaches.erase r }
    if r.size = 0 then (einval, s)
    else
      let s := match s.idsFind r.shmid with
        | none => s
        | some g =>
          let g := { g with attachCount := g.attachCount - 1 }
          let s := s.setSegment g
          if g.removed ∧ g.attachCount = 0 then s.destroySegment g else s
      (0, s.unmap a addr r.size)

def shmRemove (s : State) (g : Segment) : State :=
  let g := { g with removed := true }
  let s := s.setSegment g
  if g.attachCount = 0 then s.destroySegment g else s

/-- The commands of `ps_shmctl`. -/
inductive Cmd
  | rmid
  | stat (buf : Bool)
  | other

def psShmctl (s : State) (t shmid : Nat) (cmd : Cmd) : Int × State :=
  match s.idsFind shmid with
  | none => (einval, s)
  | some g =>
    if g.ns ≠ s.ns t then (einval, s)
    else match cmd with
      | .rmid => (0, shmRemove s g)
      | .stat buf => (if buf then 0 else efault, s)
      | .other => (enosys, s)

/-- A fork: the new task `c` gets a copy `b` of the address space. -/
def fork (s : State) (t a c b : Nat) : State :=
  { s with
    space := update s.space c (some b)
    ns := update s.ns c (s.ns t)
    maps := (s.maps.filter fun m => m.space = a).map (fun m => { m with space := b }) ++ s.maps }

/-- A new thread of the same address space. -/
def clone (s : State) (t a c : Nat) : State :=
  { s with space := update s.space c (some a), ns := update s.ns c (s.ns t) }

/-- The exit of a task; `last` if its address space has no other task. -/
def exit (s : State) (t a : Nat) (last : Bool) : State :=
  { s with
    space := update s.space t none
    maps := if last then s.maps.filter fun m => m.space ≠ a else s.maps }

inductive Op
  | shmget (t : Nat) (key : Int) (size : Nat) (creat excl alloc : Bool)
  | shmat (t shmid shmaddr : Nat) (rnd : Bool) (env : AtEnv)
  | shmdt (t addr : Nat)
  | shmctl (t shmid : Nat) (cmd : Cmd)
  | fork (t c b : Nat)
  | clone (t c : Nat)
  | exit (t : Nat) (last : Bool)

def Op.task : Op → Nat
  | .shmget t _ _ _ _ _ | .shmat t _ _ _ _ | .shmdt t _ | .shmctl t _ _ | .fork t _ _ | .clone t _ | .exit t _ => t

/-- The effect of a call by a task of the address space `a`. -/
def exec (arch : Kmalloc.Arch) (s : State) (a : Nat) : Op → Int × State
  | .shmget t key size creat excl alloc => sysShmget arch s t key size creat excl alloc
  | .shmat t shmid shmaddr rnd env => mosShmat s t a shmid shmaddr rnd env
  | .shmdt t addr => sysShmdt s t a addr
  | .shmctl t shmid cmd => psShmctl s t shmid cmd
  | .fork t c b => (0, fork s t a c b)
  | .clone t c => (0, clone s t a c)
  | .exit t last => (0, exit s t a last)

/-- A range of a space that no attached segment meets. -/
def State.Free (s : State) (a addr size : Nat) : Prop := ∀ m ∈ s.maps, m.space = a →
    meet m.addr m.size addr size = false

/-- What the rest of the kernel sees to: `do_mmap` maps at the address it is asked for, or else at one that is free; a
new task has a new number and a fork a new address space; the space is dropped with its last task. -/
def Op.Valid (s : State) (a : Nat) : Op → Prop
  | .shmat _ shmid shmaddr rnd env => ∀ mapped, env.mapped = .ok mapped →
      match fixedAddr shmaddr rnd with
      | some addr => mapped = addr
      | none => ∀ g ∈ s.segs, g.shmid = shmid → s.Free a mapped g.size
  | .fork _ c b => s.space c = none ∧ ∀ t, s.space t ≠ some b
  | .clone _ c => s.space c = none
  | .exit t last => last = true ↔ ∀ t', t' ≠ t → s.space t' ≠ some a
  | _ => True

def Step (arch : Kmalloc.Arch) (s : State) (e : Op × Int) (s' : State) : Prop :=
  ∃ a, s.space e.1.task = some a ∧ e.1.Valid s a ∧ exec arch s a e.1 = (e.2, s')

end Mos.Shm
