import Mos.Lib.RefCount
import Mos.Lib.SearchTree
import Mathlib.Algebra.Group.Nat.Defs

/-!
# The page cache of the file systems: tree, list and references

`src/fs/impl/cache.c` over the page allocator.  A cached page is an entry of a search tree by file and offset and of a
list in the order of use; the cache holds one reference on it, and every `fs_page_cache_get`, probe and mapping one
more.  What is done under `fs_page_cache_lock` is one step, and so is a call of the allocator.  A get that misses
takes several: it drops the lock to make room and to read the page, and looks again before it inserts.

A reference may be copied by whoever has one (a page table entry, a fork) and is given back by `fs_page_cache_put`;
the other users of the allocator take pages of their own.
-/

namespace Mos.FsCache

open Lib

def pageSize : Nat := 4096

structure Key where
  tag : Nat
  ino : Nat
  offset : Nat
  deriving DecidableEq

structure Entry where
  key : Key
  phy : Nat
  deriving DecidableEq

/-- `fs_page_cache_key_comp`. -/
def keyComp (k k' : Key) : Ordering :=
  if k.tag < k'.tag then .lt
  else if k.tag > k'.tag then .gt
  else if k.ino < k'.ino then .lt
  else if k.ino > k'.ino then .gt
  else if k.offset < k'.offset then .lt
  else if k.offset > k'.offset then .gt
  else .eq

/-- What the cache looks at of an open file: `i_pgcache_tag` (0 if there is none), `i_ino`, and if it has a
`read_page`. -/
structure File where
  tag : Nat
  ino : Nat
  readPage : Bool

/-- `fs_page_cache_can_use`. -/
def File.canUse (fp : File) : Bool := fp.tag ≠ 0 && fp.readPage

/-- The entry is one of the file. -/
def Entry.isOf (e : Entry) (fp : File) : Bool := e.key.tag = fp.tag && e.key.ino = fp.ino

/-- Where a `fs_page_cache_get` that missed is. -/
inductive Stage
  | missed
  | trimmed
  | loaded (phy : Nat)
  deriving DecidableEq

structure Get where
  task : Nat
  key : Key
  stage : Stage
  deriving DecidableEq

structure State (α : Type*) where
  /-- `fs_page_cache_ready`. -/
  ready : Bool
  tree : Lib.Tree Entry
  lru : List Entry
  /-- `fs_page_cache_pages`. -/
  pages : Nat
  pool : Pool Nat
  mem : Nat → Nat → α
  /-- The gets that missed and have not returned. -/
  gets : List Get
  /-- The references that were handed out and not given back. -/
  held : List Nat

variable {α : Type*}

def State.init (owns : Nat → Bool) (mem : Nat → Nat → α) : State α :=
  ⟨false, .leaf, [], 0, ⟨fun _ => 0, owns, owns⟩, mem, [], []⟩

/-- `fs_page_cache_ensure_init`. -/
def State.ensureInit (s : State α) : State α := if s.ready then s else { s with tree := .leaf, lru := [], ready :=
    true }

def pageOf (offset : Nat) : Nat := offset - offset % pageSize

/-- `fs_page_cache_find`. -/
def State.find (s : State α) (key : Key) : Option Entry := s.tree.find fun e => keyComp key e.key

section balancing

variable (bal : Balancing Entry)

/-- `fs_page_cache_insert`: equal keys go to the right. -/
def State.insert (s : State α) (e : Entry) : State α :=
  match s.tree.insert (fun x => if keyComp e.key x.key = .lt then .lt else .gt) e with
  | some tree => { s with tree := bal.insertColor tree }
  | none => s

/-- `fs_page_cache_remove`; with the number of pages freed. -/
def State.remove (s : State α) (e : Entry) : Nat × State α :=
  let pool := s.pool.put e.phy
  (if pool.count e.phy = 0 then 1 else 0, { s with tree := bal.erase s.tree e, pool := pool, pages := s.pages - 1 })

/-- `fs_page_cache_evict_one_unsafe`: the first page of the list on which nobody else has a reference. -/
def State.evictOne (s : State α) : Nat × State α :=
  match s.lru.find? fun e => s.pool.count e.phy = 1 with
  | some e => { s with lru := s.lru.erase e }.remove bal e
  | none => (0, s)

/-- The loop of `fs_page_cache_get` that keeps the cache within its budget. -/
def State.trim (filePages : Nat) : Nat → State α → State α
  | 0, s => s
  | n + 1, s => if s.pages ≥ filePages then State.trim filePages n (s.evictOne bal).2 else s

/-- The loop of `fs_page_cache_reclaim` for the pages that are still to be freed. -/
def State.reclaim : Nat → State α → State α
  | 0, s => s
  | n + 1, s =>
    if s.lru.isEmpty then s
    else if (s.evictOne bal).1 = 0 then (s.evictOne bal).2
    else State.reclaim n (s.evictOne bal).2

/-- The entry becomes the most recently used one. -/
def State.touch (s : State α) (e : Entry) : State α := { s with lru := s.lru.erase e ++ [e] }

/-- A reference on a page is handed out. -/
def State.hold (s : State α) (p : Nat) : State α := { s with pool := s.pool.get p, held := p :: s.held }

/-- The loop of `fs_page_cache_get_cached_range`, with the pages found. -/
def State.probe (tag ino : Nat) : Nat → Nat → State α → List Nat × State α
  | 0, _, s => ([], s)
  | n + 1, offset, s =>
    match s.find ⟨tag, ino, offset⟩ with
    | none => State.probe tag ino n ((offset + pageSize) % 2 ^ 64) s
    | some e =>
      let r := State.probe tag ino n ((offset + pageSize) % 2 ^ 64) ((s.hold e.phy).touch e)
      (e.phy :: r.1, r.2)

/-- The bytes of one round of the loop of `fs_page_cache_update`. -/
def updateCount (offset size : Nat) : Nat :=
  if pageSize - offset % pageSize > size then size else pageSize - offset % pageSize

/-- One round: the bytes go to the page if it is cached and `mm_kmap_phys` maps it. -/
def State.updatePage (s : State α) (tag ino : Nat) (mapped : Nat → Bool) (data : Nat → α) (offset count : Nat) :
    Nat → Nat → α :=
  match s.find ⟨tag, ino, pageOf offset⟩ with
  | some e =>
    if mapped e.phy then
      Function.update s.mem e.phy fun b =>
        if offset % pageSize ≤ b ∧ b < offset % pageSize + count then data (b - offset % pageSize) else s.mem e.phy b
    else s.mem
  | none => s.mem

theorem updateCount_pos (offset : Nat) {size : Nat} (h : size ≠ 0) : 0 < updateCount offset size := by
  have := Nat.mod_lt offset (show 0 < pageSize by decide)
  unfold updateCount
  split_ifs <;> omega

/-- The loop of `fs_page_cache_update` for `size` bytes from `offset` on. -/
def State.update (s : State α) (tag ino : Nat) (mapped : Nat → Bool) (data : Nat → α) (offset size : Nat) : State α :=
  if h : size = 0 then s
  else
    let count := updateCount offset size
    State.update { s with mem := s.updatePage tag ino mapped data offset count } tag ino mapped
      (fun i => data (i + count)) ((offset + count) % 2 ^ 64) (size - count)
termination_by size
decreasing_by
  have := updateCount_pos offset h
  omega

/-- The seek of `fs_page_cache_invalidate`: the first entry at or after a key. -/
def State.first (s : State α) (key : Key) : Option Entry :=
  s.tree.lowerBound (fun e => if keyComp key e.key = .gt then .gt else .lt) none

/-- The loop of `fs_page_cache_invalidate`; an entry leaves the list and the tree after its successor was found. -/
def State.invalidateLoop (fp : File) : Nat → Option Entry → State α → State α
  | 0, _, s => s
  | _ + 1, none, s => s
  | n + 1, some e, s =>
    if e.isOf fp then
      State.invalidateLoop fp n (s.tree.next e) ({ s with lru := s.lru.erase e }.remove bal e).2
    else s

def State.invalidate (s : State α) (fp : File) : State α :=
  State.invalidateLoop bal fp (s.tree.toList.length + 1) (s.first ⟨fp.tag, fp.ino, 0⟩) s

inductive Op (α : Type*)
  | get (task : Nat) (fp : File) (offset : Nat)
  | trim (g : Get) (filePages : Nat)
  | load (g : Get) (p : Nat) (bytes : Nat → α)
  | loadFail (g : Get)
  | insert (g : Get) (alloc : Bool)
  | probe (fp : File) (offset count : Nat)
  | put (p : Nat)
  | update (fp : File) (mapped : Nat → Bool) (data : Nat → α) (offset size : Nat)
  | invalidate (fp : File)
  | reclaim (target : Nat)
  | ref (p : Nat)
  | alloc (p : Nat)

def State.setStage (s : State α) (g : Get) (stage : Stage) : State α :=
  { s with gets := { g with stage := stage } :: s.gets.erase g }

def State.finish (s : State α) (g : Get) : State α := { s with gets := s.gets.erase g }

/-- `fs_page_cache_get` up to the lookup. -/
def State.getPage (s : State α) (task : Nat) (fp : File) (offset : Nat) : List Nat × State α :=
  if fp.canUse then
    let s := s.ensureInit
    let key : Key := ⟨fp.tag, fp.ino, pageOf offset⟩
    match s.find key with
    | some e => ([e.phy], (s.touch e).hold e.phy)
    | none => ([], { s with gets := ⟨task, key, .missed⟩ :: s.gets })
  else ([], s)

/-- `fs_page_cache_get` from the second lookup on; `alloc` if there is memory for an entry. -/
def State.insertPage (s : State α) (key : Key) (p : Nat) (alloc : Bool) : List Nat × State α :=
  match s.find key with
  | some e => ([e.phy], { s.hold e.phy with pool := (s.hold e.phy).pool.give p })
  | none =>
    if alloc then
      let e : Entry := ⟨key, p⟩
      let s := { s with lru := s.lru ++ [e] }.insert bal e
      let s := { s with pool := s.pool.get p }
      let s := s.hold p
      ([p], { s with pages := s.pages + 1 })
    else ([], { s with pool := s.pool.give p })

/-- A step, if it can be taken, with the references that it hands out. -/
def exec (s : State α) : Op α → Option (List Nat × State α)
  | .get task fp offset => some (s.getPage task fp offset)
  | .trim g filePages =>
    if g ∈ s.gets ∧ g.stage = .missed then some ([], (s.trim bal filePages 32).setStage g .trimmed) else none
  | .load g p bytes =>
    if g ∈ s.gets ∧ g.stage = .trimmed ∧ s.pool.free p then
      some ([], { s with pool := s.pool.take p, mem := Function.update s.mem p bytes }.setStage g (.loaded p))
    else none
  | .loadFail g =>
    if g ∈ s.gets then
      match g.stage with
      | .missed => none
      | .trimmed => some ([], s.finish g)
      | .loaded p => some ([], { s with pool := s.pool.give p }.finish g)
    else none
  | .insert g alloc =>
    if g ∈ s.gets then
      match g.stage with
      | .loaded p => some ((s.finish g).insertPage bal g.key p alloc)
      | _ => none
    else none
  | .probe fp offset count =>
    if s.ready ∧ fp.canUse then some (s.probe fp.tag fp.ino count (pageOf offset)) else some ([], s)
  | .put p => if p ∈ s.held then some ([], { s with pool := s.pool.put p, held := s.held.erase p }) else none
  | .update fp mapped data offset size =>
    if s.ready ∧ fp.canUse then some ([], s.update fp.tag fp.ino mapped data offset size) else some ([], s)
  | .invalidate fp => if fp.canUse ∧ s.ready then some ([], s.invalidate bal fp) else some ([], s)
  | .reclaim target => if s.ready ∧ target ≠ 0 then some ([], s.reclaim bal target) else some ([], s)
  | .ref p => if p ∈ s.held then some ([p], s.hold p) else none
  | .alloc p => if s.pool.free p then some ([p], { s with pool := s.pool.take p }.hold p) else none

def Step (s : State α) (e : Op α × List Nat) (s' : State α) : Prop := exec bal s e.1 = some (e.2, s')

end balancing

end Mos.FsCache
