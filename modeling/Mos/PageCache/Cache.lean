import Mathlib.Tactic

/-!
# The page cache of one file

`src/fs/impl/cache.c` with its ext4 callers in `src/fs/impl/root.c`: tasks read a file through the page cache and
write it by writing the backing file and then updating the pages that are cached.

A byte carries the stamp of the write that stored it; stamps count the writes to the backing file.  A frame is a page
of memory, indexed by position in the file; frames are numbered in the order of allocation and never reused, since a
page is freed only when no task and no cache entry refers to it.  The cache lock is held over each lookup, insertion
and update, so these are single steps; the mount lock (`root_lock_`) is held over a whole write call and over the
reading of a page.
-/

namespace Mos.PageCache

def pageSize : Nat := 4096

structure Byte (α : Type*) where
  stamp : Nat
  val : α

variable {α : Type*}

/-- Page number and frame of each cached page. -/
abbrev Cache := List (Nat × Nat)

/-- `memmove` into a frame. -/
def writeFrame (frames : Nat → Nat → Byte α) (f offset count : Nat) (data : Nat → Byte α) : Nat → Nat → Byte α :=
  Function.update frames f fun b => if offset ≤ b ∧ b < offset + count then data b else frames f b

/-- The bytes of one round of the loop of `fs_page_cache_update`. -/
def updateCount (offset size : Nat) : Nat :=
  if pageSize - offset % pageSize > size then size else pageSize - offset % pageSize

theorem updateCount_spec (offset : Nat) {size : Nat} (h : size ≠ 0) :
    0 < updateCount offset size ∧ updateCount offset size ≤ size ∧
      offset % pageSize + updateCount offset size ≤ pageSize := by
  have := Nat.mod_lt offset (show 0 < pageSize by decide)
  unfold updateCount
  split_ifs <;> omega

/-- One round: write to the page if it is cached and `mm_kmap_phys` maps it. -/
def updatePage (cache : Cache) (mapped : Nat → Bool) (data : Nat → Byte α) (frames : Nat → Nat → Byte α)
    (offset count : Nat) : Nat → Nat → Byte α :=
  match cache.lookup (offset / pageSize) with
  | some f => if mapped (offset / pageSize) then writeFrame frames f offset count data else frames
  | none => frames

/-- The loop of `fs_page_cache_update`. -/
def fsPageCacheUpdate (cache : Cache) (mapped : Nat → Bool) (data : Nat → Byte α) (frames : Nat → Nat → Byte α)
    (offset size : Nat) : Nat → Nat → Byte α :=
  if _h : size = 0 then frames
  else
    let count := updateCount offset size
    fsPageCacheUpdate cache mapped data (updatePage cache mapped data frames offset count) (offset + count)
      (size - count)
termination_by size
decreasing_by
  have := updateCount_spec offset _h
  omega

/-- A piece of the data of a write call. -/
structure Block (α : Type*) where
  size : Nat
  bytes : Nat → α

/-- Where a task is in `ext4_file_read` or `ext4_file_write`.  `floor` is, for each byte, the newest write that had
returned when the read call started. -/
inductive Task (α : Type*)
  | idle
  /-- About to look up the page of `pos`; the call reads up to `stop`. -/
  | reading (floor : Nat → Nat) (pos stop : Nat)
  | missed (floor : Nat → Nat) (pos stop : Nat)
  /-- `fs_page_cache_load` has read the page into a frame that is not in the cache. -/
  | loaded (floor : Nat → Nat) (pos stop frame : Nat)
  /-- `fs_page_cache_get` has returned the frame, and the task copies from it. -/
  | holding (floor : Nat → Nat) (pos stop frame : Nat)
  /-- Holds the mount lock, with the blocks still to write at `pos`; `written` is, for each byte, the stamp with which
  the call has written it. -/
  | writing (pos : Nat) (blocks : List (Block α)) (written : Nat → Nat)
  /-- Has written `count` bytes at `pos` to the backing file and is about to update the cache. -/
  | updating (pos count : Nat) (data : Nat → Byte α) (blocks : List (Block α)) (written : Nat → Nat)

structure State (α : Type*) where
  backing : Nat → Byte α
  clock : Nat
  frames : Nat → Nat → Byte α
  nextFrame : Nat
  cache : Cache
  rootLock : Option Nat
  tasks : Nat → Task α
  /-- For each byte, the newest write whose call has returned. -/
  returned : Nat → Nat

def State.setTask (t : State α) (i : Nat) (k : Task α) : State α := { t with tasks := Function.update t.tasks i k }

/-- `read_page`: the frame gets the content of the backing file. -/
def State.load (t : State α) : State α :=
  { t with frames := Function.update t.frames t.nextFrame t.backing, nextFrame := t.nextFrame + 1 }

/-- `ext4_fwrite` of the first `count` bytes of a block. -/
def State.fwrite (t : State α) (pos count : Nat) (data : Nat → Byte α) : State α :=
  { t with backing := fun b => if pos ≤ b ∧ b < pos + count then data b else t.backing b, clock := t.clock + 1 }

def Block.data (block : Block α) (stamp pos b : Nat) : Byte α := ⟨stamp, block.bytes (b - pos)⟩

/-- The task after it copied up to `pos`: done, at the next page, or still in this one. -/
def afterCopy (floor : Nat → Nat) (pos stop frame : Nat) : Task α :=
  if pos = stop then .idle
  else if pos % pageSize = 0 then .reading floor pos stop
  else .holding floor pos stop frame

inductive Event (α : Type*)
  | readStart (i : Nat)
  /-- The read call of `i`, whose floor is given, copied `count` bytes from `pos` on to its buffer. -/
  | read (i : Nat) (floor : Nat → Nat) (pos count : Nat) (bytes : Nat → Byte α)
  | readEnd (i : Nat)
  | load (i : Nat)
  | writeStart (i : Nat)
  | fwrite (i pos count : Nat)
  | update (i pos count : Nat) (mapped : Nat → Bool)
  | writeEnd (i : Nat)
  | tau

inductive Step (t : State α) : Event α → State α → Prop
  | readStart {i pos stop : Nat} : t.tasks i = .idle → pos < stop →
    Step t (.readStart i) (t.setTask i (.reading t.returned pos stop))
  | hit {i pos stop f : Nat} {floor : Nat → Nat} : t.tasks i = .reading floor pos stop →
    t.cache.lookup (pos / pageSize) = some f → Step t .tau (t.setTask i (.holding floor pos stop f))
  | miss {i pos stop : Nat} {floor : Nat → Nat} : t.tasks i = .reading floor pos stop →
    t.cache.lookup (pos / pageSize) = none → Step t .tau (t.setTask i (.missed floor pos stop))
  | load {i pos stop : Nat} {floor : Nat → Nat} : t.tasks i = .missed floor pos stop → t.rootLock = none →
    Step t (.load i) (t.load.setTask i (.loaded floor pos stop t.nextFrame))
  /-- Another task has inserted the page in the meantime. -/
  | insertOld {i pos stop f g : Nat} {floor : Nat → Nat} : t.tasks i = .loaded floor pos stop f →
    t.cache.lookup (pos / pageSize) = some g → Step t .tau (t.setTask i (.holding floor pos stop g))
  | insertNew {i pos stop f : Nat} {floor : Nat → Nat} : t.tasks i = .loaded floor pos stop f →
    t.cache.lookup (pos / pageSize) = none →
    Step t .tau ({ t with cache := (pos / pageSize, f) :: t.cache }.setTask i (.holding floor pos stop f))
  | copy {i pos stop f count : Nat} {floor : Nat → Nat} : t.tasks i = .holding floor pos stop f → 0 < count →
    pos + count ≤ stop → pos % pageSize + count ≤ pageSize →
    Step t (.read i floor pos count (t.frames f)) (t.setTask i (afterCopy floor (pos + count) stop f))
  /-- The call returns early: at the end of the file, or after a failed allocation, mapping or device read. -/
  | readEnd {i : Nat} : (∀ pos blocks written, t.tasks i ≠ .writing pos blocks written) →
    (∀ pos count data blocks written, t.tasks i ≠ .updating pos count data blocks written) →
    Step t (.readEnd i) (t.setTask i .idle)
  | evict (p : Nat) : Step t .tau { t with cache := t.cache.filter fun e => e.1 ≠ p }
  | invalidate : Step t .tau { t with cache := [] }
  | writeStart {i pos : Nat} {blocks : List (Block α)} : t.tasks i = .idle → t.rootLock = none →
    Step t (.writeStart i) ({ t with rootLock := some i }.setTask i (.writing pos blocks fun _ => 0))
  /-- `ok` is whether `ext4_fwrite` succeeded; the loop ends at the first block that is not written whole. -/
  | fwrite {i pos count : Nat} {block : Block α} {blocks : List (Block α)} {written : Nat → Nat} {ok : Bool} :
    t.tasks i = .writing pos (block :: blocks) written → count ≤ block.size →
    Step t (.fwrite i pos count) ((t.fwrite pos count (block.data (t.clock + 1) pos)).setTask i
      (.updating pos count (block.data (t.clock + 1) pos) (if ok ∧ count = block.size then blocks else [])
        fun b => if pos ≤ b ∧ b < pos + count then t.clock + 1 else written b))
  | update {i pos count : Nat} {data : Nat → Byte α} {blocks : List (Block α)} {written : Nat → Nat}
      {mapped : Nat → Bool} :
    t.tasks i = .updating pos count data blocks written →
    Step t (.update i pos count mapped)
      ({ t with frames := fsPageCacheUpdate t.cache mapped data t.frames pos count }.setTask i
        (.writing (pos + count) blocks written))
  | writeEnd {i pos : Nat} {written : Nat → Nat} : t.tasks i = .writing pos [] written →
    Step t (.writeEnd i)
      ({ t with rootLock := none, returned := fun b => max (t.returned b) (written b) }.setTask i .idle)

/-- Nothing cached, no task active, and the bytes of the file older than every write. -/
def initial (content : Nat → α) (frames : Nat → Nat → Byte α) : State α :=
  { backing := fun b => ⟨0, content b⟩, clock := 0, frames := frames, nextFrame := 0, cache := [], rootLock := none,
    tasks := fun _ => .idle, returned := fun _ => 0 }

end Mos.PageCache
