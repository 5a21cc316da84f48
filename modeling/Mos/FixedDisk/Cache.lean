import Mathlib.Tactic

/-!
# The write-back sector cache of fixed disks

`src/driver/storage/fixed.c`: a disk is cached in lines of one page, each starting at a sector that is a multiple of
the sectors per page.  `cache_rw` moves data between a buffer and the lines, filling, storing and recycling lines as
needed.

A sector's content is a value of the type `α`.  The lines are listed in the order of the LRU list, least recently used
first; the red-black tree that `cache_rw` searches holds the same lines by their first sector.  What the environment
decides (page and record allocation, `mm_kmap_phys`, the error codes of the driver's commands, and the stale content
of a page that was allocated) is an argument of each round of the loop, `Env`.
-/

namespace Mos.FixedDisk

def pageSize : Nat := 4096

def enomem : Int := -12

def eio : Int := -5

def einval : Int := -22

def eopnotsupp : Int := -95

structure Disk where
  sectors : Nat
  sectorSize : Nat
  dvd : sectorSize ∣ pageSize

namespace Disk

def span (d : Disk) : Nat := pageSize / d.sectorSize

theorem span_pos (d : Disk) : 0 < d.span := by
  obtain ⟨k, hk⟩ := d.dvd
  have hpos : 0 < d.sectorSize := Nat.pos_of_ne_zero fun h => by simp [h, pageSize] at hk
  exact Nat.div_pos (Nat.le_of_dvd (by decide) d.dvd) hpos

/-- Sectors of the line at `head`: the last line of the disk may be short. -/
def lineSize (d : Disk) (head : Nat) : Nat := if d.span > d.sectors - head then d.sectors - head else d.span

end Disk

structure Line (α : Type*) where
  sector : Nat
  dirty : Bool
  /-- The content of the page, sector by sector. -/
  data : Nat → α

structure State (α : Type*) where
  lines : List (Line α)
  device : Nat → α

/-- What a round of `cache_rw` meets. -/
structure Env (α : Type*) where
  /-- `cache_pages < budget`; the counter is shared by all disks. -/
  underBudget : Bool
  allocCache : Option (Nat → α)
  allocUser : Option (Nat → α)
  record : Bool
  kmapStore : Bool
  rwStore : Int
  kmapFill : Bool
  rwFill : Int
  kmapCopy : Bool

variable {α : Type*}

/-- `d->rw(…, 1)` of a line. -/
def deviceWrite (d : Disk) (device : Nat → α) (line : Line α) : Nat → α :=
  fun s => if line.sector ≤ s ∧ s < line.sector + d.lineSize line.sector then line.data (s - line.sector) else device
    s

/-- The page after `d->rw(…, 0)` of `size` sectors from `head`. -/
def pageRead (device : Nat → α) (head size : Nat) (data : Nat → α) : Nat → α :=
  fun i => if i < size then device (head + i) else data i

/-- `cache_store`: the device and the line afterwards, and the result. -/
def cacheStore (d : Disk) (device : Nat → α) (line : Line α) (kmap : Bool) (rw : Int) : (Nat → α) × Line α × Int :=
  if line.dirty = false then (device, line, 0)
  else if kmap = false then (device, line, enomem)
  else if rw ≠ 0 then (device, line, rw)
  else (deviceWrite d device line, { line with dirty := false }, 0)

/-- The loop of `cache_flush`, which stops at the first line that cannot be stored. -/
def flushLines (d : Disk) : (Nat → α) → List (Line α) → (Nat → Bool × Int) → (Nat → α) × List (Line α) × Int
  | device, [], _ => (device, [], 0)
  | device, line :: lines, env =>
    let stored := cacheStore d device line (env 0).1 (env 0).2
    if stored.2.2 ≠ 0 then (stored.1, stored.2.1 :: lines, stored.2.2)
    else
      let rest := flushLines d stored.1 lines fun i => env (i + 1)
      (rest.1, stored.2.1 :: rest.2.1, rest.2.2)

def cacheFlush (d : Disk) (st : State α) (env : Nat → Bool × Int) (flush : Int) : State α × Int :=
  let stored := flushLines d st.device st.lines env
  (⟨stored.2.1, stored.1⟩, if stored.2.2 ≠ 0 then stored.2.2 else flush)

inductive Acquired (α : Type*)
  | fail (st : State α) (ret : Int)
  /-- The line is in the cache. -/
  | line (st : State α) (line : Line α)

/-- The new line, not yet in the cache, is read from the device unless all its sectors are about to be written; then
it is put into the cache. -/
def fillLine (d : Disk) (st : State α) (env : Env α) (line : Line α) (off n : Nat) (write : Bool) : Acquired α :=
  let size := d.lineSize line.sector
  if env.kmapFill = false then .fail st enomem
  else if write = false ∨ off ≠ 0 ∨ n < size then
    if env.rwFill ≠ 0 then .fail st env.rwFill
    else
      let line := { line with data := pageRead st.device line.sector size line.data }
      .line { st with lines := st.lines ++ [line] } line
  else .line { st with lines := st.lines ++ [line] } line

/-- The line at `head`: found, or a new one on an allocated page, or the least recently used one stored and
recycled. -/
def acquireLine (d : Disk) (st : State α) (env : Env α) (head off n : Nat) (write : Bool) : Acquired α :=
  match st.lines.find? fun line => line.sector == head with
  | some line => .line st line
  | none =>
    let page := if env.underBudget then env.allocCache else none
    let page := if page.isNone ∧ st.lines = [] then env.allocUser else page
    match page with
    | some data =>
      if env.record = false then .fail st enomem
      else fillLine d st env ⟨head, false, data⟩ off n write
    | none =>
      match st.lines with
      | [] => .fail st enomem
      | line :: lines =>
        let stored := cacheStore d st.device line env.kmapStore env.rwStore
        if stored.2.2 ≠ 0 then .fail ⟨stored.2.1 :: lines, stored.1⟩ stored.2.2
        else fillLine d ⟨lines, stored.1⟩ env ⟨head, false, stored.2.1.data⟩ off n write

/-- `memcpy` of `n` sectors: `dst` with those from `at_` on replaced by those of `src` from `from_` on. -/
def copySectors (dst src : Nat → α) (at_ from_ n : Nat) : Nat → α :=
  fun i => if at_ ≤ i ∧ i < at_ + n then src (from_ + (i - at_)) else dst i

/-- Put the line at the end of the LRU list. -/
def touchLine (lines : List (Line α)) (line : Line α) : List (Line α) :=
  lines.eraseP (fun l => l.sector == line.sector) ++ [line]

structure RwResult (α : Type*) where
  st : State α
  buffer : Nat → α
  ret : Int

def roundCount (d : Disk) (sector count : Nat) : Nat :=
  if d.span - sector % d.span > count then count else d.span - sector % d.span

theorem roundCount_pos (d : Disk) (sector : Nat) {count : Nat} (h : count ≠ 0) :
    0 < roundCount d sector count ∧ roundCount d sector count ≤ count := by
  have := Nat.mod_lt sector d.span_pos
  unfold roundCount
  split_ifs <;> omega

/-- The loop of `cache_rw`; `pos` is the buffer position. -/
def rwLoop (d : Disk) (write : Bool) (st : State α) (env : Nat → Env α) (buffer : Nat → α) (sector count pos : Nat) :
    RwResult α :=
  if _h : count = 0 then ⟨st, buffer, 0⟩
  else
    let off := sector % d.span
    let n := roundCount d sector count
    match acquireLine d st (env 0) (sector - off) off n write with
    | .fail st ret => ⟨st, buffer, ret⟩
    | .line st line =>
      if (env 0).kmapCopy = false then ⟨st, buffer, enomem⟩
      else
        let line := if write then { line with dirty := true, data := copySectors line.data buffer off pos n } else
          line
        let buffer := if write then buffer else copySectors buffer line.data pos off n
        rwLoop d write { st with lines := touchLine st.lines line } (fun i => env (i + 1)) buffer (sector + n)
          (count - n) (pos + n)
termination_by count
decreasing_by
  have := roundCount_pos d sector _h
  omega

def cacheRw (d : Disk) (write : Bool) (st : State α) (env : Nat → Env α) (buffer : Nat → α) (sector count : Nat) :
    RwResult α :=
  if sector > d.sectors ∨ count > d.sectors - sector then ⟨st, buffer, eio⟩
  else rwLoop d write st env buffer sector count 0

/-- A partition; `publish` admits only those inside the disk. -/
structure Partition (d : Disk) where
  start : Nat
  sectors : Nat
  inside : start + sectors ≤ d.sectors

/-- `BLKDISCARD` of the bytes `range`; `discard` is the driver's result, if it has the command, and `fresh` what the
discarded sectors hold afterwards. -/
def blkDiscard (d : Disk) (p : Partition d) (st : State α) (range : Nat × Nat) (env : Nat → Bool × Int) (flush : Int)
    (discard : Option Int) (fresh : Nat → α) : State α × Int :=
  match discard with
  | none => (st, eopnotsupp)
  | some discard =>
    if range.1 % d.sectorSize ≠ 0 ∨ range.2 % d.sectorSize ≠ 0 ∨ range.1 / d.sectorSize > p.sectors ∨
        range.2 / d.sectorSize > p.sectors - range.1 / d.sectorSize then (st, einval)
    else
      let flushed := cacheFlush d st env flush
      if flushed.2 ≠ 0 then flushed
      else if discard ≠ 0 then (flushed.1, discard)
      else
        let first := p.start + range.1 / d.sectorSize
        (⟨[], fun s => if first ≤ s ∧ s < first + range.2 / d.sectorSize then fresh s else flushed.1.device s⟩, 0)

/-- `cache_reclaim` on one disk: drop clean lines, oldest first, until `pages` are freed. -/
def reclaimLines : Nat → List (Line α) → List (Line α)
  | _, [] => []
  | 0, lines => lines
  | pages + 1, line :: lines => if line.dirty then line ::
      reclaimLines (pages + 1) lines else reclaimLines pages lines

def cacheReclaim (st : State α) (pages : Nat) : State α := { st with lines := reclaimLines pages st.lines }

end Mos.FixedDisk
