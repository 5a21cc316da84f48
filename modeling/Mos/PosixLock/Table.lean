import Mos.Lib.Cover
import Mathlib.Algebra.Group.Int.Defs

/-!
# The table of POSIX byte-range locks

`src/fs/impl/posix_lock.c`: one global list of ranges, each owned by a thread group on one file.  A request is
normalised to a closed range of offsets, tested against the ranges of other owners, and then carved out of the owner's
own ranges before its new range is added.

`lockAt` is what the table is for: the lock type an owner holds on a byte of a file.
-/

namespace Mos.PosixLock

open Lib
open List hiding lookup lookup_append lookup_eq_none_iff

def int64Max : Int := 2 ^ 63 - 1

def int64Min : Int := -2 ^ 63

def eintr : Int := -4
def ebadf : Int := -9
def eagain : Int := -11
def enomem : Int := -12
def einval : Int := -22
def eoverflow : Int := -75

inductive Cmd
  | getlk64
  | setlk64
  | setlkw64
  deriving DecidableEq

/-- The types of a stored lock; a request may also be an unlock. -/
inductive LockType
  | rdlck
  | wrlck
  deriving DecidableEq

def LockType.toShort : LockType → Int
  | .rdlck => 0
  | .wrlck => 1

def fUnlck : Int := 2

/-- The lock type behind `l_type`, where `some none` is `F_UNLCK`. -/
def parseType (lType : Int) : Option (Option LockType) :=
  if lType = LockType.rdlck.toShort then some (some .rdlck)
  else if lType = LockType.wrlck.toShort then some (some .wrlck)
  else if lType = fUnlck then some none
  else none

structure Flock64 where
  lType : Int
  lWhence : Int
  lStart : Int
  lLen : Int
  lPid : Int
  deriving DecidableEq

/-- What the table has of a file. -/
structure FileId where
  identity : Nat
  ino : Nat
  deriving DecidableEq

/-- The parts of an open file and its inode that locking reads, and the file itself.  `stDev` is the device `getattr`
reports, if it is there and succeeds. -/
structure File where
  file : Nat
  fInode : Nat
  iPgcacheTag : Nat
  iIno : Nat
  iSize : Nat
  fPos : Int
  fMode : Nat
  stDev : Option Nat

def lockIdentity (fp : File) : Nat := if fp.iPgcacheTag ≠ 0 then fp.iPgcacheTag else fp.fInode

def File.id (fp : File) : FileId := ⟨lockIdentity fp, fp.iIno⟩

/-- A nonempty closed range of file offsets. -/
structure Span where
  start : Int
  stop : Int
  nonneg : 0 ≤ start
  ordered : start ≤ stop
  bounded : stop ≤ int64Max
  deriving DecidableEq

/-- `struct posix_range`; `identity` and `ino` are the two halves of `file`. -/
structure PosixRange extends Span where
  file : FileId
  owner : Nat
  dev : Nat
  type : LockType
  deriving DecidableEq

/-- `__builtin_add_overflow` on `int64_t`. -/
def addOverflow (a b : Int) : Option Int :=
  if int64Min ≤ a + b ∧ a + b ≤ int64Max then some (a + b) else none

/-- The offset that `l_start` counts from. -/
def baseOf (fp : File) (fl : Flock64) : Except Int Int :=
  if fl.lWhence = 0 then .ok 0
  else if fl.lWhence = 1 then .ok fp.fPos
  else if fl.lWhence = 2 then
    if (fp.iSize : Int) > int64Max then .error eoverflow else .ok fp.iSize
  else .error einval

/-- The first and the last offset of the request. -/
def rangeOf (base : Int) (fl : Flock64) : Except Int (Int × Int) :=
  match addOverflow base fl.lStart with
  | none => .error eoverflow
  | some start =>
    let range : Except Int (Int × Int) :=
      if fl.lLen > 0 then
        match addOverflow start (fl.lLen - 1) with
        | none => .error eoverflow
        | some stop => .ok (start, stop)
      else if fl.lLen < 0 then
        if start ≤ 0 then .error einval
        else match addOverflow start fl.lLen with
          | none => .error eoverflow
          | some start' => .ok (start', start - 1)
      else .ok (start, int64Max)
    match range with
    | .error e => .error e
    | .ok (start, stop) => if start < 0 then .error einval else .ok (start, stop)

/-- The bytes that a request with the given base asks for, in the words of `fcntl`: `l_len` bytes from `l_start`, or
the `-l_len` bytes before it, or all bytes from it on. -/
def Asked (base : Int) (fl : Flock64) (x : Int) : Prop :=
  if fl.lLen > 0 then base + fl.lStart ≤ x ∧ x < base + fl.lStart + fl.lLen
  else if fl.lLen < 0 then base + fl.lStart + fl.lLen ≤ x ∧ x < base + fl.lStart
  else base + fl.lStart ≤ x

instance (base : Int) (fl : Flock64) (x : Int) : Decidable (Asked base fl x) := by
  unfold Asked
  infer_instance

private theorem addOverflow_eq_some {a b c : Int} (h : addOverflow a b = some c) : c = a + b ∧ a + b ≤ int64Max := by
  unfold addOverflow at h
  split_ifs at h with h'
  cases h
  exact ⟨rfl, h'.2⟩

/-- A normalised range is a nonempty range of offsets, and covers the bytes asked for. -/
theorem rangeOf_ok {base a b : Int} {fl : Flock64} (h : rangeOf base fl = .ok (a, b)) :
    0 ≤ a ∧ a ≤ b ∧ b ≤ int64Max ∧ ∀ x, 0 ≤ x → x ≤ int64Max → ((a ≤ x ∧ x ≤ b) ↔ Asked base fl x) := by
  unfold rangeOf at h
  split at h
  · cases h
  rename_i start hstart
  obtain ⟨rfl, hmax⟩ := addOverflow_eq_some hstart
  simp only at h
  split at h
  · cases h
  rename_i start' stop' hr
  split_ifs at h with h0
  cases h
  unfold Asked
  -- one case for each sign of `l_len`
  split_ifs at hr with hpos hneg hle
  · split at hr <;> cases hr
    rename_i hstop
    obtain ⟨rfl, hmax'⟩ := addOverflow_eq_some hstop
    simp only [if_pos hpos]
    exact ⟨by omega, by omega, by omega, fun x _ _ => by omega⟩
  · split at hr <;> cases hr
    rename_i hst
    obtain ⟨rfl, _⟩ := addOverflow_eq_some hst
    simp only [if_neg hpos, if_pos hneg]
    exact ⟨by omega, by omega, by omega, fun x _ _ => by omega⟩
  · cases hr
    simp only [if_neg hpos, if_neg hneg]
    exact ⟨by omega, by omega, by omega, fun x _ _ => by omega⟩

/-- A request that passed all argument checks. -/
structure Request extends Span where
  file : FileId
  owner : Nat
  dev : Nat
  type : Option LockType

def oAccmode : Nat := 3
def oRdonly : Nat := 0
def oWronly : Nat := 1

/-- The open mode does not allow the lock: `F_SETLK` and `F_SETLKW` then fail. -/
def BadMode (fp : File) (type : Option LockType) : Prop :=
  (type = some .rdlck ∧ fp.fMode &&& oAccmode = oWronly) ∨ (type = some .wrlck ∧ fp.fMode &&& oAccmode = oRdonly)

instance (fp : File) (type : Option LockType) : Decidable (BadMode fp type) := by
  unfold BadMode
  infer_instance

/-- The argument checks of `fs_posix_lock`, up to the allocation of nodes. -/
def checkRequest (tgid : Nat) (cmd : Cmd) (fp : File) (fl : Flock64) : Except Int Request :=
  match parseType fl.lType with
  | none => .error einval
  | some type =>
    if cmd = .getlk64 ∧ type = none then .error einval
    else if cmd ≠ .getlk64 ∧ BadMode fp type then .error ebadf
    else match baseOf fp fl with
      | .error e => .error e
      | .ok base =>
        match h : rangeOf base fl with
        | .error e => .error e
        | .ok (start, stop) =>
          have hr := rangeOf_ok h
          .ok { start := start, stop := stop, nonneg := hr.1, ordered := hr.2.1, bounded := hr.2.2.1,
                file := fp.id, owner := tgid, dev := fp.stDev.getD 0, type := type }

/-- The test of the scan for a conflicting range. -/
def Conflicts (q : Request) (r : PosixRange) : Prop :=
  r.owner ≠ q.owner ∧ r.file = q.file ∧ q.start ≤ r.stop ∧ q.stop ≥ r.start ∧
    (q.type = some .wrlck ∨ r.type = .wrlck)

instance (q : Request) (r : PosixRange) : Decidable (Conflicts q r) := by
  unfold Conflicts
  infer_instance

def findConflict (q : Request) (ranges : List PosixRange) : Option PosixRange :=
  ranges.find? (fun r => Conflicts q r)

/-- The answer of `F_GETLK`. -/
def report (fl : Flock64) : Option PosixRange → Flock64
  | none => { fl with lType := fUnlck }
  | some r =>
    { lType := r.type.toShort, lWhence := 0, lStart := r.start,
      lLen := if r.stop = int64Max then 0 else r.stop - r.start + 1, lPid := r.owner }

/-- The second loop of `fs_posix_lock`: take the requested bytes out of the owner's ranges on the file. -/
def carve (q : Request) : List PosixRange → List PosixRange
  | [] => []
  | r :: rest =>
    if r.owner ≠ q.owner ∨ r.file ≠ q.file ∨ q.start > r.stop ∨ q.stop < r.start then r :: carve q rest
    else if h : r.start < q.start ∧ r.stop > q.stop then
      -- the new node goes right behind `r`, and the loop ends
      { r with
        stop := q.start - 1, ordered := by omega, bounded := by have := r.bounded; have := q.ordered; omega } ::
        { r with
          start := q.stop + 1, nonneg := by have := q.nonneg; have := q.ordered; omega, ordered := by omega } ::
        rest
    else if h₁ : r.start < q.start then
      { r with stop := q.start - 1, ordered := by omega,
               bounded := by have := q.bounded; have := q.ordered; omega } :: carve q rest
    else if h₂ : r.stop > q.stop then
      { r with start := q.stop + 1, nonneg := by have := q.nonneg; have := q.ordered; omega, ordered := by omega } ::
        carve q rest
    else carve q rest

def applyRequest (q : Request) (ranges : List PosixRange) : List PosixRange :=
  match q.type with
  | none => carve q ranges
  | some type => { q with type := type } :: carve q ranges

/-! ### The table as a function -/

/-- A byte of a file, as one owner sees it. -/
structure Key where
  owner : Nat
  file : FileId
  offset : Int

def PosixRange.Covers (r : PosixRange) (k : Key) : Prop :=
  r.owner = k.owner ∧ r.file = k.file ∧ r.start ≤ k.offset ∧ k.offset ≤ r.stop

instance (r : PosixRange) (k : Key) : Decidable (r.Covers k) := by
  unfold PosixRange.Covers
  infer_instance

/-- The keys that a request is about. -/
def Request.Covers (q : Request) (k : Key) : Prop :=
  q.owner = k.owner ∧ q.file = k.file ∧ q.start ≤ k.offset ∧ k.offset ≤ q.stop

instance (q : Request) (k : Key) : Decidable (q.Covers k) := by
  unfold Request.Covers
  infer_instance

def lockAt (ranges : List PosixRange) (k : Key) : Option LockType :=
  lookup PosixRange.Covers (fun r _ => r.type) ranges k

/-- The ranges of one owner on one file are disjoint. -/
def OwnDisjoint (ranges : List PosixRange) : Prop :=
  ranges.Pairwise fun a b => a.owner = b.owner → a.file = b.file → a.stop < b.start ∨ b.stop < a.start

/-- Overlapping ranges of different owners are read locks. -/
def SharedAreReads (ranges : List PosixRange) : Prop :=
  ∀ a ∈ ranges, ∀ b ∈ ranges, a.owner ≠ b.owner → a.file = b.file → a.start ≤ b.stop → b.start ≤ a.stop →
    a.type = .rdlck ∧ b.type = .rdlck

open PosixRange

private theorem apart_iff (a b : PosixRange) :
    Apart PosixRange.Covers a b ↔ (a.owner = b.owner → a.file = b.file → a.stop < b.start ∨ b.stop < a.start) := by
  have ha := a.ordered
  have hb := b.ordered
  constructor
  · intro h ho hf
    by_contra hn
    -- the larger of the two starts lies in both ranges
    have hk := h ⟨a.owner, a.file, max a.start b.start⟩ ⟨rfl, rfl, by dsimp only; omega, by dsimp only; omega⟩
    exact hk ⟨ho.symm, hf.symm, by dsimp only; omega, by dsimp only; omega⟩
  · rintro h k ⟨h1, h2, h3, h4⟩ ⟨h5, h6, h7, h8⟩
    have := h (h1.trans h5.symm) (h2.trans h6.symm)
    omega

private theorem ownDisjoint_iff (ranges : List PosixRange) :
    OwnDisjoint ranges ↔ ranges.Pairwise (Apart PosixRange.Covers) := by
  constructor <;> intro h <;> refine h.imp fun {a b} hab => ?_
  · exact (apart_iff a b).mpr hab
  · exact (apart_iff a b).mp hab

/-- A piece that keeps owner, file and type of `r` and lies inside it. -/
structure PieceOf (a r : PosixRange) : Prop where
  owner : a.owner = r.owner
  file : a.file = r.file
  type : a.type = r.type
  start_le : r.start ≤ a.start
  stop_le : a.stop ≤ r.stop

theorem PieceOf.refl (r : PosixRange) : PieceOf r r := ⟨rfl, rfl, rfl, Int.le_refl _, Int.le_refl _⟩

variable {q : Request} {l : List PosixRange}

theorem mem_carve {a : PosixRange} (h : a ∈ carve q l) : ∃ r ∈ l, PieceOf a r := by
  induction l with
  | nil => simp [carve] at h
  | cons r rest ih =>
    have hrest : a ∈ carve q rest → ∃ r' ∈ r :: rest, PieceOf a r' := fun ha => by
      obtain ⟨r', hr', hp⟩ := ih ha
      exact ⟨r', mem_cons_of_mem _ hr', hp⟩
    have hself : PieceOf a r → ∃ r' ∈ r :: rest, PieceOf a r' := fun ha => ⟨r, mem_cons_self, ha⟩
    unfold carve at h
    split_ifs at h with h1 h2 h3 h4
    · rcases mem_cons.1 h with rfl | ha
      · exact hself (.refl _)
      · exact hrest ha
    · rcases mem_cons.1 h with rfl | h
      · exact hself ⟨rfl, rfl, rfl, Int.le_refl _, by dsimp only; omega⟩
      rcases mem_cons.1 h with rfl | ha
      · exact hself ⟨rfl, rfl, rfl, by dsimp only; omega, Int.le_refl _⟩
      · exact ⟨a, mem_cons_of_mem _ ha, .refl _⟩
    · rcases mem_cons.1 h with rfl | ha
      · exact hself ⟨rfl, rfl, rfl, Int.le_refl _, by dsimp only; omega⟩
      · exact hrest ha
    · rcases mem_cons.1 h with rfl | ha
      · exact hself ⟨rfl, rfl, rfl, by dsimp only; omega, Int.le_refl _⟩
      · exact hrest ha
    · exact hrest h

/-- Carving removes the requested bytes and nothing else. -/
theorem valuesAt_carve (h : l.Pairwise (Apart PosixRange.Covers)) (k : Key) :
    valuesAt PosixRange.Covers (fun r _ => r.type) (carve q l) k =
      if q.Covers k then [] else valuesAt PosixRange.Covers (fun r _ => r.type) l k := by
  induction l with
  | nil => simp [carve]
  | cons r rest ih =>
    rw [pairwise_cons] at h
    have ih := ih h.2
    have hrest : r.Covers k → valuesAt PosixRange.Covers (fun r _ => r.type) rest k = [] := fun hr =>
      valuesAt_eq_nil_iff.2 fun b hb => h.1 b hb k hr
    have hq := q.ordered
    unfold carve
    split_ifs with h1 h2 h3 h4 <;> simp only [valuesAt_cons, ih] <;>
      grind [PosixRange.Covers, Request.Covers]

private theorem valuesAt_applyRequest (h : l.Pairwise (Apart PosixRange.Covers)) (k : Key) :
    valuesAt PosixRange.Covers (fun r _ => r.type) (applyRequest q l) k =
      if q.Covers k then q.type.toList else valuesAt PosixRange.Covers (fun r _ => r.type) l k := by
  unfold applyRequest
  cases hty : q.type with
  | none => simpa using valuesAt_carve h k
  | some type =>
    simp only [valuesAt_cons, valuesAt_carve h k]
    by_cases hk : q.Covers k
    · have hk' : PosixRange.Covers { q with type := type } k := hk
      simp [hk, hk']
    · have hk' : ¬PosixRange.Covers { q with type := type } k := hk
      simp [hk, hk']

theorem OwnDisjoint.applyRequest (h : OwnDisjoint l) : OwnDisjoint (applyRequest q l) := by
  rw [ownDisjoint_iff] at h ⊢
  have hone := (pairwise_apart_iff fun r _ => r.type).mp h
  refine (pairwise_apart_iff fun r _ => r.type).mpr fun k => ?_
  rw [valuesAt_applyRequest h k]
  split_ifs
  · cases q.type <;> simp
  · exact hone k

/-- A granted request sets the lock type on its own bytes and keeps it everywhere else. -/
theorem lockAt_applyRequest (h : OwnDisjoint l) (k : Key) :
    lockAt (applyRequest q l) k = if q.Covers k then q.type else lockAt l k := by
  unfold lockAt lookup
  rw [valuesAt_applyRequest ((ownDisjoint_iff l).mp h) k]
  split_ifs
  · cases q.type <;> rfl
  · rfl

theorem SharedAreReads.carve (h : SharedAreReads l) : SharedAreReads (carve q l) := by
  intro a ha b hb ho hf h1 h2
  obtain ⟨ra, hra, pa⟩ := mem_carve ha
  obtain ⟨rb, hrb, pb⟩ := mem_carve hb
  rw [pa.type, pb.type]
  have ho' : ra.owner ≠ rb.owner := by rwa [← pa.owner, ← pb.owner]
  have hf' : ra.file = rb.file := by rwa [← pa.file, ← pb.file]
  exact h ra hra rb hrb ho' hf' (by have := pa.start_le; have := pb.stop_le; omega)
    (by have := pb.start_le; have := pa.stop_le; omega)

private theorem reads_of_no_conflict {type : LockType} (hty : q.type = some type)
    (hc : findConflict q l = none) {b : PosixRange} (hb : b ∈ carve q l) (ho : b.owner ≠ q.owner)
    (hf : b.file = q.file) (h1 : q.start ≤ b.stop) (h2 : b.start ≤ q.stop) : type = .rdlck ∧ b.type = .rdlck := by
  obtain ⟨r, hr, hp⟩ := mem_carve hb
  have hnc : ¬Conflicts q r := by simpa using List.find?_eq_none.1 hc r hr
  have hfit : r.owner ≠ q.owner ∧ r.file = q.file ∧ q.start ≤ r.stop ∧ q.stop ≥ r.start := by
    rw [← hp.owner, ← hp.file]
    exact ⟨ho, hf, Int.le_trans h1 hp.stop_le, Int.le_trans hp.start_le h2⟩
  have hno : ¬(q.type = some .wrlck ∨ r.type = .wrlck) := fun hw =>
    hnc ⟨hfit.1, hfit.2.1, hfit.2.2.1, hfit.2.2.2, hw⟩
  rw [hty, ← hp.type] at hno
  cases type <;> cases hbt : b.type <;> simp_all

theorem SharedAreReads.applyRequest (h : SharedAreReads l)
    (hq : findConflict q l = none ∨ q.type = none) : SharedAreReads (applyRequest q l) := by
  unfold PosixLock.applyRequest
  cases hty : q.type with
  | none => exact h.carve
  | some type =>
    have hc : findConflict q l = none := hq.resolve_right (by simp [hty])
    intro a ha b hb ho hf h1 h2
    rcases mem_cons.1 ha with rfl | ha <;> rcases mem_cons.1 hb with rfl | hb
    · exact absurd rfl ho
    · exact reads_of_no_conflict hty hc hb (Ne.symm ho) hf.symm h1 h2
    · exact (reads_of_no_conflict hty hc ha ho hf h2 h1).symm
    · exact h.carve a ha b hb ho hf h1 h2

end Mos.PosixLock
