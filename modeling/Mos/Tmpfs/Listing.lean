import Mos.Lib.Path
import Mos.Lib.Run
import Mathlib.Tactic

/-!
# Listing a tmpfs directory

`tmpfs_dir_read` of `src/fs/impl/tmpfs.c`, and the calls of `src/syscall/impl/syscall_io.c` that read with it.  The
position of an open directory is the number of entries passed, `.` and `..` first, and a new entry stands at the end.
An entry removed after it was returned moves the later ones forward, and the next call passes over one of them.
-/

namespace Mos.Tmpfs

open Mos.Lib List

/-- Both loops: the entries up to the first whose record does not fit. -/
def fits (size : Str → Nat) (count : Nat) : List Str → Nat → List Str
  | [], _ => []
  | name :: rest, off => if off + size name > count then [] else name :: fits size count rest (off + size name)

def reclen (long : Nat) (name : Str) : Nat := (10 + name.length + 1 + long - 1) / long * long

/-- The records that are filled and the new position; the record of entry `i` has `d_off = i + 1`. -/
def tmpfsDirRead (long count pos : Nat) (names : List Str) : List Str × Nat :=
  let records := fits (reclen long) count (names.drop pos) 0
  (records, min pos names.length + records.length)

/-- The size of a record after `getdents_convert`, for its `name_offset` and `trailer`; `sys_getdents` converts
none. -/
def outSize : Option (Nat × Nat) → Str → Nat
  | none, _ => 0
  | some (nameOffset, trailer), name => (nameOffset + name.length + trailer + 7) / 8 * 8

/-- The first record that does not fit is kept for the next call. -/
def getdents (long : Nat) (layout : Option (Nat × Nat)) (count pos : Nat) (names : List Str) : List Str × Nat :=
  let (records, fpos) := tmpfsDirRead long count pos names
  let out := fits (outSize layout) count records 0
  (out, if out.length < records.length then pos + out.length else fpos)

/-- A directory, the position of an open description, and the names returned there so far. -/
structure Listing where
  names : List Str
  pos : Nat := 0
  seen : List Str := []

inductive DirOp
  | create (name : Str)
  | remove (name : Str)
  | getdents (layout : Option (Nat × Nat)) (count : Nat)

/-- The buffer has room for the largest record. -/
abbrev Listing.Room (s : Listing) (long : Nat) (layout : Option (Nat × Nat)) (count : Nat) : Prop :=
  ∀ name ∈ s.names, reclen long name ≤ count ∧ outSize layout name ≤ count

/-- Calls go on as long as they return something. -/
inductive DirStep (long : Nat) (s : Listing) : DirOp → Listing → Prop
  | create {name} : name ∉ s.names → DirStep long s (.create name) { s with names := s.names ++ [name] }
  | remove {name} : DirStep long s (.remove name) { s with names := s.names.erase name }
  | getdents {layout count out pos} : s.Room long layout count →
    Tmpfs.getdents long layout count s.pos s.names = (out, pos) → out ≠ [] →
    DirStep long s (.getdents layout count) { s with pos := pos, seen := s.seen ++ out }

variable {long count : Nat} {layout : Option (Nat × Nat)} {s s' : Listing} {rest : List Str} {op : DirOp}

private theorem fits_prefix (size : Str → Nat) (count : Nat) (l : List Str) (off : Nat) :
    fits size count l off <+: l := by
  induction l generalizing off with
  | nil => exact nil_prefix
  | cons name rest ih =>
    unfold fits
    by_cases h : off + size name > count
    · simp [h]
    · simpa [h] using ih _

/-- What was returned stands at the front of the directory. -/
structure Listed (s : Listing) (rest : List Str) : Prop where
  names : s.names = s.seen ++ rest
  pos : s.pos = s.seen.length
  nodup : s.names.Nodup

theorem Listed.getdents (h : Listed s rest) (hroom : s.Room long layout count) : ∃ out,
    Tmpfs.getdents long layout count s.pos s.names = (out, s.pos + out.length) ∧ out <+: rest ∧
    (out = [] → rest = []) := by
  have hdrop : s.names.drop s.pos = rest := by rw [h.names, h.pos, drop_left]
  have hmin : min s.pos s.names.length = s.pos := by rw [h.names, h.pos, length_append]; omega
  have hrecords := fits_prefix (reclen long) count rest 0
  have hout := fits_prefix (outSize layout) count (fits (reclen long) count rest 0) 0
  have hle := hout.length_le
  refine ⟨_, ?_, hout.trans hrecords, fun hnil => ?_⟩
  · simp only [Tmpfs.getdents, tmpfsDirRead, hdrop, hmin, Prod.mk.injEq, true_and]
    split_ifs <;> omega
  · cases rest with
    | nil => rfl
    | cons name rest =>
      obtain ⟨h1, h2⟩ := hroom name (by simp [h.names])
      simp [fits, Nat.not_lt.2 h1, Nat.not_lt.2 h2] at hnil

/-- Only entries that were not returned yet are removed. -/
def DirOp.Late (s : Listing) : DirOp → Prop
  | remove name => name ∉ s.seen
  | _ => True

def DirOp.calls : DirOp → Nat
  | getdents .. => 1
  | _ => 0

def DirOp.creates : DirOp → Nat
  | create _ => 1
  | _ => 0

theorem DirStep.listed (h : DirStep long s op s') (hlate : op.Late s) (hs : Listed s rest) :
    ∃ rest', Listed s' rest' ∧ op.calls + rest'.length ≤ op.creates + rest.length := by
  cases h with
  | @create name hnew =>
    refine ⟨rest ++ [name], ⟨by simp [hs.names], hs.pos, ?_⟩, by simp [DirOp.calls, DirOp.creates, Nat.add_comm]⟩
    exact hs.nodup.append (nodup_singleton _) (by simpa)
  | @remove name =>
    refine ⟨rest.erase name, ⟨?_, hs.pos, hs.nodup.erase name⟩, Nat.add_le_add_left (length_erase_le ..) 0⟩
    rw [hs.names]
    exact erase_append_right _ hlate
  | getdents hroom heq hne =>
    obtain ⟨out, hout, ⟨rest', rfl⟩, -⟩ := hs.getdents hroom
    obtain ⟨rfl, rfl⟩ := Prod.mk.inj (heq.symm.trans hout)
    have hpos := length_pos_of_ne_nil hne
    refine ⟨rest', ⟨?_, ?_, hs.nodup⟩, ?_⟩
    · rw [append_assoc]
      exact hs.names
    · rw [length_append, hs.pos]
    · simp only [DirOp.calls, DirOp.creates, length_append]
      omega

/-- The calls come to an end, and then every entry has been returned once. -/
theorem listing_exact (long : Nat) (names : List Str) (hnames : names.Nodup) (tr : List DirOp) (s : Listing)
    (h : Run (fun s op s' => DirStep long s op s' ∧ op.Late s) { names := names } tr s) :
    (tr.map DirOp.calls).sum ≤ (tr.map DirOp.creates).sum + names.length ∧ ∀ layout count, s.Room long layout count →
      (getdents long layout count s.pos s.names).1 = [] → ∀ name ∈ s.names, s.seen.count name = 1 := by
  obtain ⟨rest, hs, hcalls⟩ := h.invariant (fun tr s => ∃ rest, Listed s rest ∧
      (tr.map DirOp.calls).sum + rest.length ≤ (tr.map DirOp.creates).sum + names.length)
    ⟨names, ⟨rfl, rfl, hnames⟩, le_rfl⟩ (by
      rintro tr t op u - ⟨rest, ht, hle⟩ ⟨hstep, hlate⟩
      obtain ⟨rest', hu, hle'⟩ := hstep.listed hlate ht
      refine ⟨rest', hu, ?_⟩
      simp only [map_append, sum_append, map_singleton, sum_singleton]
      omega)
  refine ⟨by omega, fun layout count hroom hnil name hname => ?_⟩
  obtain ⟨out, hout, -, hrest⟩ := hs.getdents hroom
  rw [hout] at hnil
  have hseen : s.names = s.seen := by rw [hs.names, hrest hnil, append_nil]
  exact count_eq_one_of_mem (hseen ▸ hs.nodup) (hseen ▸ hname)

/-- An entry is removed and one is made between two calls. -/
theorem listing_exact_three : ∃ s, Run (fun s op s' => DirStep 4 s op s' ∧ op.Late s)
    { names := [['.'], ['.', '.'], ['a'], ['b']] } [.getdents none 40, .remove ['b'], .create ['c'],
    .getdents none 40] s ∧ ∀ name ∈ s.names, s.seen.count name = 1 := by
  have r : Run (fun s op s' => DirStep 4 s op s' ∧ op.Late s) { names := [['.'], ['.', '.'], ['a'], ['b']] }
      [.getdents none 40, .remove ['b'], .create ['c'], .getdents none 40] _ :=
    .snoc (.snoc (.snoc (.single ⟨.getdents (by decide) rfl (by decide), trivial⟩)
      ⟨.remove, by simp only [DirOp.Late]; decide⟩) ⟨.create (by decide), trivial⟩)
      ⟨.getdents (by decide) rfl (by decide), trivial⟩
  exact ⟨_, r, (listing_exact 4 _ (by decide) _ _ r).2 none 40 (by decide) (by decide)⟩

/-- An entry that was returned is removed: the next one is skipped. -/
theorem listing_misses : ∃ s, Run (DirStep 4) { names := [['.'], ['.', '.'], ['a'], ['b']] }
    [.getdents none 40, .remove ['a']] s ∧ s.Room 4 none 40 ∧ (getdents 4 none 40 s.pos s.names).1 = [] ∧
      ['b'] ∈ s.names ∧ ['b'] ∉ s.seen :=
  ⟨_, .snoc (.single (.getdents (by decide) rfl (by decide))) .remove, by decide, by decide, by decide, by decide⟩

end Mos.Tmpfs
