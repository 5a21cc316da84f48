import Mos.Lib.Run
import Mos.PosixLock.Table

/-!
# Processes sharing the lock table

The calls `fs_posix_lock` and `fs_posix_lock_release` of any number of tasks.  A call holds `range_lock` over its scan
and its update, so it is one step; an `F_SETLKW` that meets a conflict goes to sleep, and each wake-up repeats the
scan as a step of its own.  Memory and signals are inputs of a call.

The table knows a file by its `i_pgcache_tag`, or the address of its inode, and its `i_ino`.  The locks are those of
the files just if that tells them apart (`Keyed`).  It does not for a device node: each open has an inode of its own.
-/

namespace Mos.PosixLock

open Lib Function
open List hiding lookup lookup_append lookup_eq_none_iff

/-- `used` is `posix_locks_used` of each thread group, `asleep` the `F_SETLKW` a task sleeps in. -/
structure State where
  ranges : List PosixRange
  used : Nat → Bool
  asleep : Nat → Option (File × Request × Flock64)

def State.start : State := ⟨[], fun _ => false, fun _ => none⟩

inductive Result
  | ret (value : Int) (fl : Flock64)
  | sleep
  deriving DecidableEq

/-- One pass of the loop of `fs_posix_lock` for a set command, and the update that follows it.  `signal` says that a
signal is pending when the task is about to sleep. -/
def setPass (s : State) (tid : Nat) (cmd : Cmd) (fp : File) (q : Request) (fl : Flock64) (signal : Bool) :
    State × Result :=
  if findConflict q s.ranges = none ∨ q.type = none then
    ({ s with ranges := applyRequest q s.ranges }, .ret 0 fl)
  else if cmd = .setlk64 then (s, .ret eagain fl)
  else if signal then (s, .ret eintr fl)
  else ({ s with asleep := update s.asleep tid (some (fp, q, fl)) }, .sleep)

/-- `fs_posix_lock`; `mem` says that both nodes could be allocated. -/
def fsPosixLock (s : State) (tid tgid : Nat) (cmd : Cmd) (fp : File) (fl : Flock64) (mem signal : Bool) :
    State × Result :=
  match checkRequest tgid cmd fp fl with
  | .error e => (s, .ret e fl)
  | .ok q =>
    if cmd = .getlk64 then (s, .ret 0 (report fl (findConflict q s.ranges)))
    else
      -- the hint is published before memory is asked for
      let s := { s with used := update s.used tgid true }
      if mem then setPass s tid cmd fp q fl signal else (s, .ret enomem fl)

/-- A task woken in `F_SETLKW`. -/
def resumeLock (s : State) (tid : Nat) (fp : File) (q : Request) (fl : Flock64) (interrupted signal : Bool) :
    State × Result :=
  let s := { s with asleep := update s.asleep tid none }
  if interrupted then (s, .ret eintr fl) else setPass s tid .setlkw64 fp q fl signal

/-- `fs_posix_lock_release`, called by a task of thread group `current` if there is one. -/
def fsPosixLockRelease (s : State) (fp : Option File) (owner : Nat) (current : Option Nat) : State :=
  if current = some owner ∧ s.used owner = false then s
  else { s with ranges := s.ranges.filter fun r => ¬(r.owner = owner ∧ ∀ f ∈ fp, r.file = f.id) }

inductive Event
  | lock (tid tgid : Nat) (cmd : Cmd) (fp : File) (fl : Flock64) (mem : Bool) (res : Result)
  | resume (tid : Nat) (fp : File) (q : Request) (res : Result)
  | release (fp : Option File) (owner : Nat)

/-- All files of the call are among the open ones. -/
def Event.Among (Open : File → Prop) : Event → Prop
  | .lock _ _ _ fp .. | .resume _ fp .. => Open fp
  | .release fp _ => ∀ f ∈ fp, Open f

inductive Step (s : State) : Event → State → Prop
  | lock {tid tgid cmd fp fl mem signal} : s.asleep tid = none →
      Step s (.lock tid tgid cmd fp fl mem (fsPosixLock s tid tgid cmd fp fl mem signal).2)
        (fsPosixLock s tid tgid cmd fp fl mem signal).1
  | resume {tid fp q fl interrupted signal} : s.asleep tid = some (fp, q, fl) →
      Step s (.resume tid fp q (resumeLock s tid fp q fl interrupted signal).2)
        (resumeLock s tid fp q fl interrupted signal).1
  | release {fp owner current} : Step s (.release fp owner) (fsPosixLockRelease s fp owner current)

/-! ### The effect of a call -/

/-- What the table has of the open files tells whether they are the same. -/
def Keyed (Open : File → Prop) : Prop := ∀ f g, Open f → Open g → (f.id = g.id ↔ f.file = g.file)

/-- The lock type becomes `type` on the bytes `P` of one owner and file, and stays what it is on every other byte of
an open file. -/
def SetsExactly (Open : File → Prop) (before after : List PosixRange) (owner : Nat) (fp : File) (P : Int → Prop)
    (type : Option LockType) : Prop :=
  ∀ g, Open g → ∀ o x, 0 ≤ x → x ≤ int64Max →
    (o = owner ∧ g.file = fp.file ∧ P x → lockAt after ⟨o, g.id, x⟩ = type) ∧
    (¬(o = owner ∧ g.file = fp.file ∧ P x) → lockAt after ⟨o, g.id, x⟩ = lockAt before ⟨o, g.id, x⟩)

/-- The table keeps its invariant, and every lock in it is the trace of a published hint. -/
structure TableOk (s : State) : Prop where
  own : OwnDisjoint s.ranges
  shared : SharedAreReads s.ranges
  hinted : ∀ r ∈ s.ranges, s.used r.owner = true
  waiting : ∀ tid fp q fl, s.asleep tid = some (fp, q, fl) → s.used q.owner = true ∧ q.file = fp.id

variable {Open : File → Prop} {tgid tid : Nat} {cmd : Cmd} {fp : File} {fl : Flock64} {q : Request} {signal : Bool}

private theorem checkRequest_ok (h : checkRequest tgid cmd fp fl = .ok q) :
    q.owner = tgid ∧ q.file = fp.id ∧ parseType fl.lType = some q.type ∧ (cmd = .getlk64 → q.type ≠ none) ∧
      ∃ base, baseOf fp fl = .ok base ∧ ∀ x, 0 ≤ x → x ≤ int64Max →
      ((q.start ≤ x ∧ x ≤ q.stop) ↔ Asked base fl x) := by
  unfold checkRequest at h
  split at h
  · cases h
  rename_i type hty
  split_ifs at h with h1 h2
  split at h
  · cases h
  rename_i base hbase
  split at h
  · cases h
  rename_i start stop hr
  cases h
  exact ⟨rfl, rfl, hty, fun hc hn => h1 ⟨hc, hn⟩, base, hbase, (rangeOf_ok hr).2.2.2⟩

/-- The checks of `F_GETLK` and `F_SETLK` differ in the open mode only. -/
theorem checkRequest_getlk {type : Option LockType}
    (hty : parseType fl.lType = some type) (hlock : type ≠ none) (hmode : ¬BadMode fp type) :
    checkRequest tgid .getlk64 fp fl = checkRequest tgid .setlk64 fp fl := by
  unfold checkRequest
  rw [hty]
  simp [hlock, hmode]

section Effect

variable {s : State} (hs : TableOk s)

include hs

private theorem applyRequest_setsExactly (hkey : Keyed Open) (hf : Open fp) (hq : q.file = fp.id) :
    SetsExactly Open s.ranges (applyRequest q s.ranges) q.owner fp (fun x => q.start ≤ x ∧ x ≤ q.stop) q.type := by
  intro g hg o x _ _
  rw [lockAt_applyRequest hs.own, ← hkey g fp hg hf, ← hq]
  constructor
  · rintro ⟨h1, h2, h3⟩
    exact if_pos ⟨h1.symm, h2.symm, h3⟩
  · intro h
    exact if_neg fun ⟨h1, h2, h3⟩ => h ⟨h1.symm, h2.symm, h3⟩

theorem TableOk.granted (hq : findConflict q s.ranges = none ∨ q.type = none)
    (hused : s.used q.owner = true) : TableOk { s with ranges := applyRequest q s.ranges } := by
  have hold : ∀ r ∈ carve q s.ranges, s.used r.owner = true := by
    intro r hr
    obtain ⟨r', hr', hp⟩ := mem_carve hr
    rw [hp.owner]
    exact hs.hinted r' hr'
  refine ⟨hs.own.applyRequest, hs.shared.applyRequest hq, ?_, hs.waiting⟩
  intro r hr
  change r ∈ applyRequest q s.ranges at hr
  unfold applyRequest at hr
  split at hr
  · exact hold r hr
  · rcases mem_cons.1 hr with rfl | hr
    · exact hused
    · exact hold r hr

private theorem setPass_ok (hused : s.used q.owner = true) (hq : q.file = fp.id) :
    TableOk (setPass s tid cmd fp q fl signal).1 := by
  unfold setPass
  split_ifs with h1
  · exact hs.granted h1 hused
  · exact hs
  · exact hs
  refine { hs with waiting := ?_ }
  intro tid' fp' q' fl' h
  by_cases ht : tid' = tid
  · subst ht
    simp only [update_self, Option.some.injEq, Prod.mk.injEq] at h
    obtain ⟨rfl, rfl, -⟩ := h
    exact ⟨hused, hq⟩
  · simp only [update_of_ne ht] at h
    exact hs.waiting tid' fp' q' fl' h

/-- A pass that returns 0 has applied the request; any other outcome leaves the table alone. -/
theorem setPass_effect (hkey : Keyed Open) (hf : Open fp) (hq : q.file = fp.id) (tid : Nat) (cmd : Cmd) (fl : Flock64)
    (signal : Bool) : let r := setPass s tid cmd fp q fl signal
    (r.2 = .ret 0 fl ∧
      SetsExactly Open s.ranges r.1.ranges q.owner fp (fun x => q.start ≤ x ∧ x ≤ q.stop) q.type) ∨
      ((∀ fl', r.2 ≠ .ret 0 fl') ∧ r.1.ranges = s.ranges) := by
  unfold setPass
  split_ifs with h1
  · exact .inl ⟨rfl, applyRequest_setsExactly hs hkey hf hq⟩
  · exact .inr ⟨fun _ => by simp [eagain], rfl⟩
  · exact .inr ⟨fun _ => by simp [eintr], rfl⟩
  · exact .inr ⟨fun _ => by simp, rfl⟩

end Effect

variable {s : State}

section

variable (hs : TableOk s)

include hs

theorem TableOk.publish (tgid : Nat) : TableOk { s with used := update s.used tgid true } := by
  have hkeep : ∀ o, s.used o = true → update s.used tgid true o = true := by
    intro o ho
    by_cases h : o = tgid
    · rw [h, update_self]
    · rwa [update_of_ne h]
  exact ⟨hs.own, hs.shared, fun r hr => hkeep _ (hs.hinted r hr), fun tid fp q fl h =>
    ⟨hkeep _ (hs.waiting tid fp q fl h).1, (hs.waiting tid fp q fl h).2⟩⟩

theorem TableOk.wake (tid : Nat) : TableOk { s with asleep := update s.asleep tid none } := by
  refine { hs with waiting := fun tid' fp q fl h => ?_ }
  by_cases ht : tid' = tid
  · subst ht
    simp at h
  · simp only [update_of_ne ht] at h
    exact hs.waiting tid' fp q fl h

theorem TableOk.release (fp : Option File) (owner : Nat) (current : Option Nat) :
    TableOk (fsPosixLockRelease s fp owner current) := by
  unfold fsPosixLockRelease
  split_ifs with h
  · exact hs
  refine ⟨hs.own.filter _, ?_, ?_, hs.waiting⟩
  · intro a ha b hb
    exact hs.shared a (mem_of_mem_filter ha) b (mem_of_mem_filter hb)
  · intro r hr
    exact hs.hinted r (mem_of_mem_filter hr)

theorem TableOk.step {s' : State} {e : Event} (h : Step s e s') : TableOk s' := by
  cases h with
  | @lock tid tgid cmd fp fl mem signal _ =>
    unfold fsPosixLock
    split
    · exact hs
    rename_i q hq
    obtain ⟨ho, hfile, -⟩ := checkRequest_ok hq
    split_ifs
    · exact hs
    · exact setPass_ok (hs.publish tgid) (by simp [ho]) hfile
    · exact hs.publish tgid
  | @resume tid fp q fl interrupted signal hw =>
    unfold resumeLock
    split_ifs
    · exact hs.wake tid
    · obtain ⟨hused, hfile⟩ := hs.waiting tid fp q fl hw
      exact setPass_ok (hs.wake tid) hused hfile
  | release => exact hs.release _ _ _

end

private theorem run_tableOk {tr : List Event} (h : Run Step .start tr s) : TableOk s := by
  refine h.invariant_state TableOk ⟨List.Pairwise.nil, ?_, ?_, ?_⟩ fun t e u ht hstep => ht.step hstep
  · intro a ha
    simp [State.start] at ha
  · intro a ha
    simp [State.start] at ha
  · intro tid fp q fl h
    simp [State.start] at h

/-- What a call of `fs_posix_lock` does to the table. -/
def LockEffect (Open : File → Prop) (before after : List PosixRange) (tgid : Nat) (cmd : Cmd) (fp : File)
    (fl : Flock64) (res : Result) : Prop :=
  ((∃ fl', res = .ret 0 fl') → cmd ≠ .getlk64 →
    ∃ type base, parseType fl.lType = some type ∧ baseOf fp fl = .ok base ∧
      SetsExactly Open before after tgid fp (Asked base fl) type) ∧
  ((∀ fl', res ≠ .ret 0 fl') ∨ cmd = .getlk64 → after = before)

private theorem checkRequest_error {e : Int}
    (h : checkRequest tgid cmd fp fl = .error e) : e = einval ∨ e = ebadf ∨ e = eoverflow := by
  have hbase : ∀ {e}, baseOf fp fl = .error e → e = einval ∨ e = ebadf ∨ e = eoverflow := by
    intro e he
    unfold baseOf at he
    split_ifs at he <;> cases he <;> simp
  have hrange : ∀ {base e}, rangeOf base fl = .error e → e = einval ∨ e = ebadf ∨ e = eoverflow := by
    intro base e he
    unfold rangeOf at he
    grind
  unfold checkRequest at h
  split at h
  · cases h; simp
  split_ifs at h
  · cases h; simp
  · cases h; simp
  split at h
  · cases h; exact hbase ‹_›
  split at h
  · cases h; exact hrange ‹_›
  · cases h

private theorem fsPosixLock_effect (hs : TableOk s) (hkey : Keyed Open) (hopen : Open fp) (tid tgid : Nat) (cmd : Cmd)
    (fl : Flock64) (mem signal : Bool) :
    LockEffect Open s.ranges (fsPosixLock s tid tgid cmd fp fl mem signal).1.ranges tgid cmd fp fl
      (fsPosixLock s tid tgid cmd fp fl mem signal).2 := by
  unfold fsPosixLock
  split
  · rename_i e he
    refine ⟨?_, fun _ => rfl⟩
    rintro ⟨fl', hr⟩ _
    cases hr
    have h0 := checkRequest_error he
    simp [einval, ebadf, eoverflow] at h0
  rename_i q hq
  obtain ⟨rfl, hf, hty, -, base, hbase, hspan⟩ := checkRequest_ok hq
  split_ifs with hcmd hmem
  · exact ⟨fun _ h => absurd hcmd h, fun _ => rfl⟩
  · -- the pass sees the table as it is; only the hint has changed
    have heff := setPass_effect (hs.publish q.owner) hkey hopen hf tid cmd fl signal
    rcases heff with ⟨hr, hset⟩ | ⟨hr, hsame⟩
    · refine ⟨fun _ _ => ⟨q.type, base, hty, hbase, ?_⟩, ?_⟩
      · intro g hg o x h1 h2
        rw [← hspan x h1 h2]
        exact hset g hg o x h1 h2
      · rintro (h | h)
        · exact absurd hr (h fl)
        · exact absurd h hcmd
    · exact ⟨fun ⟨fl', h⟩ _ => absurd h (hr fl'), fun _ => hsame⟩
  · refine ⟨?_, fun _ => rfl⟩
    rintro ⟨fl', hr⟩ _
    simp [enomem] at hr

/-- Releasing drops the owner's locks, on one file or on all, also when the hint cuts the scan short. -/
theorem release_effect (hs : TableOk s) (fp : Option File) (owner : Nat) (current : Option Nat) (k : Key) :
    lockAt (fsPosixLockRelease s fp owner current).ranges k =
      if k.owner = owner ∧ ∀ f ∈ fp, k.file = f.id then none else lockAt s.ranges k := by
  unfold fsPosixLockRelease
  by_cases hk : k.owner = owner ∧ ∀ f ∈ fp, k.file = f.id
  · rw [if_pos hk, lockAt, lookup_eq_none_iff]
    rintro r hr ⟨h1, h2, -⟩
    split_ifs at hr with hskip
    · have hused := hs.hinted r hr
      rw [h1, hk.1, hskip.2] at hused
      cases hused
    · have hkeep := (mem_filter.1 hr).2
      simp only [decide_eq_true_eq] at hkeep
      exact hkeep ⟨h1.trans hk.1, fun f hf => h2.trans (hk.2 f hf)⟩
  · rw [if_neg hk]
    split_ifs with hskip
    · rfl
    unfold lockAt lookup
    rw [valuesAt_filter]
    rintro r - ⟨h1, h2, -⟩
    simp only [decide_eq_true_eq]
    rintro ⟨h3, h4⟩
    exact hk ⟨h1.symm.trans h3, fun f hf => h2.symm.trans (h4 f hf)⟩

/-! ### Asking and taking -/

private theorem report_lType {c : Option PosixRange} : (report fl c).lType ≠ fUnlck ↔ ∃ r, c = some r := by
  cases c with
  | none => simp [report]
  | some r =>
    simp only [report, Option.some.injEq, exists_eq', iff_true]
    cases r.type <;> decide

variable {fl' : Flock64} {mem : Bool}

private theorem getlk_eq (h : (fsPosixLock s tid tgid .getlk64 fp fl mem signal).2 = .ret 0 fl') :
    ∃ q, checkRequest tgid .getlk64 fp fl = .ok q ∧ fl' = report fl (findConflict q s.ranges) := by
  unfold fsPosixLock at h
  split at h
  · rename_i e he
    cases h
    have h0 := checkRequest_error he
    simp [einval, ebadf, eoverflow] at h0
  · rename_i q hq
    cases h
    exact ⟨q, hq, rfl⟩

/-- A lock that `F_GETLK` reports is held by another owner and stands in the way of the request. -/
def Genuine (Open : File → Prop) (ranges : List PosixRange) (tgid : Nat) (fp : File) (fl fl' : Flock64) : Prop :=
  ∃ base, baseOf fp fl = .ok base ∧ ∃ c ∈ ranges, c.owner ≠ tgid ∧
    (∀ g, Open g → (c.file = g.id ↔ g.file = fp.file)) ∧ (∃ x, Asked base fl x ∧ c.start ≤ x ∧ x ≤ c.stop) ∧
    (fl.lType = LockType.wrlck.toShort ∨ c.type = .wrlck) ∧ fl' = report fl (some c)

private theorem getlk_genuine (hkey : Keyed Open) (hopen : Open fp)
    (h : (fsPosixLock s tid tgid .getlk64 fp fl mem signal).2 = .ret 0 fl') (hl : fl'.lType ≠ fUnlck) :
    Genuine Open s.ranges tgid fp fl fl' := by
  obtain ⟨q, hq, rfl⟩ := getlk_eq h
  obtain ⟨rfl, hf, hty, -, base, hbase, hspan⟩ := checkRequest_ok hq
  obtain ⟨c, hc⟩ := report_lType.1 hl
  have hconf : Conflicts q c := by simpa using List.find?_some hc
  obtain ⟨ho, hfile, h1, h2, hw⟩ := hconf
  refine ⟨base, hbase, c, List.mem_of_find?_eq_some hc, ho, fun g hg => ?_, ⟨max q.start c.start, ?_⟩, ?_, by rw [hc]⟩
  · rw [hfile, hf, hkey fp g hopen hg, eq_comm]
  · have hq1 := q.nonneg
    have hq2 := q.ordered
    have hc2 := c.ordered
    have hb := q.bounded
    rw [← hspan _ (by omega) (by omega)]
    omega
  · rcases hw with hw | hw
    · left
      rw [hw, parseType] at hty
      split_ifs at hty <;> simp_all
    · exact .inr hw

/-- On a descriptor whose mode allows the lock, `F_GETLK` and `F_SETLK` agree. -/
theorem getlk_iff_eagain (hmode : ∀ type, parseType fl.lType = some type → ¬BadMode fp type) :
    (∃ fl', (fsPosixLock s tid tgid .getlk64 fp fl true signal).2 = .ret 0 fl' ∧ fl'.lType ≠ fUnlck) ↔
      (fsPosixLock s tid tgid .setlk64 fp fl true signal).2 = .ret eagain fl := by
  constructor
  · rintro ⟨fl', h, hl⟩
    obtain ⟨q, hq, rfl⟩ := getlk_eq h
    obtain ⟨-, -, hty, hlock, -⟩ := checkRequest_ok hq
    obtain ⟨c, hc⟩ := report_lType.1 hl
    rw [checkRequest_getlk hty (hlock rfl) (hmode _ hty)] at hq
    unfold fsPosixLock setPass
    simp [hq, hc, hlock rfl]
  · intro h
    unfold fsPosixLock at h
    split at h
    · rename_i e he
      cases h
      have h0 := checkRequest_error he
      simp [einval, ebadf, eoverflow, eagain] at h0
    rename_i q hq
    obtain ⟨-, -, hty, -⟩ := checkRequest_ok hq
    simp only [reduceCtorEq, if_false, if_true] at h
    have h1 : ¬(findConflict q s.ranges = none ∨ q.type = none) := by
      intro h1
      rw [setPass, if_pos h1] at h
      simp [eagain] at h
    rw [not_or] at h1
    rw [← checkRequest_getlk hty h1.2 (hmode _ hty)] at hq
    refine ⟨report fl (findConflict q s.ranges), ?_, ?_⟩
    · unfold fsPosixLock
      simp [hq]
    · exact report_lType.2 (Option.ne_none_iff_exists'.1 h1.1)

/-- Two ranges are on one file. -/
def OneFile (Open : File → Prop) (a b : PosixRange) : Prop :=
  ∃ f g, Open f ∧ Open g ∧ a.file = f.id ∧ b.file = g.id ∧ f.file = g.file

/-- Own ranges are disjoint, shared bytes are read locks, a call that succeeds sets exactly the bytes asked for, a
call that fails changes nothing, and `F_GETLK` foretells `F_SETLK`, unless the open mode does not allow the lock at
all. -/
structure Good (Open : File → Prop) (s : State) : Prop where
  own : s.ranges.Pairwise fun a b => a.owner = b.owner → OneFile Open a b → a.stop < b.start ∨ b.stop < a.start
  shared : ∀ a ∈ s.ranges, ∀ b ∈ s.ranges, a.owner ≠ b.owner → OneFile Open a b → a.start ≤ b.stop →
    b.start ≤ a.stop → a.type = .rdlck ∧ b.type = .rdlck
  lock : ∀ tid tgid cmd fp fl mem res s', Open fp → Step s (.lock tid tgid cmd fp fl mem res) s' →
    LockEffect Open s.ranges s'.ranges tgid cmd fp fl res
  resume : ∀ tid fp q res s', Open fp → Step s (.resume tid fp q res) s' →
    ((∃ fl, res = .ret 0 fl) ∧
      SetsExactly Open s.ranges s'.ranges q.owner fp (fun x => q.start ≤ x ∧ x ≤ q.stop) q.type) ∨
    ((∀ fl, res ≠ .ret 0 fl) ∧ s'.ranges = s.ranges)
  release : ∀ fp owner s', (∀ f ∈ fp, Open f) → Step s (.release fp owner) s' → ∀ g, Open g → ∀ o x,
    lockAt s'.ranges ⟨o, g.id, x⟩ =
      if o = owner ∧ ∀ f ∈ fp, g.file = f.file then none else lockAt s.ranges ⟨o, g.id, x⟩
  genuine : ∀ tid tgid fp fl mem signal fl', Open fp →
    (fsPosixLock s tid tgid .getlk64 fp fl mem signal).2 = .ret 0 fl' → fl'.lType ≠ fUnlck →
    Genuine Open s.ranges tgid fp fl fl'
  foretold : ∀ tid tgid fp fl signal, (∀ type, parseType fl.lType = some type → ¬BadMode fp type) →
    ((∃ fl', (fsPosixLock s tid tgid .getlk64 fp fl true signal).2 = .ret 0 fl' ∧ fl'.lType ≠ fUnlck) ↔
      (fsPosixLock s tid tgid .setlk64 fp fl true signal).2 = .ret eagain fl)
  refused : ∀ tid tgid fp fl signal type, parseType fl.lType = some type → BadMode fp type →
    (fsPosixLock s tid tgid .setlk64 fp fl true signal).2 = .ret ebadf fl

theorem OneFile.eq {a b : PosixRange} (hkey : Keyed Open) (h : OneFile Open a b) : a.file = b.file := by
  obtain ⟨f, g, hf, hg, ha, hb, heq⟩ := h
  rw [ha, hb, hkey f g hf hg, heq]

theorem TableOk.good (hs : TableOk s) (hkey : Keyed Open) : Good Open s where
  own := hs.own.imp fun h ho hone => h ho (hone.eq hkey)
  shared a ha b hb ho hone := hs.shared a ha b hb ho (hone.eq hkey)
  lock tid tgid cmd fp fl mem res s' hopen hstep := by
    cases hstep
    exact fsPosixLock_effect hs hkey hopen _ _ _ _ _ _
  resume tid fp q res s' hopen hstep := by
    cases hstep with
    | @resume _ _ _ fl interrupted signal hw =>
      unfold resumeLock
      split_ifs
      · exact .inr ⟨fun fl => by simp [eintr], rfl⟩
      · rcases setPass_effect (hs.wake tid) hkey hopen (hs.waiting _ _ _ _ hw).2 tid .setlkw64 fl signal with
          ⟨h1, h2⟩ | h1
        · exact .inl ⟨⟨fl, h1⟩, h2⟩
        · exact .inr h1
  release fp owner s' hopen hstep g hg o x := by
    cases hstep
    rw [release_effect hs]
    refine if_congr (and_congr_right fun _ => ?_) rfl rfl
    exact forall₂_congr fun f hf => hkey g f hg (hopen f hf)
  genuine tid tgid fp fl mem signal fl' hopen hret hl := getlk_genuine hkey hopen hret hl
  foretold tid tgid fp fl signal hmode := getlk_iff_eagain hmode
  refused tid tgid fp fl signal type hty hbad := by simp [fsPosixLock, checkRequest, hty, hbad]

/-- Some lock on all of a file can be taken first, whatever the open mode, and the table has it under the key of the
file. -/
theorem first_lock (fp : File) : ∃ (t : LockType) (s : State),
    Step .start (.lock 0 0 .setlk64 fp ⟨t.toShort, 0, 0, 0, 0⟩ true (.ret 0 ⟨t.toShort, 0, 0, 0, 0⟩)) s ∧
    ∀ file, lockAt s.ranges ⟨0, file, 0⟩ = if file = fp.id then some t else none := by
  obtain ⟨t, ht⟩ : ∃ t, ¬BadMode fp (some t) := by
    by_cases hw : fp.fMode &&& oAccmode = oWronly
    · exact ⟨.wrlck, by simp [BadMode, hw, oWronly, oRdonly]⟩
    · exact ⟨.rdlck, by simp [BadMode, hw]⟩
  have hparse : parseType t.toShort = some (some t) := by cases t <;> rfl
  obtain ⟨q, hq⟩ : ∃ q, checkRequest 0 .setlk64 fp ⟨t.toShort, 0, 0, 0, 0⟩ = .ok q := by
    cases hq : checkRequest 0 .setlk64 fp ⟨t.toShort, 0, 0, 0, 0⟩ with
    | ok q => exact ⟨q, rfl⟩
    | error e =>
      unfold checkRequest at hq
      rw [hparse] at hq
      simp [ht, baseOf, rangeOf, addOverflow, int64Min, int64Max] at hq
  obtain ⟨ho, hf, hty, -, base, hbase, hspan⟩ := checkRequest_ok hq
  have hret : fsPosixLock .start 0 0 .setlk64 fp ⟨t.toShort, 0, 0, 0, 0⟩ true false =
      ({ State.start with used := update State.start.used 0 true, ranges := applyRequest q [] },
        .ret 0 ⟨t.toShort, 0, 0, 0, 0⟩) := by
    unfold fsPosixLock
    simp [hq, setPass, findConflict, State.start]
  have hstep := @Step.lock .start 0 0 .setlk64 fp ⟨t.toShort, 0, 0, 0, 0⟩ true false rfl
  rw [hret] at hstep
  refine ⟨t, _, hstep, fun file => ?_⟩
  have hzero : q.start ≤ 0 ∧ 0 ≤ q.stop := by
    rw [hspan 0 (by decide) (by decide)]
    cases hbase
    simp [Asked]
  have htype : q.type = some t := by simpa [hparse] using hty.symm
  rw [lockAt_applyRequest List.Pairwise.nil]
  refine if_congr ?_ htype rfl
  simp [Request.Covers, ho, hf, hzero, eq_comm]

/-- The locks are those of the files in every run, just if the table tells the open files apart. -/
theorem fs_posix_lock_runs (Open : File → Prop) : Keyed Open ↔
    ∀ tr s, Run (fun s e s' => Step s e s' ∧ e.Among Open) .start tr s → Good Open s := by
  constructor
  · exact fun hkey tr s h => (run_tableOk (h.imp fun _ _ _ _ hs => hs.1)).good hkey
  · intro h f g hf hg
    obtain ⟨t, s, hstep, hat⟩ := first_lock f
    obtain ⟨type, base, hty, hbase, hset⟩ := ((h [] .start .nil).lock _ _ _ _ _ _ _ _ hf hstep).1 ⟨_, rfl⟩ (by decide)
    have hparse : parseType t.toShort = some (some t) := by cases t <;> rfl
    rw [hparse] at hty
    cases hty
    cases hbase
    obtain ⟨hin, hout⟩ := hset g hg 0 0 (by decide) (by decide)
    rw [hat] at hin hout
    by_cases hfile : f.file = g.file
    · have heq := hin ⟨rfl, hfile.symm, by simp [Asked]⟩
      split_ifs at heq with hid
      exact iff_of_true hid.symm hfile
    · have heq := hout fun h => hfile h.2.1.symm
      refine iff_of_false (fun hid => ?_) hfile
      rw [if_pos hid.symm] at heq
      cases heq

/-- A file that two processes have open: the inodes are two, the tag and the number are one. -/
def taggedFile (inode : Nat) : File := ⟨1, inode, 5, 7, 0, 0, 2, none⟩

/-- The first owner locks bytes 0 to 99 and unlocks 40 to 59, which the second owner then gets, but not all 100. -/
def splitSteps : List Event :=
  [.lock 1 1 .setlk64 (taggedFile 1) ⟨1, 0, 0, 100, 0⟩ true (.ret 0 ⟨1, 0, 0, 100, 0⟩),
    .lock 1 1 .setlk64 (taggedFile 1) ⟨2, 0, 40, 20, 0⟩ true (.ret 0 ⟨2, 0, 40, 20, 0⟩),
    .lock 2 2 .setlk64 (taggedFile 2) ⟨1, 0, 40, 20, 0⟩ true (.ret 0 ⟨1, 0, 40, 20, 0⟩),
    .lock 2 2 .setlk64 (taggedFile 2) ⟨1, 0, 0, 100, 0⟩ true (.ret eagain ⟨1, 0, 0, 100, 0⟩)]

theorem fs_posix_lock_runs_split : ∃ s, Run (fun s e s' => Step s e s' ∧ e.Among (∃ n, · = taggedFile n)) .start
    splitSteps s ∧ s.ranges.length = 3 ∧ Good (∃ n, · = taggedFile n) s := by
  have hkey : Keyed (∃ n, · = taggedFile n) := by
    rintro f g ⟨n, rfl⟩ ⟨m, rfl⟩
    exact iff_of_true rfl rfl
  have h0 : Run (fun s e s' => Step s e s' ∧ e.Among (∃ n, · = taggedFile n)) .start [] _ := .nil
  have h1 := h0.snoc ⟨@Step.lock _ 1 1 .setlk64 (taggedFile 1) ⟨1, 0, 0, 100, 0⟩ true false rfl, 1, rfl⟩
  have h2 := h1.snoc ⟨@Step.lock _ 1 1 .setlk64 (taggedFile 1) ⟨2, 0, 40, 20, 0⟩ true false rfl, 1, rfl⟩
  have h3 := h2.snoc ⟨@Step.lock _ 2 2 .setlk64 (taggedFile 2) ⟨1, 0, 40, 20, 0⟩ true false rfl, 2, rfl⟩
  have h4 := h3.snoc ⟨@Step.lock _ 2 2 .setlk64 (taggedFile 2) ⟨1, 0, 0, 100, 0⟩ true false rfl, 2, rfl⟩
  exact ⟨_, h4, by decide +kernel, (fs_posix_lock_runs _).1 hkey _ _ h4⟩

/-- A node of a disk, opened for reading and writing: `i_pgcache_tag` and `i_ino` are 0. -/
def deviceNode (inode : Nat) : File := ⟨1, inode, 0, 0, 0, 0, 2, none⟩

/-- Two processes have all bytes of a disk locked for writing. -/
theorem device_locked_twice : ∃ s, Run Step .start
      [.lock 1 1 .setlk64 (deviceNode 1) ⟨1, 0, 0, 0, 0⟩ true (.ret 0 ⟨1, 0, 0, 0, 0⟩),
        .lock 2 2 .setlk64 (deviceNode 2) ⟨1, 0, 0, 0, 0⟩ true (.ret 0 ⟨1, 0, 0, 0, 0⟩)] s ∧
    (deviceNode 1).file = (deviceNode 2).file ∧ lockAt s.ranges ⟨1, (deviceNode 1).id, 0⟩ = some .wrlck ∧
    lockAt s.ranges ⟨2, (deviceNode 2).id, 0⟩ = some .wrlck := by
  have h1 := Run.single (@Step.lock .start 1 1 .setlk64 (deviceNode 1) ⟨1, 0, 0, 0, 0⟩ true false rfl)
  have h2 := h1.snoc (@Step.lock _ 2 2 .setlk64 (deviceNode 2) ⟨1, 0, 0, 0, 0⟩ true false rfl)
  exact ⟨_, h2, rfl, by decide +kernel, by decide +kernel⟩

end Mos.PosixLock
