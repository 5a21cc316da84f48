import Mathlib.Data.Nat.Bitwise
import Mos.Lib.Run
import Mos.Lib.Tally
import Mos.Lib.Word

/-!
# Readers-writer locks

`rwlock_t` of `src/lib/impl/lock.c`.  The state word has 30 bits for the number of readers, one bit for the writer and
one, `RW_PENDING`, that closes the gate for new readers while writers wait.  Readers change the word without the queue
lock; writers that have to wait, and every unlocking writer, work under `wait_lock`.

The first part says what the atomic operations do to the bit fields (`rwWord`).  The second part is the code, one step
for each atomic access to the word, each spinlock operation and each critical section of `ps_lock`, with the weak
compare-and-exchange of `rwlock_try_read` free to fail.
-/

namespace Mos.Lock

open Lib

def rwWriter : Nat := 2 ^ 30

def rwPending : Nat := 2 ^ 31

def rwReaders : Nat := rwWriter - 1

def not32 (x : Nat) : Nat := 2 ^ 32 - 1 - x

/-- The state word with the given bit fields. -/
def rwWord (readers : Nat) (writer pending : Bool) : Nat := readers + writer.toNat * 2 ^ 30 + pending.toNat * 2 ^ 31

section

variable {r : Nat} {w p : Bool}

section

variable (h : r < 2 ^ 30)

include h

private theorem rwWord_lt : rwWord r w p < 2 ^ 32 := by
  unfold rwWord
  cases w <;> cases p <;> simp <;> omega

theorem rwWord_inj {r' : Nat} {w' p' : Bool} (h' : r' < 2 ^ 30) :
    rwWord r w p = rwWord r' w' p' ↔ r = r' ∧ w = w' ∧ p = p' := by
  constructor
  · unfold rwWord
    intro heq
    cases w <;> cases p <;> cases w' <;> cases p' <;> simp only [Bool.toNat_false, Bool.toNat_true] at heq <;>
      first | exact ⟨by omega, rfl, rfl⟩ | omega
  · rintro ⟨rfl, rfl, rfl⟩
    rfl

theorem rwWord_readers : rwWord r w p &&& rwReaders = r := by
  have hm : rwReaders = 2 ^ 30 - 1 := rfl
  rw [hm, Nat.and_two_pow_sub_one_eq_mod]
  unfold rwWord
  cases w <;> cases p <;> simp <;> omega

private theorem rwWord_bit : (rwWord r w p).testBit 30 = w ∧ (rwWord r w p).testBit 31 = p := by
  rw [Nat.testBit_eq_decide_div_mod_eq, Nat.testBit_eq_decide_div_mod_eq]
  unfold rwWord
  cases w <;> cases p <;> simp only [Bool.toNat_false, Bool.toNat_true, decide_eq_true_eq,
    decide_eq_false_iff_not] <;> omega

theorem rwWord_closed : rwWord r w p &&& (rwWriter ||| rwPending) = 0 ↔ w = false ∧ p = false := by
  obtain ⟨h1, h2⟩ := rwWord_bit h
  rw [Nat.and_or_distrib_left, rwWriter, rwPending, Nat.and_two_pow, Nat.and_two_pow, h1, h2]
  cases w <;> cases p <;> simp

theorem rwWord_pending : rwWord r w p &&& rwPending ≠ 0 ↔ p = true := by
  rw [rwPending, Nat.and_two_pow, (rwWord_bit h).2]
  cases p <;> simp

end

theorem rwWord_incr (h : r + 1 < 2 ^ 30) : addW 32 (rwWord r w p) 1 = rwWord (r + 1) w p := by
  have := rwWord_lt (w := w) (p := p) h
  rw [addW_eq] <;> unfold rwWord at * <;> omega

theorem rwWord_decr (h : r + 1 < 2 ^ 30) : subW 32 (rwWord (r + 1) w p) 1 = rwWord r w p := by
  rw [subW_eq _ (rwWord_lt h)] <;> unfold rwWord <;> omega

theorem rwWord_setPending (h : r < 2 ^ 30) : rwWord r w p ||| rwPending = rwWord r w true := by
  have hor : ∀ x : Nat, x < 2 ^ 31 → x ||| rwPending = 2 ^ 31 + x := by
    intro x hx
    have := Nat.two_pow_add_eq_or_of_lt hx 1
    rw [Nat.mul_one] at this
    rw [rwPending, Nat.or_comm]
    exact this.symm
  have hlt : rwWord r w false < 2 ^ 31 := by
    unfold rwWord
    cases w <;> simp <;> omega
  have htrue : rwWord r w true = rwWord r w false ||| rwPending := by
    rw [hor _ hlt]
    unfold rwWord
    simp
    omega
  cases p with
  | false => exact htrue.symm
  | true => rw [htrue, Nat.or_assoc, Nat.or_self]

theorem rwWord_clearPending (h : r < 2 ^ 30) : rwWord r w p &&& not32 rwPending = rwWord r w false := by
  have hm : not32 rwPending = 2 ^ 31 - 1 := rfl
  rw [hm, Nat.and_two_pow_sub_one_eq_mod]
  unfold rwWord
  cases w <;> cases p <;> simp <;> omega

theorem rwWord_clearWriter (h : r < 2 ^ 30) : rwWord r w p &&& not32 rwWriter = rwWord r false p := by
  have hm : not32 rwWriter = 2 ^ 31 ||| (2 ^ 30 - 1) := rfl
  have hr : rwWord r w p &&& (2 ^ 30 - 1) = r := rwWord_readers h
  have hor := Nat.two_pow_add_eq_or_of_lt (show r < 2 ^ 31 by omega) 1
  rw [Nat.mul_one] at hor
  rw [hm, Nat.and_or_distrib_left, Nat.and_two_pow, (rwWord_bit h).2, hr]
  unfold rwWord
  cases p
  · simp
  · rw [Bool.toNat_true, Nat.one_mul, ← hor, Bool.toNat_false]
    omega

end
/-- Where a task stands.  `readCas` and `rereadCas` carry the local variable `state` of `rwlock_try_read`, before and
under `wait_lock`; `parked` says whether the task is still linked in its wait list. -/
inductive RwPc
  | idle
  -- `rwlock_read_lock`
  | readLoad
  | readCas (state : Nat)
  | readSpin
  | rereadLoad
  | rereadCas (state : Nat)
  | readPark
  | readEnqueued (parked : Bool)
  | readAsleep (parked : Bool)
  | readRet
  | readHeld
  -- `rwlock_read_unlock`; `lastSpin` to `lastUnlock` only for the last reader before a pending writer
  | readSub
  | lastSpin
  | lastCheck
  | lastWake
  | lastUnlock
  -- `rwlock_write_lock`
  | writeCas
  | writeSpin
  | writeCount
  | writePend
  | writeTry
  | writePark
  | writeEnqueued (parked : Bool)
  | writeAsleep (parked : Bool)
  | writeAgain
  | writeDone
  | writeClear
  | writeRet
  | writeHeld
  -- `rwlock_write_unlock`
  | outSpin
  | outClear
  | outCheck
  | outWakeWriter
  | outWakeReaders
  | outUnlock
  -- `DIE()` on a full reader field
  | dead
  deriving DecidableEq

def RwPc.woken : RwPc → RwPc
  | .readEnqueued _ => .readEnqueued false
  | .readAsleep _ => .readAsleep false
  | .writeEnqueued _ => .writeEnqueued false
  | .writeAsleep _ => .writeAsleep false
  | p => p

structure Rw (T : Type) where
  state : Nat
  writersWaiting : Nat
  waitLock : Bool
  readerList : List T
  writerList : List T
  pc : T → RwPc

/-- `rwlock_init`. -/
def Rw.init (T : Type) : Rw T := ⟨0, 0, false, [], [], fun _ => .idle⟩

/-- `admitted` is a reader that gets in, `pended` the setting of `RW_PENDING`, `acquired` a waiting writer that gets
in. -/
inductive RwEvent (T : Type)
  | readLock (t : T)
  | readUnlock (t : T)
  | writeLock (t : T)
  | writeUnlock (t : T)
  | admitted (t : T)
  | pended (t : T)
  | acquired (t : T)
  | internal (t : T)
  | wake (t : T)
  deriving DecidableEq

def RwEvent.inside {T : Type} : RwEvent T → Bool
  | .admitted _ | .pended _ | .acquired _ | .internal _ => true
  | _ => false

section

variable {T : Type} [DecidableEq T]

def Rw.go (s : Rw T) (t : T) (p : RwPc) : Rw T := { s with pc := Function.update s.pc t p }

/-- Unlink a waiting task and make it ready; it is in one of the two lists. -/
def Rw.wakeTask (s : Rw T) (u : T) : Rw T :=
  { s with readerList := s.readerList.erase u, writerList := s.writerList.erase u,
           pc := Function.update s.pc u (s.pc u).woken }

/-- `lock_wake_one_unsafe` on the first task of a list. -/
def Rw.wakeOne (s : Rw T) : List T → Rw T
  | [] => s
  | u :: _ => s.wakeTask u

/-- The head of the loop of `rwlock_try_read`, on the value just read: the gate is closed, the reader field is full,
or the value is tried. -/
def tryRead (state : Nat) (closed : RwPc) (cas : Nat → RwPc) : RwPc :=
  if state &&& (rwWriter ||| rwPending) ≠ 0 then closed
  else if state &&& rwReaders = rwReaders then .dead
  else cas state

inductive RwStep : Rw T → RwEvent T → Rw T → Prop
  -- `rwlock_read_lock`
  | readLock {s t} : s.pc t = .idle → RwStep s (.readLock t) (s.go t .readLoad)
  | readLoad {s t} : s.pc t = .readLoad → RwStep s (.internal t) (s.go t (tryRead s.state .readSpin .readCas))
  | readAdmit {s t v} : s.pc t = .readCas v → s.state = v →
      RwStep s (.admitted t) ({ s with state := addW 32 v 1 }.go t .readHeld)
  | readFail {s t v} : s.pc t = .readCas v →
      RwStep s (.internal t) (s.go t (tryRead s.state .readSpin .readCas))
  | readSpin {s t} : s.pc t = .readSpin → s.waitLock = false →
      RwStep s (.internal t) ({ s with waitLock := true }.go t .rereadLoad)
  | rereadLoad {s t} : s.pc t = .rereadLoad →
      RwStep s (.internal t) (s.go t (tryRead s.state .readPark .rereadCas))
  | rereadAdmit {s t v} : s.pc t = .rereadCas v → s.state = v →
      RwStep s (.admitted t) ({ s with state := addW 32 v 1 }.go t .readRet)
  | rereadFail {s t v} : s.pc t = .rereadCas v →
      RwStep s (.internal t) (s.go t (tryRead s.state .readPark .rereadCas))
  | readPark {s t} : s.pc t = .readPark →
      RwStep s (.internal t) ({ s with readerList := s.readerList ++ [t] }.go t (.readEnqueued true))
  | readSleep {s t p} : s.pc t = .readEnqueued p →
      RwStep s (.internal t) ({ s with waitLock := false }.go t (.readAsleep p))
  | readResume {s t} : s.pc t = .readAsleep false → RwStep s (.internal t) (s.go t .readSpin)
  | readRet {s t} : s.pc t = .readRet → RwStep s (.internal t) ({ s with waitLock := false }.go t .readHeld)
  -- `rwlock_read_unlock`
  | readUnlock {s t} : s.pc t = .readHeld → RwStep s (.readUnlock t) (s.go t .readSub)
  | readSub {s t} : s.pc t = .readSub → s.state ≠ rwPending ||| 1 →
      RwStep s (.internal t) ({ s with state := subW 32 s.state 1 }.go t .idle)
  | readSubLast {s t} : s.pc t = .readSub → s.state = rwPending ||| 1 →
      RwStep s (.internal t) ({ s with state := subW 32 s.state 1 }.go t .lastSpin)
  | lastSpin {s t} : s.pc t = .lastSpin → s.waitLock = false →
      RwStep s (.internal t) ({ s with waitLock := true }.go t .lastCheck)
  | lastFree {s t} : s.pc t = .lastCheck → s.state = rwPending → RwStep s (.internal t) (s.go t .lastWake)
  | lastTaken {s t} : s.pc t = .lastCheck → s.state ≠ rwPending → RwStep s (.internal t) (s.go t .lastUnlock)
  | lastWake {s t} : s.pc t = .lastWake → RwStep s (.internal t) ((s.wakeOne s.writerList).go t .lastUnlock)
  | lastUnlock {s t} : s.pc t = .lastUnlock → RwStep s (.internal t) ({ s with waitLock := false }.go t .idle)
  -- `rwlock_write_lock`
  | writeLock {s t} : s.pc t = .idle → RwStep s (.writeLock t) (s.go t .writeCas)
  | writeFast {s t} : s.pc t = .writeCas → s.state = 0 →
      RwStep s (.internal t) ({ s with state := rwWriter }.go t .writeHeld)
  | writeSlow {s t} : s.pc t = .writeCas → s.state ≠ 0 → RwStep s (.internal t) (s.go t .writeSpin)
  | writeSpin {s t} : s.pc t = .writeSpin → s.waitLock = false →
      RwStep s (.internal t) ({ s with waitLock := true }.go t .writeCount)
  | writeCount {s t} : s.pc t = .writeCount →
      RwStep s (.internal t) ({ s with writersWaiting := s.writersWaiting + 1 }.go t .writePend)
  | writePend {s t} : s.pc t = .writePend →
      RwStep s (.pended t) ({ s with state := s.state ||| rwPending }.go t .writeTry)
  | writeTake {s t} : s.pc t = .writeTry → s.state = rwPending →
      RwStep s (.acquired t) ({ s with state := rwPending ||| rwWriter }.go t .writeDone)
  | writeFail {s t} : s.pc t = .writeTry → s.state ≠ rwPending → RwStep s (.internal t) (s.go t .writePark)
  | writePark {s t} : s.pc t = .writePark →
      RwStep s (.internal t) ({ s with writerList := s.writerList ++ [t] }.go t (.writeEnqueued true))
  | writeSleep {s t p} : s.pc t = .writeEnqueued p →
      RwStep s (.internal t) ({ s with waitLock := false }.go t (.writeAsleep p))
  | writeResume {s t} : s.pc t = .writeAsleep false → RwStep s (.internal t) (s.go t .writeAgain)
  | writeAgain {s t} : s.pc t = .writeAgain → s.waitLock = false →
      RwStep s (.internal t) ({ s with waitLock := true }.go t .writeTry)
  | writeDone {s t} : s.pc t = .writeDone →
      RwStep s (.internal t) ({ s with writersWaiting := s.writersWaiting - 1 }.go t
        (if s.writersWaiting - 1 = 0 then .writeClear else .writeRet))
  | writeClear {s t} : s.pc t = .writeClear →
      RwStep s (.internal t) ({ s with state := s.state &&& not32 rwPending }.go t .writeRet)
  | writeRet {s t} : s.pc t = .writeRet → RwStep s (.internal t) ({ s with waitLock := false }.go t .writeHeld)
  -- `rwlock_write_unlock`
  | writeUnlock {s t} : s.pc t = .writeHeld → RwStep s (.writeUnlock t) (s.go t .outSpin)
  | outSpin {s t} : s.pc t = .outSpin → s.waitLock = false →
      RwStep s (.internal t) ({ s with waitLock := true }.go t .outClear)
  | outClear {s t} : s.pc t = .outClear →
      RwStep s (.internal t) ({ s with state := s.state &&& not32 rwWriter }.go t .outCheck)
  | outCheck {s t} : s.pc t = .outCheck →
      RwStep s (.internal t) (s.go t (if s.writersWaiting > 0 then .outWakeWriter else .outWakeReaders))
  | outWakeWriter {s t} : s.pc t = .outWakeWriter →
      RwStep s (.internal t) ((s.wakeOne s.writerList).go t .outUnlock)
  | outWakeReader {s t} : s.pc t = .outWakeReaders → s.readerList ≠ [] →
      RwStep s (.internal t) (s.wakeOne s.readerList)
  | outWokeReaders {s t} : s.pc t = .outWakeReaders → s.readerList = [] → RwStep s (.internal t) (s.go t .outUnlock)
  | outUnlock {s t} : s.pc t = .outUnlock → RwStep s (.internal t) ({ s with waitLock := false }.go t .idle)
  -- a timer, a signal or a poll wakeup
  | wake {s t} : t ∈ s.readerList ∨ t ∈ s.writerList → RwStep s (.wake t) (s.wakeTask t)

def RwQuiet (s : Rw T) : Prop := ∀ e s', RwStep s e s' → e.inside = false

theorem RwQuiet.stuck {s s' : Rw T} {e : RwEvent T} {P : Prop} (hq : RwQuiet s) (hs : RwStep s e s')
    (he : e.inside = true) : P := by
  rw [hq e s' hs] at he
  cases he

end

end Mos.Lock
