import Mos.CycleBuf.System
import Mos.Lock.Base

/-!
# Blocking on a cycle buffer

The blocking `cyb_getbuf` and `cyb_putbuf` and the two close functions of `src/lib/impl/cyclebuf.c`, with the two
events as the `cond_t` they are: each is a lock base with its own wait list (`Mos.Lock.Base`).  A step is one critical
section of `b->lock`, one access to an open count, or one step inside an event.  The critical sections are those of
`Mos.CycleBuf.Buffer`; `cond_reset` inside them writes the lock word of an event.
-/

namespace Mos.CycleBuf

open Lib

/-- The calls of the system, all blocking. -/
inductive WaitCall
  | putbuf (data : List UInt8) (interruptible : Bool)
  | getbuf (len : Int) (interruptible : Bool)
  | close (writer : Bool)

/-- Where a task is inside a call.  The `…ing` positions and the two waits are inside an event. -/
inductive PipePc
  | idle
  | putTop (data : List UInt8) (interruptible : Bool) (written : Nat)
  | putNotify (data : List UInt8) (interruptible : Bool) (written : Nat)
  | putNotifying (data : List UInt8) (interruptible : Bool) (written : Nat)
  | putCheck (data : List UInt8) (interruptible : Bool) (written : Nat)
  | putWait (data : List UInt8) (interruptible : Bool) (written : Nat)
  | getTop (len : Int) (interruptible : Bool)
  | getWait (len : Int) (interruptible : Bool)
  | getSignalled (len : Int) (interruptible : Bool)
  | getNotify (n : Nat)
  | getNotifying (n : Nat)
  | closeTop (writer : Bool)
  | closeNotify (writer : Bool)
  | closeNotifying (writer : Bool)
  | returning (value : Int)

def WaitCall.entry : WaitCall → PipePc
  | .putbuf data it => .putTop data it 0
  | .getbuf len it => .getTop len it
  | .close writer => .closeTop writer

structure Pipe (T : Type) where
  b : CyBuf
  read : Lock.Base T
  write : Lock.Base T
  pc : T → PipePc

inductive PipeEvent (T : Type)
  | call (t : T) (c : WaitCall)
  | internal (t : T)
  | ret (t : T) (value : Int)
  | wake (t : T)

/-- The events of a task that is inside one of the functions. -/
def PipeEvent.inside {T : Type} : PipeEvent T → Bool
  | .internal _ | .ret _ _ => true
  | _ => false

/-- What a task does after its call into an event has returned. -/
def PipePc.resume {T : Type} : Lock.Event T → PipePc → PipePc
  | .acquired _, .putWait data it w => .putTop data it w
  | .acquired _, .getWait len it => .getTop len it
  | .interrupted _, .putWait _ _ w => .returning (putResult w eintr)
  | .interrupted _, .getWait len it => .getSignalled len it
  | .released _, .putNotifying data it w => .putCheck data it w
  | .released _, .getNotifying n => .returning n
  | .released _, .closeNotifying _ => .returning 0
  | _, p => p

variable {T : Type}

/-- The buffer with the current lock words of its events. -/
def Pipe.buf (s : Pipe T) : CyBuf := { s.b with readEvent := s.read.lock, writeEvent := s.write.lock }

/-- The effect of a critical section on the buffer and on the lock words. -/
def Pipe.setBuf (s : Pipe T) (b : CyBuf) : Pipe T :=
  { s with b := b, read := { s.read with lock := b.readEvent }, write := { s.write with lock := b.writeEvent } }

def Pipe.start (T : Type) (b : CyBuf) : Pipe T :=
  ⟨b, Lock.Base.init T b.readEvent, Lock.Base.init T b.writeEvent, fun _ => .idle⟩

variable [DecidableEq T]

def Pipe.go (s : Pipe T) (t : T) (p : PipePc) : Pipe T := { s with pc := Function.update s.pc t p }

inductive PipeStep : Pipe T → PipeEvent T → Pipe T → Prop
  | call {s t} (c : WaitCall) : s.pc t = .idle → PipeStep s (.call t c) (s.go t c.entry)
  -- cyb_putbuf
  | putEmpty {s t it w} : s.pc t = .putTop [] it w → PipeStep s (.internal t) (s.go t (.returning 0))
  | putCopy {s t data it w} : s.pc t = .putTop data it w → data ≠ [] →
      PipeStep s (.internal t) ((s.setBuf (putLocked s.buf data w)).go t
        (if s.b.length = 0 ∧ putCount s.buf data w > 0 then .putNotify data it (w + putCount s.buf data w)
         else .putCheck data it (w + putCount s.buf data w)))
  | putNotify {s t data it w r} : s.pc t = .putNotify data it w → Lock.Step s.read (.call t .release) r →
      PipeStep s (.internal t) ({ s with read := r }.go t (.putNotifying data it w))
  | putDone {s t data it w} : s.pc t = .putCheck data it w → w = data.length →
      PipeStep s (.internal t) (s.go t (.returning (toSigned 32 w)))
  | putBroken {s t data it w} : s.pc t = .putCheck data it w → w ≠ data.length → s.b.readerCount = 0 →
      PipeStep s (.internal t) (s.go t (.returning (putResult w epipe)))
  | putBlock {s t data it w r} : s.pc t = .putCheck data it w → w ≠ data.length → s.b.readerCount ≠ 0 →
      Lock.Step s.write (.call t (.wait it)) r →
      PipeStep s (.internal t) ({ s with write := r }.go t (.putWait data it w))
  -- cyb_getbuf
  | getNothing {s t len it} : s.pc t = .getTop len it → len ≤ 0 →
      PipeStep s (.internal t) (s.go t (.returning 0))
  | getCopy {s t len it} : s.pc t = .getTop len it → 0 < len → s.b.length > 0 →
      PipeStep s (.internal t) ((s.setBuf (getLocked s.buf len.toNat).2).go t
        (if s.b.length = s.b.bufSize then .getNotify (getCount s.buf len.toNat)
         else .returning (getCount s.buf len.toNat)))
  | getEof {s t len it} : s.pc t = .getTop len it → 0 < len → s.b.length = 0 → s.b.writerCount = 0 →
      PipeStep s (.internal t) (s.go t (.returning 0))
  | getBlock {s t len it r} : s.pc t = .getTop len it → 0 < len → s.b.length = 0 → s.b.writerCount ≠ 0 →
      Lock.Step s.read (.call t (.wait it)) r →
      PipeStep s (.internal t) ({ s with read := r }.go t (.getWait len it))
  | getSignalEof {s t len it} : s.pc t = .getSignalled len it → s.b.writerCount = 0 →
      PipeStep s (.internal t) (s.go t (.getTop len it))
  | getSignalRet {s t len it} : s.pc t = .getSignalled len it → s.b.writerCount ≠ 0 →
      PipeStep s (.internal t) (s.go t (.returning (-1)))
  | getNotify {s t n r} : s.pc t = .getNotify n → Lock.Step s.write (.call t .release) r →
      PipeStep s (.internal t) ({ s with write := r }.go t (.getNotifying n))
  -- cyb_writer_close, cyb_reader_close
  | closeWriter {s t} : s.pc t = .closeTop true →
      PipeStep s (.internal t)
        ({ s with b := { s.b with writerCount := s.b.writerCount - 1 } }.go t (.closeNotify true))
  | closeReader {s t} : s.pc t = .closeTop false →
      PipeStep s (.internal t)
        ({ s with b := { s.b with readerCount := s.b.readerCount - 1 } }.go t (.closeNotify false))
  | closeNotifyRead {s t r} : s.pc t = .closeNotify true → Lock.Step s.read (.call t .release) r →
      PipeStep s (.internal t) ({ s with read := r }.go t (.closeNotifying true))
  | closeNotifyWrite {s t r} : s.pc t = .closeNotify false → Lock.Step s.write (.call t .release) r →
      PipeStep s (.internal t) ({ s with write := r }.go t (.closeNotifying false))
  | ret {s t v} : s.pc t = .returning v → PipeStep s (.ret t v) (s.go t .idle)
  -- inside an event, and a wakeup of a task that waits there
  | readEvent {s e r} : Lock.Step s.read e r → e.inside = true →
      PipeStep s (.internal e.task) ({ s with read := r }.go e.task ((s.pc e.task).resume e))
  | writeEvent {s e r} : Lock.Step s.write e r → e.inside = true →
      PipeStep s (.internal e.task) ({ s with write := r }.go e.task ((s.pc e.task).resume e))
  | readWake {s t r} : Lock.Step s.read (.wake t) r → PipeStep s (.wake t) { s with read := r }
  | writeWake {s t r} : Lock.Step s.write (.wake t) r → PipeStep s (.wake t) { s with write := r }

def PipeQuiet (s : Pipe T) : Prop := ∀ e s', PipeStep s e s' → e.inside = false

/-- Asleep in `cyb_getbuf`, on the list of `read_event`. -/
def ParkedGet (s : Pipe T) (t : T) : Prop := (∃ len it, s.pc t = .getWait len it) ∧ t ∈ s.read.waitList

/-- Asleep in `cyb_putbuf`, on the list of `write_event`. -/
def ParkedPut (s : Pipe T) (t : T) : Prop := (∃ data it w, s.pc t = .putWait data it w) ∧ t ∈ s.write.waitList

/-- Nobody is left asleep who could go on. -/
def Served (s : Pipe T) : Prop :=
  (∀ t, ParkedGet s t → ¬(s.b.length > 0 ∨ s.b.writerCount = 0)) ∧
    ∀ t, ParkedPut s t → ¬(s.b.length < s.b.bufSize ∨ s.b.readerCount = 0)

end Mos.CycleBuf
