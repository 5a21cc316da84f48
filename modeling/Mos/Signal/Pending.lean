import Mos.Lib.Run
import Mathlib.Data.BitVec

/-!
# Pending signals

The pending state of a process in `src/ps/impl/ps_signal.c`, on x86-64: the thread group and each of its tasks has a
bit set of pending signals, a queue of payloads and one default payload per signal.  `sigqueueinfo` queues for the
group, `ps_timer_notify` for the group or one task, and `ps_take_signal_info` consumes bit and payload together.
Every function runs under `ps_lock`.
-/

namespace Mos.Signal

open Function

abbrev SigSet := BitVec 64

/-- One past the highest signal. -/
def nsig : Nat := 65

def sigrtminKernel : Nat := 32

def sigcont : Nat := 18

def sigstop : Nat := 19

def sigtstp : Nat := 20

def sigttin : Nat := 21

def sigttou : Nat := 22

/-- `1UL << (sig - 1)`. -/
def sigBit (sig : Nat) : SigSet := BitVec.twoPow 64 (sig - 1)

def stopSignalsMask : SigSet := sigBit sigstop ||| sigBit sigtstp ||| sigBit sigttin ||| sigBit sigttou

/-- `struct mos_signal_info`. -/
structure Info where
  signo : Nat := 0
  code : Int := 0
  timerId : Int := 0
  status : Nat := 0
  pid : Nat := 0
  uid : Nat := 0
  overrun : Nat := 0
  value : Nat := 0
  utime : Nat := 0
  stime : Nat := 0
  deriving DecidableEq

/-- `signal_queue_entry`. -/
structure Entry where
  signo : Nat
  timerId : Int
  value : Nat
  info : Info
  deriving DecidableEq

/-- The pending state of a thread group or of one task. -/
structure Pending where
  bits : SigSet
  queue : List Entry
  info : Nat → Info
  sequence : Nat → Nat

def Pending.empty : Pending := ⟨0, [], fun _ => {}, fun _ => 0⟩

/-- A process: its thread group and its tasks. -/
structure Group (T : Type) where
  shared : Pending
  own : T → Pending

def Group.init (T : Type) : Group T := ⟨.empty, fun _ => .empty⟩

def Pending.has (p : Pending) (sig : Nat) : Bool := p.bits &&& sigBit sig != 0

/-- The body shared by `ps_queue_group_signal_unsafe` and `ps_queue_signal_unsafe`, without the wakeups. -/
def Pending.queueSignal (p : Pending) (sig : Nat) : Pending :=
  let bits :=
    if sig = sigcont then p.bits &&& ~~~stopSignalsMask
    else if sigBit sig &&& stopSignalsMask ≠ 0 then p.bits &&& ~~~sigBit sigcont
    else p.bits
  let info :=
    if bits &&& sigBit sig = 0 then update p.info sig { signo := sig, code := 128, timerId := -1 } else p.info
  { p with bits := bits ||| sigBit sig, info := info, sequence := update p.sequence sig (p.sequence sig + 1) }

variable {T : Type} [DecidableEq T]

def Group.setOwn (g : Group T) (t : T) (p : Pending) : Group T := { g with own := update g.own t p }

def psQueueGroupSignal (g : Group T) (sig : Nat) : Group T := { g with shared := g.shared.queueSignal sig }

/-- The sender of a signal that was not pending yet. -/
def Pending.fillInfo (p : Pending) (sig : Nat) (wasPending : Bool) (code : Int) (pid uid : Nat) : Pending :=
  if wasPending then p
  else { p with info := update p.info sig { p.info sig with code := code, pid := pid, uid := uid } }

/-- `send_signal` to a target that may be signalled, `sig` not 0; `target` is the task of a thread-directed signal. -/
def sendSignal (g : Group T) (target : Option T) (sig pid uid : Nat) : Group T :=
  match target with
  | some t => g.setOwn t (((g.own t).queueSignal sig).fillInfo sig ((g.own t).has sig) (-6) pid uid)
  | none => { g with shared := (g.shared.queueSignal sig).fillInfo sig (g.shared.has sig) 0 pid uid }

/-- `ps_child_signal_unsafe`; `info` is what the exited child leaves, with a positive code. -/
def psChildSignal (g : Group T) (sig : Nat) (info : Info) : Group T :=
  let pending := g.shared.has sig
  let g := psQueueGroupSignal g sig
  if pending then g else { g with shared := { g.shared with info := update g.shared.info sig info } }

/-- The overrun count of a timer entry that is still queued; the sum saturates. -/
def addOverrun (old overrun : Nat) : Nat :=
  let max := 2 ^ 32 - 1
  let extra := if overrun = max then max else overrun + 1
  if extra > max - old then max else old + extra

/-- Bump the first entry of the timer in the queue, if there is one. -/
def bumpTimer (signo : Nat) (timerId : Int) (overrun : Nat) : List Entry → Option (List Entry)
  | [] => none
  | e :: q =>
    if e.timerId = timerId ∧ e.signo = signo then
      some ({ e with info := { e.info with overrun := addOverrun e.info.overrun overrun } } :: q)
    else (bumpTimer signo timerId overrun q).map (e :: ·)

/-- An expired timer bumps its queued entry, or queues one and the signal. -/
def Pending.notifyTimer (p : Pending) (signo timerId value overrun : Nat) : Pending :=
  match bumpTimer signo timerId overrun p.queue with
  | some queue => { p with queue := queue }
  | none =>
    let entry : Entry := { signo := signo, timerId := timerId, value := value, info := { overrun := overrun } }
    { p with queue := p.queue ++ [entry] }.queueSignal signo

/-- `ps_timer_notify` for a live target with memory for the entry. -/
def psTimerNotify (g : Group T) (target : T) (thread : Bool) (signo timerId value overrun : Nat) : Group T :=
  if thread then g.setOwn target ((g.own target).notifyTimer signo timerId value overrun)
  else { g with shared := g.shared.notifyTimer signo timerId value overrun }

/-! ### `sys_rt_sigqueueinfo` -/

def einval : Int := -22

def efault : Int := -14

def eperm : Int := -1

def esrch : Int := -3

def eagain : Int := -11

/-- A call of `sigqueueinfo`: the words at `uinfo` if they can be read, the sender, and what the call finds. -/
structure QueueCall where
  sig : Int
  uinfo : Option (Nat → BitVec 32)
  wide : Bool
  pid : Nat
  uid : Nat
  hasMemory : Bool
  targetLive : Bool
  allowed : Bool

/-- The payload of the call, read from the words `w`. -/
def QueueCall.payload (c : QueueCall) (w : Nat → BitVec 32) : Info :=
  let offset := if c.wide then 6 else 5
  let low := (w offset).toNat
  { signo := c.sig.toNat, code := (w 2).toInt, timerId := -1, pid := c.pid, uid := c.uid,
    value := if c.wide then low ||| (w (offset + 1)).toNat <<< 32 else low }

def sigqueueinfo (g : Group T) (c : QueueCall) : Int × Group T :=
  if c.sig ≤ 0 ∨ c.sig ≥ nsig then (einval, g)
  else
    match c.uinfo with
    | none => (efault, g)
    | some w =>
      if (w 2).toInt ≥ 0 ∨ (w 2).toInt = -6 then (eperm, g)
      else if !c.hasMemory then (eagain, g)
      else if !c.targetLive then (esrch, g)
      else if !c.allowed then (eperm, g)
      else if c.sig.toNat = sigrtminKernel ∨ g.shared.has c.sig.toNat = false then
        if g.shared.queue.length ≥ 128 then (eagain, g)
        else
          let entry : Entry := { signo := c.sig.toNat, timerId := -1, value := 0, info := c.payload w }
          (0, psQueueGroupSignal { g with shared := { g.shared with queue := g.shared.queue ++ [entry] } }
            c.sig.toNat)
      else (0, g)

/-- `__builtin_ctzl`, of a set that is not empty. -/
def ctz (s : SigSet) : Nat := ((List.range 64).find? fun i => s.getLsbD i).getD 64

/-- The payload of a taken entry over the default payload. -/
def Entry.taken (e : Entry) (base : Info) : Info :=
  if e.timerId ≥ 0 then
    { base with timerId := e.timerId, value := e.value, code := -2, overrun := e.info.overrun }
  else e.info

/-- Take one instance of `sig`: the first queued entry if there is one, and the bit with the last. -/
def Pending.take (p : Pending) (sig : Nat) : Info × Pending :=
  let info := ((p.queue.find? (·.signo = sig)).map (·.taken (p.info sig))).getD (p.info sig)
  let queue := p.queue.eraseP (·.signo = sig)
  let bits := if queue.any (·.signo = sig) then p.bits else p.bits &&& ~~~sigBit sig
  (info, { p with queue := queue, bits := bits })

def psTakeSignalInfo (g : Group T) (t : T) (mask : SigSet) : Option (Nat × Info) × Group T :=
  let pending := ((g.own t).bits ||| g.shared.bits) &&& mask
  if pending = 0 then (none, g)
  else
    let sig := ctz pending + 1
    if (g.own t).has sig then
      let r := (g.own t).take sig
      (some (sig, r.1), g.setOwn t r.2)
    else
      let r := g.shared.take sig
      (some (sig, r.1), { g with shared := r.2 })

/-- `post` makes a signal pending for the group or a task. -/
inductive Event (T : Type)
  | queueinfo (c : QueueCall) (ret : Int)
  | take (t : T) (mask : SigSet) (r : Option (Nat × Info))
  | post (w : Option T) (sig : Nat)
  | child (sig : Nat) (info : Info)
  | fault (t : T) (sig : Nat)
  | pipe (t : T)

/-- The calls that post, discard or take the signals of a process; the kernel's own signals go to the group
(`kernel`), a traced task (`inject`) or the writer of a pipe without readers (`pipe`). -/
inductive Step : Group T → Event T → Group T → Prop
  | queueinfo (g c) : Step g (.queueinfo c (sigqueueinfo g c).1) (sigqueueinfo g c).2
  | take (g t mask) : Step g (.take t mask (psTakeSignalInfo g t mask).1) (psTakeSignalInfo g t mask).2
  | send (g target sig pid uid) : 0 < sig → sig < nsig → Step g (.post target sig) (sendSignal g target sig pid uid)
  | kernel (g sig) : 0 < sig → sig < nsig → Step g (.post none sig) (psQueueGroupSignal g sig)
  | inject (g t sig) : 0 < sig → sig < nsig → Step g (.post (some t) sig) (g.setOwn t ((g.own t).queueSignal sig))
  | child (g sig info) : 0 < sig → sig < nsig → Step g (.child sig info) (psChildSignal g sig info)
  | timer (g target thread signo timerId value overrun) : 0 < signo → signo < nsig →
      Step g (.post (if thread then some target else none) signo)
        (psTimerNotify g target thread signo timerId value overrun)
  | fault (g t sig) : 0 < sig → sig < nsig →
      Step g (.fault t sig) (g.setOwn t { g.own t with bits := (g.own t).bits &&& ~~~sigBit sig })
  | pipe (g t) : Step g (.pipe t) (g.setOwn t { g.own t with bits := (g.own t).bits ||| sigBit 13 })

end Mos.Signal
