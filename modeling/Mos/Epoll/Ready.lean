import Mos.Lib.Run
import Mos.Lib.Tally
import Mathlib.Data.BitVec

/-!
# The ready list of an eventpoll

`epoll_queue`, `epoll_unqueue`, `epoll_remove`, `epoll_release_file`, `epoll_mask`, `epoll_pop`, `epoll_ready`,
`sys_epoll_ctl` and `epoll_deliver` of `src/fs/impl/epoll.c`, for one eventpoll.  The calls run one after the other,
under `epoll_mutex`; a watched file calls `epoll_queue` without it, at any time.  A step is one critical section of
`ready_lock`, one look at a file, or one of the checks between them.

A watched file has a mask of `FS_POLL_*` bits.  When bits are set that were not, it owes a callback to each of its
subscribers.  Interests are numbered in the order in which they are made, so that a number stands for one interest for
good; they are found by the file and the descriptor.
-/

namespace Mos.Epoll

open Function

def enoent : Int := -2

def enomem : Int := -12

def eexist : Int := -17

def eloop : Int := -40

abbrev Mask := BitVec 32

def fsPollRead : Mask := 1 <<< 0

def fsPollWrite : Mask := 1 <<< 1

def fsPollExcept : Mask := 1 <<< 2

def fsPollHup : Mask := 1 <<< 3

def fsPollErr : Mask := 1 <<< 4

def fsPollRdhup : Mask := 1 <<< 5

/-- `EPOLLIN | EPOLLRDNORM`. -/
def epollReadBits : Mask := 0x001 ||| 0x040

/-- `EPOLLOUT | EPOLLWRNORM | EPOLLWRBAND`. -/
def epollWriteBits : Mask := 0x004 ||| 0x100 ||| 0x200

def epollPri : Mask := 0x002

def epollRdband : Mask := 0x080

def epollErr : Mask := 0x008

def epollHup : Mask := 0x010

def epollRdhup : Mask := 0x2000

def epollOneshot : Mask := 1 <<< 30

def epollEt : Mask := 1 <<< 31

/-- `epoll_mask`, from the events of an interest and what the file answers. -/
def epollMask (events mask : Mask) : Mask :=
  (if mask &&& fsPollRead ≠ 0 then events &&& epollReadBits else 0) |||
  (if mask &&& fsPollWrite ≠ 0 then events &&& epollWriteBits else 0) |||
  (if mask &&& fsPollExcept ≠ 0 then events &&& (epollPri ||| epollRdband) else 0) |||
  (if mask &&& fsPollErr ≠ 0 then epollErr else 0) |||
  (if mask &&& fsPollHup ≠ 0 then epollHup else 0) |||
  (if mask &&& fsPollRdhup ≠ 0 then events &&& epollRdhup else 0)

/-- `epitem`; `linked` once it is in the tree of interests. -/
structure Item where
  file : Nat
  fd : Int
  events : Mask
  data : BitVec 64
  armed : Bool
  queued : Bool
  linked : Bool

def Item.oneshot (it : Item) : Bool := it.events &&& epollOneshot ≠ 0

def Item.edge (it : Item) : Bool := it.events &&& epollEt ≠ 0

/-- The loop of `epoll_deliver`. -/
structure Loop where
  budget : Nat
  count : Nat
  maxevents : Nat

/-- Where the call that holds `epoll_mutex` stands. -/
inductive Call
  | idle
  -- `sys_epoll_ctl`
  | adding (i : Nat)
  | check (i : Nat)
  | enqueue (i : Nat)
  -- `epoll_remove`, for `EPOLL_CTL_DEL` or from the loop over the interests in a file
  | removing (i : Nat) (release : Option Nat)
  | releasing (f : Nat)
  -- `epoll_deliver`
  | loop (l : Loop)
  | popped (i : Nat) (l : Loop)
  | masked (i : Nat) (mask : Mask) (l : Loop)
  | faulted (i : Nat)
  | disarm (i : Nat) (l : Loop)
  | unqueue (i : Nat) (l : Loop)
  | requeue (i : Nat) (l : Loop)
  -- `epoll_ready`
  | probe (budget : Nat)
  | probed (i : Nat) (budget : Nat)
  | putBack (i : Nat)

structure State where
  items : Nat → Option Item
  next : Nat
  ready : List Nat
  readyCount : Nat
  masks : Nat → Mask
  owed : Nat → Bool
  call : Call

def State.init (masks : Nat → Mask) : State := ⟨fun _ => none, 0, [], 0, masks, fun _ => false, .idle⟩

namespace State

def go (s : State) (c : Call) : State := { s with call := c }

def setItem (s : State) (i : Nat) (it : Item) : State := { s with items := update s.items i (some it) }

/-- Put an interest on the ready list, unless it is there. -/
def link (s : State) (i : Nat) (front : Bool) : State :=
  match s.items i with
  | none => s
  | some it =>
    if it.queued then s
    else { s with
      items := update s.items i (some { it with queued := true })
      ready := if front then i :: s.ready else s.ready ++ [i]
      readyCount := s.readyCount + 1 }

/-- `epoll_queue`; the wake-up of the tasks that wait for the eventpoll is left out. -/
def epollQueue (s : State) (i : Nat) : State :=
  match s.items i with
  | none => s
  | some it => if it.armed then s.link i false else s

def epollUnqueue (s : State) (i : Nat) : State :=
  match s.items i with
  | none => s
  | some it =>
    if it.queued then
      { s with
        items := update s.items i (some { it with queued := false })
        ready := s.ready.erase i
        readyCount := s.readyCount - 1 }
    else s

def epollPop (s : State) : Option (Nat × State) :=
  if s.readyCount = 0 then none
  else
    match s.ready with
    | [] => none
    | i :: l =>
      some (i, { s with
        items := update s.items i ((s.items i).map fun it => { it with queued := false })
        ready := l
        readyCount := s.readyCount - 1 })

/-- `epoll_find`. -/
def Finds (s : State) (f : Nat) (fd : Int) (i : Nat) : Prop :=
  ∃ it, s.items i = some it ∧ it.linked = true ∧ it.file = f ∧ it.fd = fd

/-- The mask of an interest at the moment. -/
def mask (s : State) (it : Item) : Mask := epollMask it.events (s.masks it.file)

end State

inductive Event
  | change (f : Nat) (mask : Mask)
  /-- A file calls `epoll_queue` for an interest in it. -/
  | notify (i : Nat)
  | add (i : Nat)
  | modify (i : Nat)
  | refuse (r : Int)
  /-- `EPOLL_CTL_ADD` or `EPOLL_CTL_MOD` finds the interest ready. -/
  | found (i : Nat)
  | remove (i : Nat)
  /-- A delivery stores an event; `oneshot` tells what the interest is at this time. -/
  | report (i : Nat) (mask : Mask) (data : BitVec 64) (oneshot : Bool)
  | internal

def afterReport (it : Item) (i : Nat) (l : Loop) : Call :=
  if it.oneshot then .disarm i l else if it.edge then .loop l else .requeue i l

inductive Step : State → Event → State → Prop
  -- the watched files
  | change {s} (f mask) : Step s (.change f mask)
      { s with
        masks := update s.masks f mask
        owed := fun i => s.owed i || (mask &&& ~~~(s.masks f) ≠ 0 && (s.items i).any fun it => it.file = f) }
  | notify {s i it} : s.items i = some it →
      Step s (.notify i) { s.epollQueue i with owed := update (s.epollQueue i).owed i false }
  -- EPOLL_CTL_ADD: the hook `poll` of the file subscribes the interest
  | addExists {s f fd i} : s.call = .idle → s.Finds f fd i → Step s (.refuse eexist) s
  | addRefused {s r} : s.call = .idle → r = eloop ∨ r = enomem → Step s (.refuse r) s
  | add {s f fd} (events data) : s.call = .idle → (∀ i, ¬s.Finds f fd i) →
      Step s (.add s.next) ({ s.setItem s.next ⟨f, fd, events, data, true, false, false⟩ with next := s.next + 1 }.go
        (.adding s.next))
  -- the interest is given up: no callback comes after the clean-up of its subscriptions
  | addUnsupported {s i} : s.call = .adding i →
      Step s .internal ({ s.epollUnqueue i with items := update (s.epollUnqueue i).items i none }.go .idle)
  | addLinked {s i it} : s.call = .adding i → s.items i = some it →
      Step s .internal ((s.setItem i { it with linked := true }).go (.check i))
  -- EPOLL_CTL_MOD
  | missing {s f fd} : s.call = .idle → (∀ i, ¬s.Finds f fd i) → Step s (.refuse enoent) s
  | modify {s f fd i it} (events data) : s.call = .idle → s.Finds f fd i → s.items i = some it →
      Step s (.modify i) ((s.setItem i { it with events := events, data := data, armed := true }).go (.check i))
  | checkEmpty {s i it} : s.call = .check i → s.items i = some it → s.mask it = 0 → Step s .internal (s.go .idle)
  | checkReady {s i it} : s.call = .check i → s.items i = some it → s.mask it ≠ 0 →
      Step s (.found i) (s.go (.enqueue i))
  | enqueue {s i} : s.call = .enqueue i → Step s .internal ((s.epollQueue i).go .idle)
  -- EPOLL_CTL_DEL, and the release of a file
  | delete {s f fd i it} : s.call = .idle → s.Finds f fd i → s.items i = some it →
      Step s (.remove i) ((s.setItem i { it with armed := false }).go (.removing i none))
  | release {s} (f) : s.call = .idle → Step s .internal (s.go (.releasing f))
  | releaseNext {s f i it} : s.call = .releasing f → s.items i = some it → it.linked = true → it.file = f →
      Step s (.remove i) ((s.setItem i { it with armed := false }).go (.removing i (some f)))
  | releaseDone {s f} : s.call = .releasing f → (∀ i it, s.items i = some it → it.linked = true → it.file ≠ f) →
      Step s .internal (s.go .idle)
  | removed {s i k} : s.call = .removing i k →
      Step s .internal ({ s.epollUnqueue i with items := update (s.epollUnqueue i).items i none }.go
        (k.elim .idle .releasing))
  -- `epoll_deliver`
  | deliver {s} (maxevents) : s.call = .idle → Step s .internal (s.go (.loop ⟨s.readyCount, 0, maxevents⟩))
  | loopEnd {s l} : s.call = .loop l → l.budget = 0 ∨ l.maxevents ≤ l.count → Step s .internal (s.go .idle)
  | loopEmpty {s l} : s.call = .loop l → s.epollPop = none → Step s .internal (s.go .idle)
  | loopPop {s s' l i} : s.call = .loop l → l.budget ≠ 0 → l.count < l.maxevents → s.epollPop = some (i, s') →
      Step s .internal (s'.go (.popped i { l with budget := l.budget - 1 }))
  | stale {s i it l} : s.call = .popped i l → s.items i = some it → it.armed = false ∨ s.mask it = 0 →
      Step s .internal (s.go (.loop l))
  | masked {s i it l} : s.call = .popped i l → s.items i = some it → it.armed = true → s.mask it ≠ 0 →
      Step s .internal (s.go (.masked i (s.mask it) l))
  | fault {s i mask l} : s.call = .masked i mask l → Step s .internal (s.go (.faulted i))
  | faulted {s i} : s.call = .faulted i → Step s .internal ((s.epollQueue i).go .idle)
  | report {s i it mask l} : s.call = .masked i mask l → s.items i = some it →
      Step s (.report i mask it.data it.oneshot) (s.go (afterReport it i { l with count := l.count + 1 }))
  | disarm {s i it l} : s.call = .disarm i l → s.items i = some it →
      Step s .internal ((s.setItem i { it with armed := false }).go (.unqueue i l))
  | unqueue {s i l} : s.call = .unqueue i l → Step s .internal ((s.epollUnqueue i).go (.loop l))
  | requeue {s i l} : s.call = .requeue i l → Step s .internal ((s.link i false).go (.loop l))
  -- `epoll_ready`
  | poll {s} : s.call = .idle → Step s .internal (s.go (.probe s.readyCount))
  | probeEnd {s b} : s.call = .probe b → b = 0 ∨ s.epollPop = none → Step s .internal (s.go .idle)
  | probePop {s s' b i} : s.call = .probe (b + 1) → s.epollPop = some (i, s') →
      Step s .internal (s'.go (.probed i b))
  | probeStale {s i it b} : s.call = .probed i b → s.items i = some it → it.armed = false ∨ s.mask it = 0 →
      Step s .internal (s.go (.probe b))
  | probeReady {s i it b} : s.call = .probed i b → s.items i = some it → it.armed = true → s.mask it ≠ 0 →
      Step s .internal (s.go (.putBack i))
  | putBack {s i} : s.call = .putBack i → Step s .internal ((s.link i true).go .idle)

end Mos.Epoll
