import Mos.Lib.Run
import Mos.Sched.Queues
import Mathlib.Algebra.Group.Nat.Defs

/-!
# Waiting in `poll` and `select`

`poll_wait_loop` of `src/fs/impl/poll.c` with the hooks of `poll` and of `select`, the poll table of
`src/fs/impl/fs.c` and the part of `src/ps/impl/alg/ps_alg_rr.c` that publishes a wait and undoes it.  The task
watches a list of descriptors.  A descriptor stands for the sources to which the hook `poll` of its file subscribes; a
source that changes to ready owes its subscribers a notification.

A step of the loop looks at one source, subscribes to one source or removes one subscription, or is one of the
decisions between.  Between any two of them sources change and notify, signals arrive and are taken by another thread,
timers expire and descriptors are closed, also while the task itself runs with interrupts turned off.
-/

namespace Mos.Poll

open Function
open Sched (Status)

def eintr : Int := -4

def ebadf : Int := -9

def tickMs : Nat := 10

/-- A call of `poll_wait_loop`; `cap` is the number of entries of the poll table. -/
structure Call (F S : Type) where
  select : Bool
  fds : List F
  sources : F → List S
  cap : Nat
  justTest : Bool
  infinite : Bool
  deadline : Nat

/-- The five checks of the loop. -/
inductive Point
  | first
  | registered
  | refused
  | published
  | woken
  deriving DecidableEq

/-- Where the task stands.  A check has the descriptors that are left and the number of ready ones; the look at a
descriptor has the sources that are left. -/
inductive Pc (F S : Type)
  | enter (p : Point)
  | check (p : Point) (todo : List F) (n : Nat)
  | look (p : Point) (xs : List S) (found : Bool) (todo : List F) (n : Nat)
  | test
  | reg (todo : List F)
  | subscribe (xs : List S) (todo : List F)
  | late
  | prepare (ms : Nat)
  | cancel (ret : Int)
  | sched
  | parked
  | finish
  | dereg (ret : Option Int)
  | signals
  | done (ret : Int)
  deriving DecidableEq

structure State (F S : Type) where
  pc : Pc F S
  status : Status
  interruptible : Bool
  due : Option Nat
  /-- `ps_interrupting_signals` is not zero. -/
  signal : Bool
  /-- The clock, in microseconds. -/
  us : Nat
  /-- The entries of the poll table, the last one first. -/
  table : List S
  unsupported : Bool
  /-- The entries of the task in the list of a source. -/
  subs : S → Nat
  ready : S → Bool
  /-- The source has changed to ready and not notified its subscribers yet. -/
  owed : S → Bool
  isOpen : F → Bool

inductive Act (F S : Type)
  | start (p : Point)
  /-- A check looks at a source. -/
  | look (x : S) (found : Bool)
  /-- A check ends. -/
  | result (ret : Int)
  /-- The registration subscribes to a source. -/
  | subscribe (x : S)
  /-- The loop finds a signal pending. -/
  | pending
  | loop
  | become (x : S)
  | unready (x : S)
  | notify (x : S)
  | raise
  | lower
  | tick (us : Nat)
  | fire
  | wake
  | close (fd : F)
  deriving DecidableEq

def Act.IsStart {F S : Type} (a : Act F S) : Prop := ∃ p, a = .start p

def Act.result? {F S : Type} : Act F S → Option Int
  | .result ret => some ret
  | _ => none

namespace State

variable {F S : Type} [DecidableEq F] [DecidableEq S]

def init (ready owed : S → Bool) (isOpen : F → Bool) (signal : Bool) (us : Nat) : State F S where
  pc := .enter .first
  status := .running
  interruptible := false
  due := none
  signal := signal
  us := us
  table := []
  unsupported := false
  subs := fun _ => 0
  ready := ready
  owed := owed
  isOpen := isOpen

def goto (s : State F S) (pc : Pc F S) : State F S := { s with pc := pc }

omit [DecidableEq F] [DecidableEq S] in
@[simp] theorem goto_pc (s : State F S) (pc : Pc F S) : (s.goto pc).pc = pc := rfl

/-- `time_now_ms`. -/
def nowMs (s : State F S) : Nat := s.us / 1000

/-- `time_deadline_ms`. -/
def deadlineMs (s : State F S) (ms : Nat) : Nat := min (s.us / 1000 + (if s.us % 1000 = 0 then 0 else 1) + ms)
    (2 ^ 64 - 1)

/-- `ps_put_to_ready_queue`. -/
def putToReadyQueue (s : State F S) : State F S :=
  if s.status = .waiting then { s with status := .ready, interruptible := false } else s

/-- The end of `ps_prepare_interruptible_wait`. -/
def publish (s : State F S) (ms : Nat) : State F S :=
  { s with due := if ms = 0 then s.due else some (s.deadlineMs ms), status := .waiting, interruptible := true }

/-- `poll_subscribe`. -/
def subscribe (s : State F S) (cap : Nat) (x : S) : State F S :=
  if s.table.length ≥ cap then { s with unsupported := true }
  else { s with table := x :: s.table, subs := update s.subs x (s.subs x + 1) }

/-- A round of `poll_table_cleanup`. -/
def unsubscribe (s : State F S) (x : S) (table : List S) : State F S :=
  { s with table := table, subs := update s.subs x (s.subs x - 1) }

end State

section

variable {F S : Type} [DecidableEq F] [DecidableEq S] {s s' : State F S} {c : Call F S} {a : Act F S}

def sleepMs (c : Call F S) (s : State F S) : Nat :=
  if c.infinite then if s.unsupported then tickMs else 0
  else
    let ms := min (c.deadline - s.nowMs) 0xffffffff
    if s.unsupported ∧ ms > tickMs then tickMs else ms

/-- What the loop does with the result of a check. -/
def checked (ret : Int) : Point → Pc F S
  | .first => if ret ≠ 0 then .done ret else .test
  | .registered => if ret ≠ 0 then .dereg (some ret) else .late
  | .refused => .dereg (some (if ret ≠ 0 then ret else eintr))
  | .published => if ret ≠ 0 then .cancel ret else .sched
  | .woken => if ret ≠ 0 then .done ret else .signals

def next (c : Call F S) (s : State F S) : Option (Act F S × State F S) :=
  match s.pc with
  | .enter p => some (.start p, s.goto (.check p c.fds 0))
  | .check p [] n => some (.result n, s.goto (checked n p))
  | .check p (fd :: todo) n =>
    if s.isOpen fd then some (.loop, s.goto (.look p (c.sources fd) false todo n))
    else if c.select then some (.result ebadf, s.goto (checked ebadf p))
    else some (.loop, s.goto (.check p todo (n + 1)))
  | .look p [] found todo n => some (.loop, s.goto (.check p todo (if found then n + 1 else n)))
  | .look p (x :: xs) found todo n => some (.look x (s.ready x), s.goto (.look p xs (found || s.ready x) todo n))
  | .test =>
    if c.justTest then some (.loop, s.goto (.done 0))
    else if !c.infinite ∧ s.nowMs ≥ c.deadline then some (.loop, s.goto (.done 0))
    else some (.loop, s.goto (.reg c.fds))
  | .reg [] => some (.loop, s.goto (.enter .registered))
  | .reg (fd :: todo) =>
    if s.isOpen fd then some (.loop, s.goto (.subscribe (c.sources fd) todo))
    -- `select_ctx_reg` returns without a look at what it has subscribed to
    else if c.select then some (.loop, s.goto (.done ebadf))
    else some (.loop, s.goto (.reg todo))
  | .subscribe [] todo => some (.loop, s.goto (.reg todo))
  | .subscribe (x :: xs) todo => some (.subscribe x, (s.subscribe c.cap x).goto (.subscribe xs todo))
  | .late =>
    if !c.infinite ∧ s.nowMs ≥ c.deadline then some (.loop, s.goto (.dereg (some 0)))
    else some (.loop, s.goto (.prepare (sleepMs c s)))
  | .prepare ms =>
    if s.signal then some (.pending, s.goto (.enter .refused)) else some (.loop,
      (s.publish ms).goto (.enter .published))
  | .cancel ret => some (.loop, { s.putToReadyQueue with due := none, pc := .dereg (some ret) })
  | .sched => some (.loop, s.goto .parked)
  | .parked => if s.status = .waiting then none else some (.loop, { s with status := .running, pc := .finish })
  | .finish => some (.loop, { s with due := none, pc := .dereg none })
  | .dereg ret =>
    match s.table with
    | x :: table => some (.loop, s.unsubscribe x table)
    | [] => some (.loop, s.goto (match ret with | some ret => .done ret | none => .enter .woken))
  | .signals => if s.signal then some (.pending, s.goto (.done eintr)) else some (.loop, s.goto (.enter .first))
  | .done _ => none

inductive Move (c : Call F S) (s : State F S) : Act F S → State F S → Prop
  | enter {p} : s.pc = .enter p → Move c s (.start p) (s.goto (.check p c.fds 0))
  | checked {p n} : s.pc = .check p [] n → Move c s (.result n) (s.goto (checked n p))
  | lookAt {p fd todo n} : s.pc = .check p (fd :: todo) n → s.isOpen fd = true →
      Move c s .loop (s.goto (.look p (c.sources fd) false todo n))
  | badf {p fd todo n} : s.pc = .check p (fd :: todo) n → c.select = true →
      Move c s (.result ebadf) (s.goto (checked ebadf p))
  | nval {p fd todo n} : s.pc = .check p (fd :: todo) n → c.select = false →
      Move c s .loop (s.goto (.check p todo (n + 1)))
  | look {p x xs found todo n} : s.pc = .look p (x :: xs) found todo n →
      Move c s (.look x (s.ready x)) (s.goto (.look p xs (found || s.ready x) todo n))
  | looked {p found todo n} : s.pc = .look p [] found todo n →
      Move c s .loop (s.goto (.check p todo (if found then n + 1 else n)))
  | tested : s.pc = .test → (c.justTest = true ∨ c.infinite = false ∧ c.deadline ≤ s.nowMs) →
      Move c s .loop (s.goto (.done 0))
  | register : s.pc = .test → Move c s .loop (s.goto (.reg c.fds))
  | regAt {fd todo} : s.pc = .reg (fd :: todo) → s.isOpen fd = true →
      Move c s .loop (s.goto (.subscribe (c.sources fd) todo))
  | regBadf {fd todo} : s.pc = .reg (fd :: todo) → s.isOpen fd = false → c.select = true →
      Move c s .loop (s.goto (.done ebadf))
  | regNone {fd todo} : s.pc = .reg (fd :: todo) → s.isOpen fd = false → Move c s .loop (s.goto (.reg todo))
  | registered : s.pc = .reg [] → Move c s .loop (s.goto (.enter .registered))
  | subscribe {x xs todo} : s.pc = .subscribe (x :: xs) todo →
      Move c s (.subscribe x) ((s.subscribe c.cap x).goto (.subscribe xs todo))
  | subscribed {todo} : s.pc = .subscribe [] todo → Move c s .loop (s.goto (.reg todo))
  | expired : s.pc = .late → c.infinite = false → c.deadline ≤ s.nowMs → Move c s .loop (s.goto (.dereg (some 0)))
  | timed : s.pc = .late → ¬(c.infinite = false ∧ c.deadline ≤ s.nowMs) →
      Move c s .loop (s.goto (.prepare (sleepMs c s)))
  | refuse {ms} : s.pc = .prepare ms → s.signal = true → Move c s .pending (s.goto (.enter .refused))
  | publish {ms} : s.pc = .prepare ms → Move c s .loop ((s.publish ms).goto (.enter .published))
  | cancel {ret} : s.pc = .cancel ret → Move c s .loop { s.putToReadyQueue with due := none, pc := .dereg (some ret) }
  | sched : s.pc = .sched → Move c s .loop (s.goto .parked)
  | resume : s.pc = .parked → Move c s .loop { s with status := .running, pc := .finish }
  | finish : s.pc = .finish → Move c s .loop { s with due := none, pc := .dereg none }
  | unsubscribe {ret x table} : s.pc = .dereg ret → s.table = x :: table → Move c s .loop (s.unsubscribe x table)
  | leave {ret} : s.pc = .dereg (some ret) → s.table = [] → Move c s .loop (s.goto (.done ret))
  | left : s.pc = .dereg none → s.table = [] → Move c s .loop (s.goto (.enter .woken))
  | interrupted : s.pc = .signals → s.signal = true → Move c s .pending (s.goto (.done eintr))
  | again : s.pc = .signals → Move c s .loop (s.goto (.enter .first))

/-! A step of the loop is one of the moves of its place. -/

section

omit [DecidableEq F]

private theorem move_check {p : Point} {todo : List F} {n : Nat} (hpc : s.pc = .check p todo n)
    (h : next c s = some (a, s')) : Move c s a s' := by
  rw [next, hpc] at h
  cases todo with
  | nil =>
    cases h
    exact .checked hpc
  | cons fd todo =>
    dsimp only at h
    split_ifs at h with hopen hsel
    · cases h
      exact .lookAt hpc hopen
    · cases h
      exact .badf hpc hsel
    · cases h
      exact .nval hpc (by simpa using hsel)

private theorem move_look {p : Point} {xs : List S} {found : Bool} {todo : List F} {n : Nat}
    (hpc : s.pc = .look p xs found todo n) (h : next c s = some (a, s')) : Move c s a s' := by
  rw [next, hpc] at h
  cases xs with
  | nil =>
    cases h
    exact .looked hpc
  | cons x xs =>
    cases h
    exact .look hpc

private theorem move_test (hpc : s.pc = .test) (h : next c s = some (a, s')) : Move c s a s' := by
  rw [next, hpc] at h
  dsimp only at h
  split_ifs at h with htest hlate
  · cases h
    exact .tested hpc (.inl htest)
  · cases h
    exact .tested hpc (.inr (by simpa using hlate))
  · cases h
    exact .register hpc

private theorem move_reg {todo : List F} (hpc : s.pc = .reg todo) (h : next c s = some (a, s')) : Move c s a s' := by
  rw [next, hpc] at h
  cases todo with
  | nil =>
    cases h
    exact .registered hpc
  | cons fd todo =>
    dsimp only at h
    split_ifs at h with hopen hsel
    · cases h
      exact .regAt hpc hopen
    · cases h
      exact .regBadf hpc (by simpa using hopen) hsel
    · cases h
      exact .regNone hpc (by simpa using hopen)

private theorem move_subscribe {xs : List S} {todo : List F} (hpc : s.pc = .subscribe xs todo)
    (h : next c s = some (a, s')) : Move c s a s' := by
  rw [next, hpc] at h
  cases xs with
  | nil =>
    cases h
    exact .subscribed hpc
  | cons x xs =>
    cases h
    exact .subscribe hpc

private theorem move_late (hpc : s.pc = .late) (h : next c s = some (a, s')) : Move c s a s' := by
  rw [next, hpc] at h
  dsimp only at h
  split_ifs at h with hlate
  · cases h
    exact .expired hpc (by simpa using hlate.1) hlate.2
  · cases h
    exact .timed hpc (by simpa using hlate)

private theorem move_prepare {ms : Nat} (hpc : s.pc = .prepare ms) (h : next c s = some (a, s')) : Move c s a s' := by
  rw [next, hpc] at h
  dsimp only at h
  split_ifs at h with hsig
  · cases h
    exact .refuse hpc hsig
  · cases h
    exact .publish hpc

private theorem move_dereg {ret : Option Int} (hpc : s.pc = .dereg ret) (h : next c s = some (a, s')) :
    Move c s a s' := by
  rw [next, hpc] at h
  cases htable : s.table with
  | cons x table =>
    rw [htable] at h
    cases h
    exact .unsubscribe hpc htable
  | nil =>
    rw [htable] at h
    cases h
    cases ret with
    | none => exact .left hpc htable
    | some ret => exact .leave hpc htable

private theorem move_signals (hpc : s.pc = .signals) (h : next c s = some (a, s')) : Move c s a s' := by
  rw [next, hpc] at h
  dsimp only at h
  split_ifs at h with hsig
  · cases h
    exact .interrupted hpc hsig
  · cases h
    exact .again hpc

/-- The places with a single move. -/
private theorem move_single (hpc : (∃ p, s.pc = .enter p) ∨ (∃ ret, s.pc = .cancel ret) ∨ s.pc = .sched ∨
    s.pc = .parked ∨ s.pc = .finish ∨ ∃ ret, s.pc = .done ret) (h : next c s = some (a, s')) : Move c s a s' := by
  unfold next at h
  rcases hpc with ⟨p, hpc⟩ | ⟨ret, hpc⟩ | hpc | hpc | hpc | ⟨ret, hpc⟩
  all_goals rw [hpc] at h
  · cases h
    exact .enter hpc
  · cases h
    exact .cancel hpc
  · cases h
    exact .sched hpc
  · dsimp only at h
    split_ifs at h
    cases h
    exact .resume hpc
  · cases h
    exact .finish hpc
  · cases h

theorem next_move (h : next c s = some (a, s')) : Move c s a s' := by
  cases hpc : s.pc with
  | check p todo n => exact move_check hpc h
  | look p xs found todo n => exact move_look hpc h
  | test => exact move_test hpc h
  | reg todo => exact move_reg hpc h
  | subscribe xs todo => exact move_subscribe hpc h
  | late => exact move_late hpc h
  | prepare ms => exact move_prepare hpc h
  | dereg ret => exact move_dereg hpc h
  | signals => exact move_signals hpc h
  | _ => exact move_single (by simp [hpc]) h

end

/-- What happens around the loop. -/
def env (s : State F S) : Act F S → Option (State F S)
  | .become x => some { s with ready := update s.ready x true, owed := update s.owed x (s.owed x || !s.ready x) }
  | .unready x => some { s with ready := update s.ready x false }
  | .notify x =>
    let s := { s with owed := update s.owed x false }
    some (if 0 < s.subs x then s.putToReadyQueue else s)
  | .raise => some (if s.interruptible then { s.putToReadyQueue with signal := true } else { s with signal := true })
  | .lower => some { s with signal := false }
  | .tick us => some { s with us := s.us + us }
  -- a timer that expires makes its task ready, whatever its status
  | .fire => if s.due.any (· ≤ s.nowMs) then some { s with due := none, status := .ready, interruptible :=
      false } else none
  | .wake => some s.putToReadyQueue
  | .close fd => some { s with isOpen := update s.isOpen fd false }
  | _ => none

def Step (c : Call F S) (s : State F S) (a : Act F S) (s' : State F S) : Prop :=
  next c s = some (a, s') ∨ env s a = some s'

/-- One of the two kinds of steps, by its label. -/
def exec (c : Call F S) (s : State F S) (a : Act F S) : Option (State F S) :=
  match next c s with
  | some (a', s') => if a' = a then some s' else env s a
  | none => env s a

theorem exec_step (h : exec c s a = some s') : Step c s a s' := by
  unfold exec at h
  split at h
  · rename_i a' s'' hnext
    split at h
    · rename_i ha
      subst ha
      cases h
      exact .inl hnext
    · exact .inr h
  · exact .inr h

end

end Mos.Poll
