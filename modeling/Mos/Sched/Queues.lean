import Mos.Lib.Links
import Mos.Sched.Timers
import Mathlib.Data.Fin.Basic

/-!
# The queues of the scheduler

The queue transitions of `src/ps/impl/alg/ps_alg_rr.c`.  A task has one list link, which serves the ready queue of its
priority, the wait lists and the dying queues; the functions take it out of the list in which it stands without naming
that list.  A task with the number `0xffffffff` is never linked.  Stopped tasks are left out, and so is
`wait_interruptible`, which only chooses among the callers of a wakeup.
-/

namespace Mos.Sched

open Lib Function

inductive Status
  | running
  | ready
  | waiting
  | dying
  deriving DecidableEq

/-- `ready_queue[level]`, a wait list (none is `control.wait_queue`), and the dying queue of a parent. -/
inductive Queue (T W : Type)
  | ready (level : Fin 3)
  | wait (w : Option W)
  | dying (parent : T)
  deriving DecidableEq

structure State (T W : Type) where
  lists : Queue T W → List T
  status : T → Status
  priority : T → Fin 3
  psid : T → Nat
  live : T → Bool
  timers : Timers T

def noPsid : Nat := 0xffffffff

def psIdle : Fin 3 := 0

def psNormal : Fin 3 := 1

/-- The level of deferred device callbacks. -/
def psDeferred : Fin 3 := 2

def State.empty (T W : Type) : State T W :=
  ⟨fun _ => [], fun _ => .dying, fun _ => psIdle, fun _ => noPsid, fun _ => false, Timers.empty T⟩

section

variable {T W : Type} [DecidableEq T] [DecidableEq W]

def State.setStatus (s : State T W) (t : T) (st : Status) : State T W :=
  { s with status := update s.status t st }

def State.unlinkTask (s : State T W) (t : T) : State T W := { s with lists := unlink s.lists t }

/-- `list_insert_tail`, for a task that has a number. -/
def State.insertTail (s : State T W) (q : Queue T W) (t : T) : State T W :=
  if s.psid t ≠ noPsid then { s with lists := linkTail s.lists q t } else s

def State.putToReadyQueueUnsafe (s : State T W) (t : T) : State T W :=
  if s.status t = .dying then s
  else if s.psid t ≠ noPsid then ((s.unlinkTask t).insertTail (.ready (s.priority t)) t).setStatus t .ready
  else s.setStatus t .ready

/-- A wakeup from outside the scheduler takes only tasks that are blocked. -/
def State.putToReadyQueue (s : State T W) (t : T) : State T W :=
  if s.status t = .waiting then s.putToReadyQueueUnsafe t else s

def State.putToWaitQueueUnsafe (s : State T W) (t : T) (w : Option W) : State T W :=
  ((s.unlinkTask t).insertTail (.wait w) t).setStatus t .waiting

/-- `ps_put_to_dying_queue_unsafe`, with the parent that is found, and `ps_mark_dying_unsafe`. -/
def State.putToDyingQueueUnsafe (B : Balancing T) (s : State T W) (t : T) (parent : Option T) : State T W :=
  let s := s.unlinkTask t
  let s := match parent with
    | some p => s.insertTail (.dying p) t
    | none => s
  { s with timers := s.timers.disarm B t }.setStatus t .dying

/-- `ps_enqueue_child_first`: the second insertion does not look at the number. -/
def State.enqueueChildFirst (s : State T W) (t : T) : State T W :=
  let s := (s.putToReadyQueueUnsafe t).unlinkTask t
  { s with lists := linkHead s.lists (.ready (s.priority t)) t }

/-- A new task, before it is put to a queue. -/
def State.create (s : State T W) (t : T) (psid : Nat) (priority : Fin 3) : State T W :=
  { s with
    status := update s.status t .ready
    priority := update s.priority t priority
    psid := update s.psid t psid
    live := update s.live t true }

/-- The queue agrees with the status and the priority of the task. -/
def Home (st : Status) (priority : Fin 3) (q : Queue T W) : Prop :=
  match st with
  | .running | .ready => q = .ready priority
  | .waiting => ∃ w, q = .wait w
  | .dying => ∃ p, q = .dying p

/-- Every task that exists stands where it belongs, and no other task stands anywhere. -/
structure Placed (s : State T W) (place : T → Option (Queue T W)) : Prop where
  linked : Linked s.lists place
  home : ∀ t, s.live t = true → s.psid t ≠ noPsid ∧ ∃ q, place t = some q ∧ Home (s.status t) (s.priority t) q
  dead : ∀ t, s.live t = false → place t = none

variable {s s' : State T W} {place : T → Option (Queue T W)} {t : T} {st : Status} {A : T → Bool} {q : Queue T W}
  {psid : Nat}

section

variable (h : Placed s place)

include h

omit [DecidableEq W] in
theorem Placed.put (ht : s.live t = true)
    (hq : Home st (s.priority t) q) (hlinked : Linked s'.lists (update place t (some q)))
    (hstatus : s'.status = update s.status t st) (hpri : s'.priority = s.priority) (hpsid : s'.psid = s.psid)
    (hlive : s'.live = s.live) : Placed s' (update place t (some q)) := by
  refine ⟨hlinked, fun u hu => ?_, fun u hu => ?_⟩
  · rw [hlive] at hu
    rw [hstatus, hpri, hpsid]
    refine ⟨(h.home u hu).1, ?_⟩
    by_cases hut : u = t
    · subst hut
      exact ⟨q, update_self _ _ _, by rwa [update_self]⟩
    · rw [update_of_ne hut, update_of_ne hut]
      exact (h.home u hu).2
  · rw [hlive] at hu
    have hut : u ≠ t := by
      rintro rfl
      rw [ht] at hu
      cases hu
    rw [update_of_ne hut]
    exact h.dead u hu

omit [DecidableEq W] in
theorem Placed.relabel (hst : ∀ q : Queue T W, Home (s.status t) (s.priority t) q →
    Home st (s.priority t) q) : Placed (s.setStatus t st) place := by
  refine { h with home := fun u hu => ?_ }
  obtain ⟨hpsid, q, hq, hhome⟩ := h.home u hu
  refine ⟨hpsid, q, hq, ?_⟩
  by_cases hut : u = t
  · subst hut
    simpa [State.setStatus] using hst q hhome
  · simpa [State.setStatus, hut] using hhome

section

variable (ht : s.live t = true)

include ht

theorem Placed.move (hq : Home st (s.priority t) q) :
    Placed (((s.unlinkTask t).insertTail q t).setStatus t st) (update place t (some q)) := by
  have hins : (s.unlinkTask t).insertTail q t = { s with lists := linkTail (unlink s.lists t) q t } :=
    if_pos (h.home t ht).1
  rw [hins]
  exact h.put ht hq (h.linked.move t q) rfl rfl rfl rfl

theorem Placed.putToReadyQueueUnsafe : ∃ place', Placed (s.putToReadyQueueUnsafe t) place' := by
  unfold State.putToReadyQueueUnsafe
  split_ifs with hdying hpsid
  · exact ⟨place, h⟩
  · exact ⟨_, h.move ht rfl⟩
  · exact absurd (h.home t ht).1 hpsid

theorem Placed.putToWaitQueueUnsafe (w : Option W) :
    ∃ place', Placed (s.putToWaitQueueUnsafe t w) place' := ⟨_, h.move ht ⟨w, rfl⟩⟩

end

end

theorem Placed.putToDyingQueueUnsafe (B : Balancing T) (h : Placed s place) (ht : s.live t = true) (p : T) :
    ∃ place', Placed (s.putToDyingQueueUnsafe B t (some p)) place' := by
  have hhome : Home .dying (s.priority t) (Queue.dying p : Queue T W) := ⟨p, rfl⟩
  obtain ⟨hl, hh, hd⟩ := h.move ht hhome
  exact ⟨_, hl, hh, hd⟩

omit [DecidableEq W] in
theorem Placed.create (h : Placed s place) (ht : s.live t = false) (hpsid : psid ≠ noPsid) (priority : Fin 3)
    (hl : Linked s'.lists (update place t (some (.ready priority)))) (hstatus : s'.status = update s.status t .ready)
    (hpri : s'.priority = update s.priority t priority) (hnum : s'.psid = update s.psid t psid)
    (hlive : s'.live = update s.live t true) : Placed s' (update place t (some (.ready priority))) := by
  refine ⟨hl, fun u hu => ?_, fun u hu => ?_⟩
  · rw [hstatus, hpri, hnum]
    by_cases hut : u = t
    · subst hut
      simp only [update_self]
      exact ⟨hpsid, _, rfl, rfl⟩
    · rw [hlive, update_of_ne hut] at hu
      simp only [update_of_ne hut]
      exact h.home u hu
  · by_cases hut : u = t
    · subst hut
      rw [hlive, update_self] at hu
      cases hu
    · rw [hlive, update_of_ne hut] at hu
      rw [update_of_ne hut]
      exact h.dead u hu

/-- The new task goes to the tail of its ready queue, or to the head of it. -/
theorem Placed.enqueue (h : Placed s place) (ht : s.live t = false) (hpsid : psid ≠ noPsid)
    (priority : Fin 3) : (∃ place', Placed ((s.create t psid priority).putToReadyQueueUnsafe t) place') ∧
      ∃ place', Placed ((s.create t psid priority).enqueueChildFirst t) place' := by
  have hput : (s.create t psid priority).putToReadyQueueUnsafe t = { (s.create t psid priority) with
        lists := linkTail (unlink s.lists t) (.ready priority) t
        status := update (update s.status t .ready) t .ready } := by
    simp [State.putToReadyQueueUnsafe, State.create, State.insertTail, State.unlinkTask, State.setStatus, hpsid]
  have hlinked : Linked (linkTail (unlink s.lists t) (.ready priority) t) _ := h.linked.move t (.ready priority)
  refine ⟨⟨update place t (some (.ready priority)), ?_⟩, ⟨update place t (some (.ready priority)), ?_⟩⟩
  · rw [hput]
    exact h.create ht hpsid priority hlinked (update_idem _ _ _) rfl rfl rfl
  · rw [State.enqueueChildFirst, hput]
    have hhead := (hlinked.unlink t).linkHead (q := .ready priority) (update_self _ _ _)
    rw [update_idem, update_idem] at hhead
    refine h.create ht hpsid priority ?_ (update_idem _ _ _) rfl rfl rfl
    simpa [State.unlinkTask, State.create] using hhead

section

variable (s : State T W)

theorem putReady_status (t u : T) :
    (s.putToReadyQueueUnsafe t).status u = if u = t ∧ s.status u ≠ .dying then .ready else s.status u := by
  unfold State.putToReadyQueueUnsafe State.insertTail
  by_cases hu : u = t
  · subst hu
    split_ifs <;> simp_all [State.setStatus, State.unlinkTask]
  · split_ifs <;> simp_all [State.setStatus, State.unlinkTask]

theorem move_rest (q : Queue T W) (t : T) :
    ((s.unlinkTask t).insertTail q t).live = s.live ∧ ((s.unlinkTask t).insertTail q t).timers = s.timers := by
  unfold State.insertTail
  split_ifs <;> exact ⟨rfl, rfl⟩

theorem putReady_rest (t : T) :
    let s' := s.putToReadyQueueUnsafe t
    s'.priority = s.priority ∧ s'.psid = s.psid ∧ s'.live = s.live ∧ s'.timers = s.timers := by
  unfold State.putToReadyQueueUnsafe State.insertTail
  split_ifs <;> exact ⟨rfl, rfl, rfl, rfl⟩

/-- A task that is moved leaves the others in their queues, in the order in which they were. -/
theorem move_filter (ht : A t = false) (q q' : Queue T W) :
    (((s.unlinkTask t).insertTail q t).lists q').filter A = (s.lists q').filter A := by
  unfold State.insertTail
  split_ifs
  · exact (linkTail_filter ht q q').trans (unlink_filter ht q')
  · exact unlink_filter ht q'

theorem putReady_filter (ht : s.status t ≠ .dying → A t = false) (q : Queue T W) :
    ((s.putToReadyQueueUnsafe t).lists q).filter A = (s.lists q).filter A := by
  unfold State.putToReadyQueueUnsafe
  split_ifs with hdying
  · rfl
  · exact move_filter s (ht hdying) _ q
  · rfl

end

end

end Mos.Sched
