import Mos.Lib.Run
import Mos.Lib.Tally

/-!
# The lock base

`lock_base` of `src/lib/impl/lock.c`: a binary semaphore with a wait queue, on which mutexes and events are built.
Any number of tasks run `lock_base_acquire`, `cond_wait`, `lock_base_release` (which is `cond_notify`) and
`cond_reset`; a step is one atomic access to the lock word or to `waiters`, one spinlock operation on `wait_lock`, or
one critical section of `ps_lock`.  A task on `wait_list` may at any time be made ready by somebody else (a timer, a
signal, a poll wakeup).

A release that finds `waiters` 0 skips the queue, and a wakeup hands nothing over: the woken task retries, may lose
the word to a newcomer, and may leave because of a signal.  `Inv.wakeup` is what makes this sound: while the word is
free and a task sleeps or is about to, some task is on its way to retry or to wake one (`Pc.active`).
-/

namespace Mos.Lock

open Lib Function

/-- Where a task stands in the code.  `i` is the `interruptible` argument of `cond_wait`, false in
`lock_base_acquire`; `parked` says whether the task is still linked in `wait_list`. -/
inductive Pc
  | idle
  -- `lock_try_acquire`: the load, then the compare-and-exchange
  | tryLoad (i : Bool)
  | tryCas (i : Bool)
  -- the slow path; `retry` to `enqueued` hold `wait_lock`
  | register (i : Bool)
  | spin (i : Bool)
  | retry (i : Bool)
  | leave (i : Bool)
  | prepare (i : Bool)
  | refuse
  | enqueued (i parked : Bool)
  | asleep (i parked : Bool)
  -- a signalled waiter passes its wakeup on
  | passSpin
  | passLeave
  | passCheck
  | passWake
  -- `wait_lock` is released and the call returns, with the word taken or not
  | unlockRet (acquired : Bool)
  -- `lock_base_release`
  | relStore
  | relLoad
  | relSpin
  | relWake
  | relUnlock
  deriving DecidableEq

namespace Pc

/-- Counted in `waiters`. -/
def registered : Pc → Bool
  | spin _ | retry _ | leave _ | prepare _ | refuse | enqueued _ _ | asleep _ _ | passSpin | passLeave => true
  | _ => false

/-- Holds `wait_lock`. -/
def critical : Pc → Bool
  | retry _ | leave _ | prepare _ | refuse | enqueued _ _ | passLeave | passCheck | passWake | unlockRet _ | relWake
  | relUnlock => true
  | _ => false

/-- Linked in `wait_list`. -/
def parked : Pc → Bool
  | enqueued _ p | asleep _ p => p
  | _ => false

/-- Asleep, or past the failed retry that sends the task to sleep. -/
def needy : Pc → Bool
  | prepare _ => true
  | p => p.parked

/-- Bound to retry the word or to wake a waiter before it stops. -/
def active : Pc → Bool
  | spin _ | retry _ | passSpin | passLeave | passCheck | passWake | relLoad | relSpin | relWake => true
  | enqueued _ p | asleep _ p => !p
  | _ => false

/-- Owns the word: has taken it and not yet returned, or is about to give it back. -/
def owns : Pc → Bool
  | leave _ | unlockRet true | relStore => true
  | _ => false

/-- The effect of `ps_put_to_ready_queue_unsafe` on a task that waits. -/
def woken : Pc → Pc
  | enqueued i _ => enqueued i false
  | asleep i _ => asleep i false
  | p => p

private theorem registered_of_needy {p : Pc} (h : p.needy = true) : p.registered = true := by
  cases p <;> first | rfl | cases h

/-- A wakeup leaves a task where it was, except that the task is now on its way. -/
theorem woken_spec {p : Pc} (h : p.parked = true) : p.woken.registered = p.registered ∧
    p.woken.critical = p.critical ∧ p.woken.parked = false ∧ p.woken.active = true := by
  cases p with
  | enqueued | asleep => exact ⟨rfl, rfl, rfl, rfl⟩
  | _ => cases h

end Pc

inductive Call
  | acquire
  | wait (interruptible : Bool)
  | release
  deriving DecidableEq

def Call.entry : Call → Pc
  | acquire => .tryLoad false
  | wait i => .tryLoad i
  | release => .relStore

/-- `lock_base`, and where every task stands. -/
structure Base (T : Type) where
  lock : Nat
  waiters : Nat
  waitLock : Bool
  waitList : List T
  pc : T → Pc

/-- `lock_init`. -/
def Base.init (T : Type) (initstat : Nat) : Base T := ⟨initstat, 0, false, [], fun _ => .idle⟩

inductive Event (T : Type)
  | call (t : T) (c : Call)
  | internal (t : T)
  | acquired (t : T)
  | interrupted (t : T)
  | released (t : T)
  | reset (t : T)
  | wake (t : T)

def Event.task {T : Type} : Event T → T
  | .call t _ | .internal t | .acquired t | .interrupted t | .released t | .reset t | .wake t => t

/-- The events of a task that is inside one of the functions. -/
def Event.inside {T : Type} : Event T → Bool
  | .internal _ | .acquired _ | .interrupted _ | .released _ => true
  | _ => false

variable {T : Type}

variable {s s' : Base T} {e : Event T} {u : T}

section

variable [DecidableEq T]

def Base.go (s : Base T) (t : T) (p : Pc) : Base T := { s with pc := update s.pc t p }

/-- Unlink a waiting task and make it ready. -/
def Base.wakeTask (s : Base T) (u : T) : Base T :=
  { s with waitList := s.waitList.erase u, pc := update s.pc u (s.pc u).woken }

/-- `lock_wake_one_unsafe`. -/
def Base.wakeOne (s : Base T) : Base T :=
  match s.waitList with
  | [] => s
  | u :: _ => s.wakeTask u

inductive Step : Base T → Event T → Base T → Prop
  | call {s t} (c : Call) : s.pc t = .idle → Step s (.call t c) (s.go t c.entry)
  | loadFree {s t i} : s.pc t = .tryLoad i → s.lock = 0 → Step s (.internal t) (s.go t (.tryCas i))
  | loadTaken {s t i} : s.pc t = .tryLoad i → s.lock ≠ 0 → Step s (.internal t) (s.go t (.register i))
  | casFree {s t i} : s.pc t = .tryCas i → s.lock = 0 → Step s (.acquired t) ({ s with lock := 1 }.go t .idle)
  | casTaken {s t i} : s.pc t = .tryCas i → s.lock ≠ 0 → Step s (.internal t) (s.go t (.register i))
  | register {s t i} : s.pc t = .register i →
      Step s (.internal t) ({ s with waiters := s.waiters + 1 }.go t (.spin i))
  | spin {s t i} : s.pc t = .spin i → s.waitLock = false →
      Step s (.internal t) ({ s with waitLock := true }.go t (.retry i))
  | retryFree {s t i} : s.pc t = .retry i → s.lock = 0 → Step s (.internal t) ({ s with lock := 1 }.go t (.leave i))
  | retryTaken {s t i} : s.pc t = .retry i → s.lock ≠ 0 → Step s (.internal t) (s.go t (.prepare i))
  | leave {s t i} : s.pc t = .leave i →
      Step s (.internal t) ({ s with waiters := s.waiters - 1 }.go t (.unlockRet true))
  -- `ps_prepare_interruptible_wait` finds a signal
  | refused {s t} : s.pc t = .prepare true → Step s (.internal t) (s.go t .refuse)
  | refuse {s t} : s.pc t = .refuse →
      Step s (.internal t) ({ s with waiters := s.waiters - 1 }.go t (.unlockRet false))
  | park {s t i} : s.pc t = .prepare i →
      Step s (.internal t) ({ s with waitList := s.waitList ++ [t] }.go t (.enqueued i true))
  | unlockSleep {s t i p} : s.pc t = .enqueued i p →
      Step s (.internal t) ({ s with waitLock := false }.go t (.asleep i p))
  | resume {s t i} : s.pc t = .asleep i false → Step s (.internal t) (s.go t (.spin i))
  -- `ps_interrupting_signals` after the wakeup
  | signalled {s t} : s.pc t = .asleep true false → Step s (.internal t) (s.go t .passSpin)
  | passSpin {s t} : s.pc t = .passSpin → s.waitLock = false →
      Step s (.internal t) ({ s with waitLock := true }.go t .passLeave)
  | passLeave {s t} : s.pc t = .passLeave →
      Step s (.internal t) ({ s with waiters := s.waiters - 1 }.go t .passCheck)
  | passFree {s t} : s.pc t = .passCheck → s.lock = 0 → Step s (.internal t) (s.go t .passWake)
  | passTaken {s t} : s.pc t = .passCheck → s.lock ≠ 0 → Step s (.internal t) (s.go t (.unlockRet false))
  | passWake {s t} : s.pc t = .passWake → Step s (.internal t) (s.wakeOne.go t (.unlockRet false))
  | retAcquired {s t} : s.pc t = .unlockRet true → Step s (.acquired t) ({ s with waitLock := false }.go t .idle)
  | retInterrupted {s t} : s.pc t = .unlockRet false →
      Step s (.interrupted t) ({ s with waitLock := false }.go t .idle)
  | relStore {s t} : s.pc t = .relStore → Step s (.internal t) ({ s with lock := 0 }.go t .relLoad)
  | relNone {s t} : s.pc t = .relLoad → s.waiters = 0 → Step s (.released t) (s.go t .idle)
  | relSome {s t} : s.pc t = .relLoad → s.waiters ≠ 0 → Step s (.internal t) (s.go t .relSpin)
  | relSpin {s t} : s.pc t = .relSpin → s.waitLock = false →
      Step s (.internal t) ({ s with waitLock := true }.go t .relWake)
  | relWake {s t} : s.pc t = .relWake → Step s (.internal t) (s.wakeOne.go t .relUnlock)
  | relUnlock {s t} : s.pc t = .relUnlock → Step s (.released t) ({ s with waitLock := false }.go t .idle)
  | reset {s t} : s.pc t = .idle → Step s (.reset t) { s with lock := 1 }
  | wake {s t} : t ∈ s.waitList → Step s (.wake t) (s.wakeTask t)

theorem Base.wakeTask_pc (s : Base T) (u t : T) :
    (s.wakeTask u).pc t = s.pc t ∨ (s.wakeTask u).pc t = (s.pc t).woken := by
  by_cases h : t = u
  · subst h
    exact .inr (update_self _ _ _)
  · exact .inl (update_of_ne h _ _)

theorem Base.wakeOne_pc (s : Base T) (t : T) : s.wakeOne.pc t = s.pc t ∨ s.wakeOne.pc t = (s.pc t).woken := by
  unfold Base.wakeOne
  split
  · exact .inl rfl
  · exact s.wakeTask_pc _ t

theorem Step.frame (h : Step s e s') (hu : u ≠ e.task) : s'.pc u = s.pc u ∨ s'.pc u = (s.pc u).woken := by
  cases h with
  | @passWake t _ | @relWake t _ =>
    replace hu : u ≠ t := hu
    simp only [Base.go, update_of_ne hu]
    exact s.wakeOne_pc u
  | reset => exact .inl rfl
  | wake => exact s.wakeTask_pc _ u
  | _ => exact .inl (update_of_ne hu _ _)

/-- No task can take a step inside the functions. -/
def Quiet (s : Base T) : Prop := ∀ e s', Step s e s' → e.inside = false

theorem Quiet.stuck {P : Prop} (hq : Quiet s) (hs : Step s e s') (he : e.inside = true) : P := by
  rw [hq e s' hs] at he
  cases he

theorem Quiet.of_parked (h : ∀ t, s.pc t = .idle ∨ ∃ i, s.pc t = .asleep i true) : Quiet s := by
  intro e s' hs
  have hno : ∀ {t : T} {p : Pc}, s.pc t = p → p ≠ .idle → (∀ i, p ≠ .asleep i true) → e.inside = false := by
    intro t p ht h1 h2
    rcases h t with ht' | ⟨i, ht'⟩
    · exact absurd (ht.symm.trans ht') h1
    · exact absurd (ht.symm.trans ht') (h2 i)
  cases hs with
  | call | reset | wake => rfl
  | _ =>
    exact hno ‹s.pc _ = _› (by rintro ⟨⟩) (by rintro _ ⟨⟩)

end

/-! ### The invariant -/

variable [Fintype T]

structure Inv (s : Base T) : Prop where
  waiters : s.waiters = tally Pc.registered s.pc
  critical : Guards s.waitLock Pc.critical s.pc
  listed : Listed Pc.parked s.waitList s.pc
  wakeup : s.lock = 0 → 0 < tally Pc.needy s.pc → 0 < tally Pc.active s.pc

theorem Inv.init (initstat : Nat) : Inv (Base.init T initstat) where
  waiters := (tally_const rfl).symm
  critical := .free rfl
  listed := .nil rfl
  wakeup := fun _ h => by rw [Base.init, tally_const rfl] at h; exact absurd h (lt_irrefl 0)

variable {t : T} {l w : Nat} {k : Bool}

theorem Inv.waiters_pos (hi : Inv s) (h : (s.pc t).registered = true) : 0 < s.waiters := by
  rw [hi.waiters]
  exact tally_pos_of h

open Pc

theorem Inv.only_parked (hi : Inv s) (hc : (s.pc t).critical = true)
    (hn : (s.pc t).needy = false) (he : s.waitList = []) : tally needy s.pc = 0 := by
  refine hi.listed.none_needy he hi.critical (fun a ha hp => ?_) hc hn
  cases a with
  | prepare => rfl
  | _ => simp_all [needy]

section

variable [DecidableEq T] {s : Base T} {t : T} {p q : Pc}

section

variable (hi : Inv s)

include hi

section

variable {wl : List T} (ht : s.pc t = p) (hw : w + p.registered.toNat = s.waiters + q.registered.toNat)
  (hk : k.toNat + p.critical.toNat = s.waitLock.toNat + q.critical.toNat)

include ht hw hk

/-- What a step of one task has to provide. -/
theorem Inv.change (hl : Listed parked wl (update s.pc t q))
    (ha : l = 0 → 0 < tally needy (update s.pc t q) → 0 < tally active (update s.pc t q)) :
    Inv ⟨l, w, k, wl, update s.pc t q⟩ := by
  subst ht
  exact ⟨eq_tally_update hi.waiters hw, hi.critical.update hk, hl, ha⟩

theorem Inv.own (hp : q.parked = p.parked)
    (ha : l = 0 → q.active = true ∨ (∃ u, u ≠ t ∧ (s.pc u).active = true) ∨
      tally needy (update s.pc t q) = 0 ∨ s.lock = 0 ∧ p.active = false ∧ (q.needy = true → p.needy = true)) :
    Inv ({ s with lock := l, waiters := w, waitLock := k }.go t q) := by
  refine hi.change ht hw hk (hi.listed.keep (ht ▸ hp)) fun hl hn => ?_
  subst ht
  rcases ha hl with hq | ⟨u, hu, hau⟩ | h0 | ⟨hl', hpa, hnq⟩
  · exact tally_pos_update hq
  · exact tally_pos_of (by rw [update_of_ne hu]; exact hau)
  · omega
  · exact covered_update (hi.wakeup hl') (fun hq => .inl (hnq hq)) (by rw [hpa]; rintro ⟨⟩) hn

theorem Inv.pass (hp : q.parked = p.parked) (ha : p.active = false) (hn : q.needy = false) :
    Inv ({ s with waiters := w, waitLock := k }.go t q) :=
  hi.own ht hw hk hp fun hl => .inr (.inr (.inr ⟨hl, ha, by rw [hn]; nofun⟩))

end

theorem Inv.wakeTask (hu : u ∈ s.waitList) : Inv (s.wakeTask u) := by
  obtain ⟨hr, hc, hnp, ha⟩ := woken_spec ((hi.listed.mem_iff u).mp hu)
  exact hi.change rfl (by rw [hr]) (by rw [hc]) (hi.listed.erase hnp) fun _ _ => tally_pos_update ha

theorem Inv.park {i : Bool} (ht : s.pc t = .prepare i) :
    Inv ({ s with waitList := s.waitList ++ [t] }.go t (.enqueued i true)) := by
  refine hi.change ht rfl rfl (hi.listed.push (by rw [ht]; rfl) rfl) ?_
  rw [tally_update_of_eq (by rw [ht]; rfl), tally_update_of_eq (by rw [ht]; rfl)]
  exact hi.wakeup

/-- The two places that wake one waiter under `wait_lock`: the task then has nothing left to do for the queue. -/
theorem Inv.wakeOne (ht : s.pc t = .passWake ∨ s.pc t = .relWake)
    (hq : q.registered = false ∧ q.critical = true ∧ q.parked = false ∧ q.needy = false) :
    Inv (s.wakeOne.go t q) := by
  have hpt : (s.pc t).registered = false ∧ (s.pc t).critical = true ∧ (s.pc t).parked = false ∧
      (s.pc t).needy = false := by
    rcases ht with ht | ht <;> rw [ht] <;> exact ⟨rfl, rfl, rfl, rfl⟩
  cases hl : s.waitList with
  | nil =>
    have hs : s.wakeOne = s := by simp [Base.wakeOne, hl]
    rw [hs]
    have h0 := hi.only_parked hpt.2.1 hpt.2.2.2 hl
    refine hi.own rfl (by rw [hpt.1, hq.1]) (by rw [hpt.2.1, hq.2.1]) (by rw [hpt.2.2.1, hq.2.2.1]) fun _ => ?_
    refine .inr (.inr (.inl ?_))
    have h1 := tally_update needy s.pc t q
    rw [hpt.2.2.2, hq.2.2.2] at h1
    omega
  | cons u l =>
    have hu : u ∈ s.waitList := by rw [hl]; exact List.mem_cons_self
    have hs : s.wakeOne = s.wakeTask u := by simp [Base.wakeOne, hl]
    have hpu := (hi.listed.mem_iff u).mp hu
    have hut : u ≠ t := by
      rintro rfl
      rw [hpt.2.2.1] at hpu
      cases hpu
    have hpc : (s.wakeTask u).pc t = s.pc t := by simp [Base.wakeTask, update_of_ne hut.symm]
    have hau : ((s.wakeTask u).pc u).active = true := by
      simp only [Base.wakeTask, update_self]
      exact (woken_spec hpu).2.2.2
    rw [hs]
    exact (hi.wakeTask hu).own hpc (by rw [hpt.1, hq.1]; rfl) (by rw [hpt.2.1, hq.2.1]; rfl)
      (by rw [hpt.2.2.1, hq.2.2.1]) fun _ => .inr (.inl ⟨u, hut, hau⟩)

end

omit [DecidableEq T] in
/-- A store of another value that does not free the word, as in `cond_reset`. -/
theorem Inv.setLock (hi : Inv s) (hl : l = s.lock ∨ l ≠ 0) : Inv { s with lock := l } := by
  refine { hi with wakeup := fun h0 => ?_ }
  rcases hl with h | h
  · exact hi.wakeup (h ▸ h0)
  · exact absurd h0 h

theorem Step.inv (h : Step s e s') (hi : Inv s) : Inv s' := by
  cases h with
  | call c ht =>
    cases c with
    | acquire | wait | release => exact hi.pass ht rfl rfl rfl rfl rfl
  | loadFree ht _ | loadTaken ht _ | casTaken ht _ | refused ht => exact hi.pass ht rfl rfl rfl rfl rfl
  | casFree ht _ | retryFree ht _ => exact hi.own ht rfl rfl rfl nofun
  | register ht | passFree ht _ | resume ht | signalled ht | relStore ht | relSome ht _ =>
    exact hi.own ht rfl rfl rfl fun _ => .inl rfl
  | spin ht hk | passSpin ht hk | relSpin ht hk => exact hi.own ht rfl (by rw [hk]; rfl) rfl fun _ => .inl rfl
  | retryTaken ht hl | passTaken ht hl => exact hi.own ht rfl rfl rfl fun h0 => absurd h0 hl
  | leave ht | refuse ht =>
    have := hi.waiters_pos (by rw [ht]; rfl)
    exact hi.pass ht (by simp [registered]; omega) rfl rfl rfl rfl
  | passLeave ht =>
    have := hi.waiters_pos (by rw [ht]; rfl)
    exact hi.own ht (by simp [registered]; omega) rfl rfl fun _ => .inl rfl
  | park ht => exact hi.park ht
  | @unlockSleep t i p ht =>
    have hk := hi.critical.locked_at ht rfl
    refine hi.own ht rfl (by rw [hk]; rfl) rfl fun hl => ?_
    cases p with
    | false => exact .inl rfl
    | true => exact .inr (.inr (.inr ⟨hl, rfl, fun _ => rfl⟩))
  | retAcquired ht | retInterrupted ht | relUnlock ht =>
    have hk := hi.critical.locked_at ht rfl
    exact hi.pass ht rfl (by rw [hk]; rfl) rfl rfl rfl
  | @relNone t ht h0 =>
    -- nobody is registered, hence nobody sleeps
    refine hi.own ht rfl rfl rfl fun _ => .inr (.inr (.inl ?_))
    rw [tally_eq_zero]
    intro u
    by_cases hu : u = t
    · rw [hu, update_self]
      rfl
    · rw [update_of_ne hu, ← Bool.not_eq_true]
      intro hn
      have := hi.waiters_pos (registered_of_needy hn)
      omega
  | passWake ht => exact hi.wakeOne (.inl ht) ⟨rfl, rfl, rfl, rfl⟩
  | relWake ht => exact hi.wakeOne (.inr ht) ⟨rfl, rfl, rfl, rfl⟩
  | reset ht => exact hi.setLock (.inr one_ne_zero)
  | wake hu => exact hi.wakeTask hu

end

variable [DecidableEq T]

theorem run_inv {initstat : Nat} {tr : List (Event T)} (h : Run Step (.init T initstat) tr s) : Inv s :=
  h.invariant_state Inv (Inv.init initstat) fun _ _ _ hi hs => hs.inv hi

/-! ### Quiescence -/

/-- A task in the `wait_lock` section can always go on, so in a quiescent state the spinlock is free. -/
theorem Quiet.unlocked (hq : Quiet s) (hi : Inv s) : s.waitLock = false := by
  by_contra hk
  rw [Bool.not_eq_false] at hk
  obtain ⟨t, ht⟩ := (hk ▸ hi.critical).holder
  cases hpc : s.pc t with
  | retry i =>
    by_cases hl : s.lock = 0
    · exact hq.stuck (.retryFree hpc hl) rfl
    · exact hq.stuck (.retryTaken hpc hl) rfl
  | leave i => exact hq.stuck (.leave hpc) rfl
  | prepare i => exact hq.stuck (.park hpc) rfl
  | refuse => exact hq.stuck (.refuse hpc) rfl
  | enqueued i p => exact hq.stuck (.unlockSleep hpc) rfl
  | passLeave => exact hq.stuck (.passLeave hpc) rfl
  | passCheck =>
    by_cases hl : s.lock = 0
    · exact hq.stuck (.passFree hpc hl) rfl
    · exact hq.stuck (.passTaken hpc hl) rfl
  | passWake => exact hq.stuck (.passWake hpc) rfl
  | unlockRet a =>
    cases a with
    | true => exact hq.stuck (.retAcquired hpc) rfl
    | false => exact hq.stuck (.retInterrupted hpc) rfl
  | relWake => exact hq.stuck (.relWake hpc) rfl
  | relUnlock => exact hq.stuck (.relUnlock hpc) rfl
  | _ => rw [hpc] at ht; cases ht

theorem Quiet.pc_eq (hq : Quiet s) (hi : Inv s) (t : T) : s.pc t = .idle ∨ ∃ i, s.pc t = .asleep i true := by
  have hk := hq.unlocked hi
  have hout := (hk ▸ hi.critical).outside t
  cases hpc : s.pc t with
  | idle => exact .inl rfl
  | asleep i p =>
    cases p with
    | true => exact .inr ⟨i, rfl⟩
    | false => exact hq.stuck (.resume hpc) rfl
  | tryLoad i =>
    by_cases hl : s.lock = 0
    · exact hq.stuck (.loadFree hpc hl) rfl
    · exact hq.stuck (.loadTaken hpc hl) rfl
  | tryCas i =>
    by_cases hl : s.lock = 0
    · exact hq.stuck (.casFree hpc hl) rfl
    · exact hq.stuck (.casTaken hpc hl) rfl
  | register i => exact hq.stuck (.register hpc) rfl
  | spin i => exact hq.stuck (.spin hpc hk) rfl
  | passSpin => exact hq.stuck (.passSpin hpc hk) rfl
  | relStore => exact hq.stuck (.relStore hpc) rfl
  | relLoad =>
    by_cases hw : s.waiters = 0
    · exact hq.stuck (.relNone hpc hw) rfl
    · exact hq.stuck (.relSome hpc hw) rfl
  | relSpin => exact hq.stuck (.relSpin hpc hk) rfl
  | _ => rw [hpc] at hout; cases hout

/-- No lost wakeup: in a quiescent state nobody sleeps while the word is free. -/
theorem Quiet.waitList_eq_nil (hq : Quiet s) (hi : Inv s) (hl : s.lock = 0) : s.waitList = [] := by
  refine hi.listed.eq_nil fun t => ?_
  rw [← Bool.not_eq_true]
  intro hp
  have hn : (s.pc t).needy = true := by
    cases h : s.pc t <;> rw [h] at hp <;> first | exact hp | cases hp
  obtain ⟨u, hu⟩ := tally_pos.1 (hi.wakeup hl (tally_pos_of hn))
  rcases hq.pc_eq hi u with h | ⟨i, h⟩ <;> rw [h] at hu <;> cases hu

/-! ### Phases -/

inductive Phase
  | out
  | waiting
  | releasing
  deriving DecidableEq

def Pc.phase : Pc → Phase
  | .idle => .out
  | .relStore | .relLoad | .relSpin | .relWake | .relUnlock => .releasing
  | _ => .waiting

def Call.phase : Call → Phase
  | .acquire | .wait _ => .waiting
  | .release => .releasing

theorem Pc.phase_woken (p : Pc) : p.woken.phase = p.phase := by cases p <;> rfl

omit [Fintype T]

theorem Step.phase_frame (h : Step s e s') (hu : u ≠ e.task) : (s'.pc u).phase = (s.pc u).phase := by
  rcases h.frame hu with hpc | hpc <;> rw [hpc]
  exact phase_woken _

/-- The phase of a task around one of its own steps. -/
def Event.PhaseOk {T : Type} : Event T → Phase → Phase → Prop
  | .call _ c, p, q => p = .out ∧ q = c.phase
  | .acquired _, p, q | .interrupted _, p, q => p = .waiting ∧ q = .out
  | .released _, p, q => p = .releasing ∧ q = .out
  | .internal _, p, q => p ≠ .out ∧ q = p
  | .wake _, p, q | .reset _, p, q => q = p

open Event

theorem Step.phase (h : Step s e s') : e.PhaseOk (s.pc e.task).phase (s'.pc e.task).phase := by
  cases h with
  | @wake t _ =>
    rcases s.wakeTask_pc t t with hpc | hpc
    · exact congrArg phase hpc
    · exact (congrArg phase hpc).trans (phase_woken _)
  | reset ht => rfl
  | @call t c ht =>
    refine ⟨congrArg phase ht, ?_⟩
    simp only [task, Base.go, update_self]
    cases c <;> rfl
  | casFree ht _ | retAcquired ht | retInterrupted ht | relNone ht _ | relUnlock ht =>
    refine ⟨congrArg phase ht, ?_⟩
    simp only [task, Base.go, update_self]
    rfl
  | _ =>
    simp only [PhaseOk, task, Base.go, update_self, ‹s.pc _ = _›]
    exact ⟨nofun, rfl⟩

/-- The word is free, or a release is about to free it. -/
def Fired (s : Base T) : Prop := s.lock = 0 ∨ ∃ u, s.pc u = .relStore

theorem Step.fires (h : Step s (.call t .release) s') : Fired s' := by
  cases h
  exact .inr ⟨t, update_self _ _ _⟩

/-- A signal is used up only by a waiting task that takes the word. -/
theorem Step.fired (h : Step s e s') (hr : ∀ t, e ≠ .reset t) (hf : Fired s) :
    Fired s' ∨ (s.pc e.task).phase = .waiting ∧ (e = .acquired e.task ∨ (s'.pc e.task).owns = true) := by
  have keep : ∀ {r : Base T}, r.lock = s.lock → (∀ u, s.pc u = .relStore → r.pc u = .relStore) → Fired r := by
    intro r hl hp
    rcases hf with h0 | ⟨u, hu⟩
    · exact .inl (hl.trans h0)
    · exact .inr ⟨u, hp u hu⟩
  -- a step of a task that is not at the store of a release keeps the others that are
  have own : ∀ {r : Base T} {t : T} {q : Pc}, s.pc t ≠ .relStore → r.lock = s.lock →
      r.pc = update s.pc t q → Fired r := by
    intro r t q ht hl hpc
    refine keep hl fun u hu => ?_
    have hut : u ≠ t := by
      rintro rfl
      exact ht hu
    rw [hpc, update_of_ne hut]
    exact hu
  have hwake : ∀ (v : T) (u : T), s.pc u = .relStore → (s.wakeTask v).pc u = .relStore := by
    intro v u hu
    rcases s.wakeTask_pc v u with hpc | hpc <;> rw [hpc, hu]
    rfl
  have hone : s.wakeOne.lock = s.lock ∧ ∀ u, s.pc u = .relStore → s.wakeOne.pc u = .relStore := by
    unfold Base.wakeOne
    split
    · exact ⟨rfl, fun _ hu => hu⟩
    · exact ⟨rfl, hwake _⟩
  cases h with
  | reset => exact absurd rfl (hr _)
  | relStore => exact .inl (.inl rfl)
  | casFree ht _ => exact .inr ⟨congrArg Pc.phase ht, .inl rfl⟩
  | retryFree ht _ =>
    refine .inr ⟨congrArg Pc.phase ht, .inr ?_⟩
    simp only [task, Base.go, update_self]
    rfl
  | @passWake t ht | @relWake t ht =>
    refine .inl (keep hone.1 fun u hu => ?_)
    have hut : u ≠ t := by
      rintro rfl
      rw [ht] at hu
      cases hu
    simp only [Base.go, update_of_ne hut]
    exact hone.2 u hu
  | wake _ => exact .inl (keep rfl (hwake _))
  | _ => exact .inl (own (by rw [‹s.pc _ = _›]; rintro ⟨⟩) rfl rfl)

/-- The signal outlasts the steps of the only task `u` that waits, as long as it goes on to wait without the word. -/
theorem Step.fired_kept (h : Step s e s') (hr : ∀ t, e ≠ .reset t) (hf : Fired s)
    (hone : (s.pc e.task).phase = .waiting → e.task = u)
    (hwait : (s.pc u).phase = .waiting → (s'.pc u).phase = .waiting) (ho : (s'.pc u).owns = false) : Fired s' := by
  rcases h.fired hr hf with hf' | ⟨hw, htake⟩
  · exact hf'
  have hu := hone hw
  rw [← hu] at hwait ho
  rcases htake with he | hown
  · have hok := h.phase
    rw [he] at hok
    cases (show (s'.pc e.task).phase = .out from hok.2).symm.trans (hwait hw)
  · cases ho.symm.trans hown

theorem Step.owns_back (h : Step s e s') (hw : (s'.pc t).phase = .waiting)
    (ho : (s'.pc t).owns = false) : (s.pc t).owns = false := by
  by_cases ht : t = e.task
  swap
  · rcases h.frame ht with hpc | hpc <;> rw [hpc] at ho
    · exact ho
    · cases h : s.pc t <;> rw [h] at ho <;> first | rfl | exact ho
  subst ht
  cases h with
  | leave hpc =>
    simp only [task, Base.go, update_self] at ho
    cases ho
  | @wake t _ =>
    replace ho : ((s.wakeTask t).pc t).owns = false := ho
    change (s.pc t).owns = false
    rcases s.wakeTask_pc t t with hpc | hpc <;> rw [hpc] at ho
    · exact ho
    · cases h : s.pc t <;> rw [h] at ho <;> first | rfl | exact ho
  | reset => exact ho
  | retAcquired | relStore =>
    simp only [task, Base.go, update_self] at hw
    cases hw
  | _ => exact congrArg owns ‹s.pc _ = _›

omit [DecidableEq T] in
theorem idle_of_phase (h : (s.pc t).phase = .out) : s.pc t = .idle := by
  cases hp : s.pc t <;> rw [hp] at h <;> first | rfl | cases h

variable [Fintype T]

/-- In a quiescent state a task sleeps on an event only while the event has not fired. -/
theorem Quiet.not_fired (hq : Quiet s) (hi : Inv s) (ht : t ∈ s.waitList) : ¬Fired s := by
  rintro (h | ⟨u, hu⟩)
  · rw [hq.waitList_eq_nil hi h] at ht
    cases ht
  · rcases hq.pc_eq hi u with h | ⟨i, h⟩ <;> rw [hu] at h <;> cases h

theorem Quiet.owns_eq_false (hq : Quiet s) (hi : Inv s) (t : T) : (s.pc t).owns = false := by
  rcases hq.pc_eq hi t with h | ⟨i, h⟩ <;> rw [h] <;> rfl

end Mos.Lock
