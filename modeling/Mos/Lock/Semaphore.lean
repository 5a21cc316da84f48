import Mos.Lib.Run
import Mos.Lib.Tally
import Mathlib.Algebra.Group.Int.Defs

/-!
# Counting semaphores

`sem_wait` and `sem_post` of `src/lib/impl/lock.c`, run by any number of tasks.  As in the lock base, a step is one
atomic access to `count` or `waiters`, one operation on `wait_lock`, or one critical section of `ps_lock`.  The
compare-and-exchange is the weak one: it may fail although the count has not changed.  `count` is an `int` and an
atomic addition wraps.

A post wakes one waiter and hands nothing over.  While a task sleeps, every unit of the count is matched by a task
that is on its way to take one or to wake a sleeper (`SemInv.wakeup`).
-/

namespace Mos.Lock

open Lib Function List

/-- Where a task stands in `sem_wait` or `sem_post`.  `tryCas` and `retryCas` carry the local variable `count` of
`sem_try_wait`, before the registration and after it. -/
inductive SemPc
  | idle
  | tryLoad
  | tryCas (count : Int)
  | waitRet
  -- the slow path; `retryLoad` to `enqueued` hold `wait_lock`
  | register
  | spin
  | retryLoad
  | retryCas (count : Int)
  | leave
  | unlockRet
  | prepare
  | enqueued (parked : Bool)
  | asleep (parked : Bool)
  -- `sem_post`
  | postAdd
  | postLoad
  | postSpin
  | postWake
  | postUnlock
  deriving DecidableEq

variable {p : SemPc}

namespace SemPc

/-- Counted in `waiters`. -/
def registered : SemPc → Bool
  | spin | retryLoad | retryCas _ | leave | prepare | enqueued _ | asleep _ => true
  | _ => false

/-- Holds `wait_lock`. -/
def critical : SemPc → Bool
  | retryLoad | retryCas _ | leave | unlockRet | prepare | enqueued _ | postWake | postUnlock => true
  | _ => false

/-- Linked in `wait_list`. -/
def parked : SemPc → Bool
  | enqueued p | asleep p => p
  | _ => false

/-- Asleep, or past the failed retry that sends the task to sleep. -/
def needy : SemPc → Bool
  | prepare => true
  | p => p.parked

/-- Bound to retry the count or to wake a waiter before it stops. -/
def active : SemPc → Bool
  | spin | retryLoad | retryCas _ | postLoad | postSpin | postWake => true
  | enqueued p | asleep p => !p
  | _ => false

/-- A wait that has taken its unit and has not returned. -/
def leaving : SemPc → Bool
  | waitRet | leave | unlockRet => true
  | _ => false

/-- A post that has added its unit and has not returned. -/
def posting : SemPc → Bool
  | postLoad | postSpin | postWake | postUnlock => true
  | _ => false

/-- The loop of `sem_try_wait` tries to take a unit only from a positive count. -/
def Positive : SemPc → Prop
  | tryCas c | retryCas c => 0 < c
  | _ => True

def woken : SemPc → SemPc
  | enqueued _ => enqueued false
  | asleep _ => asleep false
  | p => p

private theorem registered_of_needy (h : p.needy = true) : p.registered = true := by
  cases p <;> first | rfl | cases h

private theorem needy_of_parked (h : p.parked = true) : p.needy = true := by
  cases p <;> first | exact h | cases h

private theorem woken_spec (h : p.parked = true) : p.woken.registered = p.registered ∧
    p.woken.critical = p.critical ∧ p.woken.parked = false ∧ p.active = false ∧ p.woken.active = true := by
  cases p with
  | enqueued q | asleep q =>
    cases q with
    | true => exact ⟨rfl, rfl, rfl, rfl, rfl⟩
    | false => cases h
  | _ => cases h

end SemPc

structure Sem (T : Type) where
  count : Int
  waiters : Nat
  waitLock : Bool
  waitList : List T
  pc : T → SemPc

/-- `sem_init`. -/
def Sem.init (T : Type) (count : Int) : Sem T := ⟨count, 0, false, [], fun _ => .idle⟩

def intMax : Int := 2 ^ 31 - 1

/-- `__atomic_fetch_add` of 1 on an `int`. -/
def fetchAdd (c : Int) : Int := if c = intMax then -2 ^ 31 else c + 1

/-- `took` and `added` are the updates of `count`, `waited` and `posted` the returns of the two functions. -/
inductive SemEvent (T : Type)
  | wait (t : T)
  | post (t : T)
  | took (t : T)
  | added (t : T)
  | waited (t : T)
  | posted (t : T)
  | internal (t : T)
  | wake (t : T)

namespace SemEvent

variable {T : Type}

def inside : SemEvent T → Bool
  | took _ | added _ | waited _ | posted _ | internal _ => true
  | _ => false

def isTook : SemEvent T → Bool
  | took _ => true
  | _ => false

def isAdded : SemEvent T → Bool
  | added _ => true
  | _ => false

def isWaited : SemEvent T → Bool
  | waited _ => true
  | _ => false

def isPosted : SemEvent T → Bool
  | posted _ => true
  | _ => false

end SemEvent

variable {T : Type}

variable {s s' : Sem T} {e : SemEvent T}

section

variable [DecidableEq T]

def Sem.go (s : Sem T) (t : T) (p : SemPc) : Sem T := { s with pc := update s.pc t p }

def Sem.wakeTask (s : Sem T) (u : T) : Sem T :=
  { s with waitList := s.waitList.erase u, pc := update s.pc u (s.pc u).woken }

/-- `lock_wake_one_unsafe`. -/
def Sem.wakeOne (s : Sem T) : Sem T :=
  match s.waitList with
  | [] => s
  | u :: _ => s.wakeTask u

inductive SemStep : Sem T → SemEvent T → Sem T → Prop
  | wait {s t} : s.pc t = .idle → SemStep s (.wait t) (s.go t .tryLoad)
  -- `sem_try_wait` before the registration
  | loadSome {s t} : s.pc t = .tryLoad → 0 < s.count → SemStep s (.internal t) (s.go t (.tryCas s.count))
  | loadNone {s t} : s.pc t = .tryLoad → s.count ≤ 0 → SemStep s (.internal t) (s.go t .register)
  | casTake {s t c} : s.pc t = .tryCas c → s.count = c → SemStep s (.took t) ({ s with count := c - 1 }.go t .waitRet)
  | casSome {s t c} : s.pc t = .tryCas c → 0 < s.count → SemStep s (.internal t) (s.go t (.tryCas s.count))
  | casNone {s t c} : s.pc t = .tryCas c → s.count ≤ 0 → SemStep s (.internal t) (s.go t .register)
  | waitRet {s t} : s.pc t = .waitRet → SemStep s (.waited t) (s.go t .idle)
  | register {s t} : s.pc t = .register → SemStep s (.internal t) ({ s with waiters := s.waiters + 1 }.go t .spin)
  | spin {s t} : s.pc t = .spin → s.waitLock = false →
      SemStep s (.internal t) ({ s with waitLock := true }.go t .retryLoad)
  -- `sem_try_wait` under `wait_lock`
  | reloadSome {s t} : s.pc t = .retryLoad → 0 < s.count → SemStep s (.internal t) (s.go t (.retryCas s.count))
  | reloadNone {s t} : s.pc t = .retryLoad → s.count ≤ 0 → SemStep s (.internal t) (s.go t .prepare)
  | recasTake {s t c} : s.pc t = .retryCas c → s.count = c →
      SemStep s (.took t) ({ s with count := c - 1 }.go t .leave)
  | recasSome {s t c} : s.pc t = .retryCas c → 0 < s.count → SemStep s (.internal t) (s.go t (.retryCas s.count))
  | recasNone {s t c} : s.pc t = .retryCas c → s.count ≤ 0 → SemStep s (.internal t) (s.go t .prepare)
  | leave {s t} : s.pc t = .leave → SemStep s (.internal t) ({ s with waiters := s.waiters - 1 }.go t .unlockRet)
  | unlockRet {s t} : s.pc t = .unlockRet → SemStep s (.waited t) ({ s with waitLock := false }.go t .idle)
  | park {s t} : s.pc t = .prepare →
      SemStep s (.internal t) ({ s with waitList := s.waitList ++ [t] }.go t (.enqueued true))
  | unlockSleep {s t p} : s.pc t = .enqueued p →
      SemStep s (.internal t) ({ s with waitLock := false }.go t (.asleep p))
  | resume {s t} : s.pc t = .asleep false → SemStep s (.internal t) (s.go t .spin)
  | post {s t} : s.pc t = .idle → SemStep s (.post t) (s.go t .postAdd)
  | postAdd {s t} : s.pc t = .postAdd →
      SemStep s (.added t) ({ s with count := fetchAdd s.count }.go t .postLoad)
  | postNone {s t} : s.pc t = .postLoad → s.waiters = 0 → SemStep s (.posted t) (s.go t .idle)
  | postSome {s t} : s.pc t = .postLoad → s.waiters ≠ 0 → SemStep s (.internal t) (s.go t .postSpin)
  | postSpin {s t} : s.pc t = .postSpin → s.waitLock = false →
      SemStep s (.internal t) ({ s with waitLock := true }.go t .postWake)
  | postWake {s t} : s.pc t = .postWake → SemStep s (.internal t) (s.wakeOne.go t .postUnlock)
  | postUnlock {s t} : s.pc t = .postUnlock → SemStep s (.posted t) ({ s with waitLock := false }.go t .idle)
  | wake {s t} : t ∈ s.waitList → SemStep s (.wake t) (s.wakeTask t)

/-- No task can take a step inside `sem_wait` or `sem_post`. -/
def SemQuiet (s : Sem T) : Prop := ∀ e s', SemStep s e s' → e.inside = false

theorem SemQuiet.stuck {P : Prop} (hq : SemQuiet s) (hs : SemStep s e s') (he : e.inside = true) : P := by
  rw [hq e s' hs] at he
  cases he

end

/-! ### The invariant -/

variable [Fintype T] {t : T}

structure SemInv (s : Sem T) : Prop where
  waiters : s.waiters = tally SemPc.registered s.pc
  critical : Guards s.waitLock SemPc.critical s.pc
  listed : Listed SemPc.parked s.waitList s.pc
  positive : ∀ t, (s.pc t).Positive
  wakeup : 0 < tally SemPc.needy s.pc → s.count ≤ tally SemPc.active s.pc

theorem SemInv.init (count : Int) : SemInv (Sem.init T count) where
  waiters := (tally_const rfl).symm
  critical := .free rfl
  listed := .nil rfl
  positive := fun _ => trivial
  wakeup := fun h => by rw [Sem.init, tally_const rfl] at h; exact absurd h (lt_irrefl 0)

theorem SemInv.waiters_pos (hi : SemInv s) (h : (s.pc t).registered = true) : 0 < s.waiters := by
  rw [hi.waiters]
  exact tally_pos_of h

open SemPc

theorem SemInv.only_parked (hi : SemInv s) (hc : (s.pc t).critical = true)
    (hn : (s.pc t).needy = false) (he : s.waitList = []) : tally needy s.pc = 0 := by
  refine hi.listed.none_needy he hi.critical (fun a ha hp => ?_) hc hn
  cases a with
  | prepare => rfl
  | _ => simp_all [needy]

variable [DecidableEq T] {s : Sem T} {t : T} {p q : SemPc}

variable {c : Int} {w : Nat} {k : Bool}

section

variable (hi : SemInv s)

include hi

section

variable {l : List T} (ht : s.pc t = p) (hw : w + p.registered.toNat = s.waiters + q.registered.toNat)
  (hk : k.toNat + p.critical.toNat = s.waitLock.toNat + q.critical.toNat)

include ht hw hk

theorem SemInv.change (hl : Listed parked l (update s.pc t q)) (hq : q.Positive)
    (ha : 0 < tally needy (update s.pc t q) → c ≤ tally active (update s.pc t q)) :
    SemInv ⟨c, w, k, l, update s.pc t q⟩ := by
  subst ht
  refine ⟨eq_tally_update hi.waiters hw, hi.critical.update hk, hl, ?_, ha⟩
  exact (forall_update_iff s.pc fun _ p => p.Positive).mpr ⟨hq, fun u _ => hi.positive u⟩

theorem SemInv.own (hp : q.parked = p.parked) (hq : q.Positive)
    (ha : (q.needy = true → p.needy = true) ∧ c + p.active.toNat ≤ s.count + q.active.toNat ∨ c ≤ 0 ∨
      tally needy (update s.pc t q) = 0) :
    SemInv ({ s with count := c, waiters := w, waitLock := k }.go t q) := by
  refine hi.change ht hw hk (hi.listed.keep (ht ▸ hp)) hq fun hn => ?_
  subst ht
  dsimp only
  rcases ha with ⟨hnq, hle⟩ | hle | h0
  · have h1 := tally_update active s.pc t q
    have h2 := tally_update needy s.pc t q
    have h3 : 0 < tally needy s.pc := by
      cases hqn : q.needy with
      | true => exact tally_pos_of (hnq hqn)
      | false => rw [hqn] at h2; simp at h2; omega
    have h4 := hi.wakeup h3
    omega
  · omega
  · omega

end

theorem SemInv.wakeTask {u : T} (hu : u ∈ s.waitList) : SemInv (s.wakeTask u) := by
  have hp := (hi.listed.mem_iff u).mp hu
  obtain ⟨hr, hc, hnp, ha, hwa⟩ := woken_spec hp
  refine hi.change rfl (by rw [hr]) (by rw [hc]) (hi.listed.erase hnp) ?_ fun _ => ?_
  · cases h : s.pc u <;> rw [h] at hp <;> trivial
  · have h1 := tally_update active s.pc u (s.pc u).woken
    have h2 := hi.wakeup (tally_pos_of (needy_of_parked hp))
    rw [ha, hwa] at h1
    simp at h1
    omega

theorem SemInv.park (ht : s.pc t = .prepare) :
    SemInv ({ s with waitList := s.waitList ++ [t] }.go t (.enqueued true)) := by
  refine hi.change ht rfl rfl (hi.listed.push (by rw [ht]; rfl) rfl) trivial ?_
  rw [tally_update_of_eq (by rw [ht]; rfl), tally_update_of_eq (by rw [ht]; rfl)]
  exact hi.wakeup

/-- The post that wakes a sleeper passes its duty on to it. -/
theorem SemInv.wakeOne (ht : s.pc t = .postWake) : SemInv (s.wakeOne.go t .postUnlock) := by
  cases hl : s.waitList with
  | nil =>
    have hs : s.wakeOne = s := by simp [Sem.wakeOne, hl]
    rw [hs]
    have h0 := hi.only_parked (by rw [ht]; rfl) (by rw [ht]; rfl) hl
    refine hi.own ht rfl rfl rfl trivial (.inr (.inr ?_))
    rw [tally_update_of_eq (by rw [ht]; rfl)]
    exact h0
  | cons u l =>
    have hu : u ∈ s.waitList := by rw [hl]; exact mem_cons_self
    have hs : s.wakeOne = s.wakeTask u := by simp [Sem.wakeOne, hl]
    have hpu := (hi.listed.mem_iff u).mp hu
    have hut : u ≠ t := by
      rintro rfl
      rw [ht] at hpu
      cases hpu
    obtain ⟨hr, hc, hnp, ha, hwa⟩ := woken_spec hpu
    have hi' := hi.wakeTask hu
    have hpc : (s.wakeTask u).pc t = .postWake := by simp [Sem.wakeTask, update_of_ne hut.symm, ht]
    rw [hs]
    -- the sleeper is needy before the wakeup, so the count was covered; now it is active in the place of the post
    have hcov := hi.wakeup (tally_pos_of (needy_of_parked hpu))
    have h1 := tally_update active s.pc u (s.pc u).woken
    have h2 := tally_update active (s.wakeTask u).pc t .postUnlock
    rw [ha, hwa] at h1
    rw [hpc] at h2
    refine hi'.change hpc rfl rfl (hi'.listed.keep (by rw [hpc]; rfl)) trivial fun _ => ?_
    simp [Sem.wakeTask, active] at h1 h2 ⊢
    omega

end

theorem SemStep.inv (h : SemStep s e s') (hi : SemInv s) : SemInv s' := by
  cases h with
  | wait ht | post ht | waitRet ht | casNone ht _ | loadNone ht _ | resume ht | postSome ht _ =>
    exact hi.own ht rfl rfl rfl trivial (.inl ⟨nofun, by simp [active]⟩)
  | loadSome ht hc | casSome ht hc | reloadSome ht hc | recasSome ht hc =>
    exact hi.own ht rfl rfl rfl hc (.inl ⟨nofun, by simp [active]⟩)
  | casTake ht hc | recasTake ht hc =>
    exact hi.own ht rfl rfl rfl trivial
      (.inl ⟨nofun, by rw [hc]; simp only [active, Bool.toNat_true, Bool.toNat_false]; omega⟩)
  | reloadNone ht hc | recasNone ht hc => exact hi.own ht rfl rfl rfl trivial (.inr (.inl hc))
  | register ht =>
    exact hi.own ht rfl rfl rfl trivial
      (.inl ⟨nofun, by simp only [active, Bool.toNat_true, Bool.toNat_false]; omega⟩)
  | spin ht hk | postSpin ht hk =>
    exact hi.own ht rfl (by rw [hk]; rfl) rfl trivial (.inl ⟨nofun, by simp [active]⟩)
  | leave ht =>
    have := hi.waiters_pos (by rw [ht]; rfl)
    exact hi.own ht (by simp [registered]; omega) rfl rfl trivial (.inl ⟨nofun, by simp [active]⟩)
  | unlockRet ht | postUnlock ht =>
    have hk := hi.critical.locked_at ht rfl
    exact hi.own ht rfl (by rw [hk]; rfl) rfl trivial (.inl ⟨nofun, by simp [active]⟩)
  | park ht => exact hi.park ht
  | unlockSleep ht =>
    have hk := hi.critical.locked_at ht rfl
    exact hi.own ht rfl (by rw [hk]; rfl) rfl trivial (.inl ⟨fun hn => hn, by simp [active]⟩)
  | postAdd ht =>
    have hle : fetchAdd s.count ≤ s.count + 1 := by
      unfold fetchAdd intMax
      split <;> omega
    exact hi.own ht rfl rfl rfl trivial (.inl ⟨nofun, by simpa [active] using hle⟩)
  | @postNone t ht h0 =>
    refine hi.own ht rfl rfl rfl trivial (.inr (.inr ?_))
    rw [tally_update_of_eq (by rw [ht]; rfl), tally_eq_zero]
    intro u
    rw [← Bool.not_eq_true]
    intro hn
    have := hi.waiters_pos (registered_of_needy hn)
    omega
  | postWake ht => exact hi.wakeOne ht
  | wake hu => exact hi.wakeTask hu

/-! ### Quiescence -/

theorem SemQuiet.unlocked (hq : SemQuiet s) (hi : SemInv s) : s.waitLock = false := by
  by_contra hk
  rw [Bool.not_eq_false] at hk
  obtain ⟨t, ht⟩ := (hk ▸ hi.critical).holder
  cases hpc : s.pc t with
  | retryLoad =>
    by_cases hl : 0 < s.count
    · exact hq.stuck (.reloadSome hpc hl) rfl
    · exact hq.stuck (.reloadNone hpc (not_lt.1 hl)) rfl
  | retryCas c =>
    by_cases hl : 0 < s.count
    · exact hq.stuck (.recasSome hpc hl) rfl
    · exact hq.stuck (.recasNone hpc (not_lt.1 hl)) rfl
  | leave => exact hq.stuck (.leave hpc) rfl
  | unlockRet => exact hq.stuck (.unlockRet hpc) rfl
  | prepare => exact hq.stuck (.park hpc) rfl
  | enqueued p => exact hq.stuck (.unlockSleep hpc) rfl
  | postWake => exact hq.stuck (.postWake hpc) rfl
  | postUnlock => exact hq.stuck (.postUnlock hpc) rfl
  | _ => rw [hpc] at ht; cases ht

theorem SemQuiet.pc_eq (hq : SemQuiet s) (hi : SemInv s) (t : T) : s.pc t = .idle ∨ s.pc t = .asleep true := by
  have hk := hq.unlocked hi
  have hout := (hk ▸ hi.critical).outside t
  cases hpc : s.pc t with
  | idle => exact .inl rfl
  | asleep p =>
    cases p with
    | true => exact .inr rfl
    | false => exact hq.stuck (.resume hpc) rfl
  | tryLoad =>
    by_cases hl : 0 < s.count
    · exact hq.stuck (.loadSome hpc hl) rfl
    · exact hq.stuck (.loadNone hpc (not_lt.1 hl)) rfl
  | tryCas c =>
    by_cases hl : 0 < s.count
    · exact hq.stuck (.casSome hpc hl) rfl
    · exact hq.stuck (.casNone hpc (not_lt.1 hl)) rfl
  | waitRet => exact hq.stuck (.waitRet hpc) rfl
  | register => exact hq.stuck (.register hpc) rfl
  | spin => exact hq.stuck (.spin hpc hk) rfl
  | postAdd => exact hq.stuck (.postAdd hpc) rfl
  | postLoad =>
    by_cases hw : s.waiters = 0
    · exact hq.stuck (.postNone hpc hw) rfl
    · exact hq.stuck (.postSome hpc hw) rfl
  | postSpin => exact hq.stuck (.postSpin hpc hk) rfl
  | _ => rw [hpc] at hout; cases hout

/-- No lost wakeup: in a quiescent state nobody sleeps while a unit is available. -/
theorem SemQuiet.waitList_eq_nil (hq : SemQuiet s) (hi : SemInv s) (hc : 0 < s.count) : s.waitList = [] := by
  have h0 : tally active s.pc = 0 := by
    rw [tally_eq_zero]
    intro t
    rcases hq.pc_eq hi t with h | h <;> rw [h] <;> rfl
  refine hi.listed.eq_nil fun t => ?_
  rw [← Bool.not_eq_true]
  intro hp
  have := hi.wakeup (tally_pos_of (needy_of_parked hp))
  omega

/-- What a step does to the count, and how the updates of calls relate to their returns. -/
structure Ledger (s : Sem T) (e : SemEvent T) (s' : Sem T) : Prop where
  count : s'.count + e.isTook.toNat = s.count + e.isAdded.toNat
  waits : tally SemPc.leaving s'.pc + e.isWaited.toNat = tally SemPc.leaving s.pc + e.isTook.toNat
  posts : tally SemPc.posting s'.pc + e.isPosted.toNat = tally SemPc.posting s.pc + e.isAdded.toNat

/-- The step does not add to a count that is already the largest `int`. -/
def NoWrap (s : Sem T) : SemEvent T → Prop
  | .added _ => s.count ≠ intMax
  | _ => True

open Sem

theorem Sem.wakeTask_ledger (s : Sem T) (u : T) : (s.wakeTask u).count = s.count ∧
    tally leaving (s.wakeTask u).pc = tally leaving s.pc ∧
    tally posting (s.wakeTask u).pc = tally posting s.pc := by
  refine ⟨rfl, ?_, ?_⟩
  · rw [wakeTask, tally_update_of_eq]
    cases s.pc u <;> rfl
  · rw [wakeTask, tally_update_of_eq]
    cases s.pc u <;> rfl

open SemEvent

theorem SemStep.ledger (h : SemStep s e s') (hn : NoWrap s e) : Ledger s e s' := by
  -- it suffices to compare the two positions of the task that takes the step
  have own : ∀ {t : T} {p q : SemPc} {r : Sem T}, s.pc t = p → r.pc = update s.pc t q →
      r.count + e.isTook.toNat = s.count + e.isAdded.toNat →
      q.leaving.toNat + e.isWaited.toNat = p.leaving.toNat + e.isTook.toNat →
      q.posting.toNat + e.isPosted.toNat = p.posting.toNat + e.isAdded.toNat → Ledger s e r := by
    intro t p q r ht hr hc hw hp
    have h1 := tally_update leaving s.pc t q
    have h2 := tally_update posting s.pc t q
    rw [ht] at h1 h2
    refine ⟨hc, ?_, ?_⟩ <;> rw [hr] <;> omega
  cases h with
  | casTake ht hc | recasTake ht hc =>
    exact own ht rfl (by simp only [go, hc, isTook, isAdded]; simp) rfl rfl
  | postAdd ht =>
    refine own ht rfl ?_ rfl rfl
    simp only [go, fetchAdd, if_neg hn]
    simp [isTook, isAdded]
  | @postWake t ht =>
    have hone : s.wakeOne.count = s.count ∧ tally leaving s.wakeOne.pc = tally leaving s.pc ∧
        tally posting s.wakeOne.pc = tally posting s.pc := by
      unfold wakeOne
      split
      · exact ⟨rfl, rfl, rfl⟩
      · exact s.wakeTask_ledger _
    have hpc : s.wakeOne.pc t = .postWake := by
      unfold wakeOne
      split
      · exact ht
      rename_i u _ _
      by_cases hu : t = u
      · subst hu
        simp [wakeTask, ht, woken]
      · simp [wakeTask, update_of_ne hu, ht]
    refine ⟨?_, ?_, ?_⟩
    · simp only [go, hone.1]
      rfl
    · rw [go, tally_update_of_eq (by rw [hpc]; rfl), hone.2.1]
      rfl
    · rw [go, tally_update_of_eq (by rw [hpc]; rfl), hone.2.2]
      rfl
  | wake _ =>
    obtain ⟨h1, h2, h3⟩ := s.wakeTask_ledger _
    refine ⟨?_, ?_, ?_⟩
    · rw [h1]; rfl
    · rw [h2]; rfl
    · rw [h3]; rfl
  | _ =>
    have ht := ‹s.pc _ = _›
    exact own ht rfl rfl rfl rfl

theorem SemStep.count_nonneg (h : SemStep s e s') (hn : NoWrap s e) (hi : SemInv s)
    (hc : 0 ≤ s.count) : 0 ≤ s'.count := by
  have hl := (h.ledger hn).count
  have htook : e.isTook = true → 0 < s.count := by
    intro he
    cases h with
    | @casTake t c ht heq | @recasTake t c ht heq =>
      have := hi.positive t
      rw [ht] at this
      rw [heq]
      exact this
    | _ => cases he
  cases ht : e.isTook with
  | true =>
    have := htook ht
    rw [ht] at hl
    simp at hl
    omega
  | false =>
    rw [ht] at hl
    simp at hl
    omega

/-- In every run without a post at the largest `int` the count is the initial one plus the units added minus the units
taken, is never negative, and no task sleeps in a quiescent state while a unit is available. -/
theorem sem_runs (T : Type) [Fintype T] [DecidableEq T] (init : Int) (tr : List (SemEvent T)) (s : Sem T)
    (h : Run (fun s e s' => SemStep s e s' ∧ NoWrap s e) (Sem.init T init) tr s) : (0 ≤ init → 0 ≤ s.count) ∧
    s.count = init + tr.countP SemEvent.isAdded - tr.countP SemEvent.isTook ∧
    tr.countP SemEvent.isAdded = tr.countP SemEvent.isPosted + tally SemPc.posting s.pc ∧
    tr.countP SemEvent.isTook = tr.countP SemEvent.isWaited + tally SemPc.leaving s.pc ∧
    (SemQuiet s → 0 < s.count → s.waitList = []) := by
  have hi : SemInv s := h.invariant_state SemInv (.init init) fun _ _ _ hi hs => hs.1.inv hi
  refine ⟨fun h0 => ?_, ?_⟩
  · have hall : SemInv s ∧ 0 ≤ s.count := by
      refine h.invariant_state (fun s => SemInv s ∧ 0 ≤ s.count) ⟨.init init, h0⟩ ?_
      rintro t e u ⟨hi, hc⟩ ⟨hs, hn⟩
      exact ⟨hs.inv hi, hs.count_nonneg hn hi hc⟩
    exact hall.2
  suffices hled : s.count = init + tr.countP isAdded - tr.countP isTook ∧
      tr.countP isAdded = tr.countP isPosted + tally posting s.pc ∧
      tr.countP isTook = tr.countP isWaited + tally leaving s.pc from
    ⟨hled.1, hled.2.1, hled.2.2, fun hq hc => hq.waitList_eq_nil hi hc⟩
  refine h.invariant (fun tr s => s.count = init + tr.countP isAdded - tr.countP isTook ∧
    tr.countP isAdded = tr.countP isPosted + tally posting s.pc ∧
    tr.countP isTook = tr.countP isWaited + tally leaving s.pc) ?_ ?_
  · simp [Sem.init, tally_const (p := posting) (a := .idle) rfl, tally_const (p := leaving) (a := .idle) rfl]
  · rintro tr t e u _ ⟨hc, hp, hw⟩ ⟨hs, hn⟩
    obtain ⟨h1, h2, h3⟩ := hs.ledger hn
    have hone : ∀ p : SemEvent T → Bool, (tr ++ [e]).countP p = tr.countP p + (p e).toNat := by
      intro p
      rw [countP_append, countP_singleton]
      cases p e <;> rfl
    simp only [hone]
    refine ⟨?_, ?_, ?_⟩
    · push_cast
      omega
    · omega
    · omega

theorem sem_runs_park :
    ∃ tr s, Run (fun s e s' => SemStep s e s' ∧ NoWrap s e) (Sem.init Bool 0) tr s ∧ s.waitList = [false] ∧
      0 ≤ s.count := by
  have h1 : Run (fun s e s' => SemStep s e s' ∧ NoWrap s e) (init Bool 0) _ _ :=
    ((Run.nil.snoc ⟨.wait (t := false) rfl, trivial⟩).snoc ⟨.loadNone (t := false) rfl (le_refl 0), trivial⟩).snoc
      ⟨.register (t := false) rfl, trivial⟩
  have h2 := ((h1.snoc ⟨.spin (t := false) rfl rfl, trivial⟩).snoc
    ⟨.reloadNone (t := false) rfl (le_refl 0), trivial⟩).snoc ⟨.park (t := false) rfl, trivial⟩
  exact ⟨_, _, h2, rfl, (sem_runs Bool 0 _ _ h2).1 (le_refl 0)⟩

/-- A post at the largest `int` makes the count negative. -/
theorem sem_post_wraps :
    ∃ tr s, Run SemStep (Sem.init Unit intMax) tr s ∧ s.count = -2 ^ 31 ∧ tr.countP SemEvent.isAdded = 1 ∧
      tr.countP SemEvent.isTook = 0 := by
  have h : Run SemStep (init Unit intMax) _ _ := (Run.nil.snoc (.post (t := ()) rfl)).snoc (.postAdd (t := ()) rfl)
  exact ⟨_, _, h, rfl, rfl, rfl⟩

end Mos.Lock
