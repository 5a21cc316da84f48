import Mos.Lock.Base

/-!
# Mutexes and events

`mutex_lock` and `mutex_unlock` of `src/lib/impl/lock.c` around the lock base: the holder's `psid` is stored after the
acquisition and checked and cleared before the release.  A mutex step is a step of the lock base or one access to
`holder`.  The word of the base counts the owners (`MutexInv.owners`), which gives mutual exclusion and shows that the
holder check of a task that holds the mutex succeeds.
-/

namespace Mos.Lock

open Lib Function Pc Base Event

/-- Where a task stands in `mutex_lock` and `mutex_unlock`; `locking` and `unlocking` are inside the lock base. -/
inductive MutexPc
  | out
  | locking
  | setHolder
  | held
  | clearHolder
  | unlocking
  | dead
  deriving DecidableEq

structure Mutex (T : Type) where
  base : Base T
  holder : Nat
  pc : T → MutexPc

/-- `mutex_init`. -/
def Mutex.init (T : Type) : Mutex T := ⟨Base.init T 0, 0, fun _ => .out⟩

/-- `locked` and `unlocked` are the returns of the two functions. -/
inductive MutexEvent (T : Type)
  | lock (t : T)
  | locked (t : T)
  | unlock (t : T)
  | unlocked (t : T)
  | die (t : T)
  | internal (t : T)
  | wake (t : T)

def MutexEvent.inside {T : Type} : MutexEvent T → Bool
  | .locked _ | .unlocked _ | .die _ | .internal _ => true
  | _ => false

variable {T : Type} [DecidableEq T] {m : MutexPc}

/-- The mutex is used in matched pairs: the task that locked it unlocks it. -/
inductive MutexStep (psid : T → Nat) : Mutex T → MutexEvent T → Mutex T → Prop
  | lock {s t b} : s.pc t = .out → Step s.base (.call t .acquire) b →
      MutexStep psid s (.lock t) ⟨b, s.holder, update s.pc t .locking⟩
  | acquired {s t b} : s.pc t = .locking → Step s.base (.acquired t) b →
      MutexStep psid s (.internal t) ⟨b, s.holder, update s.pc t .setHolder⟩
  | setHolder {s t} : s.pc t = .setHolder →
      MutexStep psid s (.locked t) ⟨s.base, psid t, update s.pc t .held⟩
  | unlock {s t} : s.pc t = .held → s.holder = psid t →
      MutexStep psid s (.unlock t) ⟨s.base, s.holder, update s.pc t .clearHolder⟩
  | die {s t} : s.pc t = .held → s.holder ≠ psid t →
      MutexStep psid s (.die t) ⟨s.base, s.holder, update s.pc t .dead⟩
  | clearHolder {s t b} : s.pc t = .clearHolder → Step s.base (.call t .release) b →
      MutexStep psid s (.internal t) ⟨b, 0, update s.pc t .unlocking⟩
  | released {s t b} : s.pc t = .unlocking → Step s.base (.released t) b →
      MutexStep psid s (.unlocked t) ⟨b, s.holder, update s.pc t .out⟩
  | internal {s t b} : Step s.base (.internal t) b → MutexStep psid s (.internal t) ⟨b, s.holder, s.pc⟩
  | wake {s t b} : Step s.base (.wake t) b → MutexStep psid s (.wake t) ⟨b, s.holder, s.pc⟩

/-- No task can take a step inside `mutex_lock` or `mutex_unlock`. -/
def MutexQuiet (psid : T → Nat) (s : Mutex T) : Prop := ∀ e s', MutexStep psid s e s' → e.inside = false

/-- Owns the word outside the lock base. -/
def MutexPc.owns : MutexPc → Bool
  | .setHolder | .held | .clearHolder => true
  | _ => false

/-- Inside `lock_base_acquire`. -/
def Pc.acquiring : Pc → Bool
  | .tryLoad i | .tryCas i | .register i | .spin i | .retry i | .leave i | .prepare i | .enqueued i _
  | .asleep i _ => !i
  | .unlockRet a => a
  | _ => false

/-- Inside `lock_base_release`. -/
def Pc.releasing : Pc → Bool
  | .relStore | .relLoad | .relSpin | .relWake | .relUnlock => true
  | _ => false

/-- The two program counters of a task belong together. -/
def Agree (p : Pc) : MutexPc → Prop
  | .locking => p.acquiring = true
  | .unlocking => p.releasing = true
  | _ => p = .idle

theorem Agree.woken {p : Pc} (h : Agree p m) : Agree p.woken m := by
  cases p <;> cases m <;> first | exact h | cases h

/-- The word a step takes from its task, and the word it gives to it. -/
def Event.given {T : Type} : Event T → Nat
  | .call _ .release => 1
  | _ => 0

def Event.taken {T : Type} : Event T → Nat
  | .acquired _ => 1
  | _ => 0

variable [Fintype T] {psid : T → Nat} {s : Mutex T} {e : Event T} {t : T} {n : Nat}

private theorem tally_owns_wakeTask (s : Base T) (u : T) : tally owns (s.wakeTask u).pc = tally owns s.pc := by
  rw [wakeTask, tally_update_of_eq]
  cases s.pc u <;> rfl

private theorem tally_owns_wakeOne (s : Base T) : tally owns s.wakeOne.pc = tally owns s.pc := by
  unfold wakeOne
  split
  · rfl
  · exact tally_owns_wakeTask s _

theorem Step.balance {s s' : Base T} (h : Step s e s') (hr : ∀ t, e ≠ .reset t)
    (hl : ∀ t, s.pc t = .relStore → s.lock = 1) :
    s'.lock + tally owns s.pc + e.given = s.lock + tally owns s'.pc + e.taken := by
  -- it suffices to compare the two positions of the task that takes the step
  have own : ∀ {t : T} {p q : Pc} {l g k : Nat}, s.pc t = p → l + p.owns.toNat + g = s.lock + q.owns.toNat + k →
      l + tally owns s.pc + g = s.lock + tally owns (update s.pc t q) + k := by
    intro t p q l g k ht heq
    have h1 := tally_update owns s.pc t q
    rw [ht] at h1
    omega
  have ownWake : ∀ {t : T} {p q : Pc}, s.pc t = p → p.owns = false → p.woken = p → q.owns = false →
      s.wakeOne.lock + tally owns s.pc + 0 = s.lock + tally owns (update s.wakeOne.pc t q) + 0 := by
    intro t p q ht hp hpw hq
    have h1 := tally_update owns s.wakeOne.pc t q
    have h2 := tally_owns_wakeOne s
    have h3 : s.wakeOne.pc t = p := by
      rcases s.wakeOne_pc t with h | h
      · rw [h, ht]
      · rw [h, ht, hpw]
    have h4 : s.wakeOne.lock = s.lock := by unfold wakeOne; split <;> rfl
    rw [h3, hp, hq] at h1
    omega
  cases h with
  | call c ht => cases c <;> exact own ht rfl
  | casFree ht h0 | retryFree ht h0 => exact own ht (by rw [h0]; rfl)
  | relStore ht => exact own ht (by rw [hl _ ht]; rfl)
  | passWake ht | relWake ht => exact ownWake ht rfl rfl rfl
  | reset _ => exact absurd rfl (hr _)
  | wake _ =>
    rw [tally_owns_wakeTask]
    rfl
  | _ =>
    have ht := ‹s.pc _ = _›
    exact own ht rfl

/-! ### Mutual exclusion -/

structure MutexInv (psid : T → Nat) (s : Mutex T) : Prop where
  base : Inv s.base
  agree : ∀ t, Agree (s.base.pc t) (s.pc t)
  owners : s.base.lock = tally Pc.owns s.base.pc + tally MutexPc.owns s.pc
  owners_le : s.base.lock ≤ 1
  holder : ∀ t, s.pc t = .held ∨ s.pc t = .clearHolder → s.holder = psid t
  alive : ∀ t, s.pc t ≠ .dead

omit [DecidableEq T] in
theorem MutexInv.init (psid : T → Nat) : MutexInv psid (Mutex.init T) where
  base := Inv.init 0
  agree := fun _ => rfl
  owners := by
    rw [Mutex.init, Base.init, tally_const rfl, tally_const rfl]
  owners_le := Nat.zero_le 1
  holder := by rintro t (h | h) <;> cases h
  alive := nofun

omit [Fintype T] in
theorem Step.lock_le {s s' : Base T} (h : Step s e s') (hl : s.lock ≤ 1) : s'.lock ≤ 1 := by
  cases h with
  | casFree | retryFree | reset => exact le_refl 1
  | relStore => exact Nat.zero_le 1
  | passWake | relWake =>
    rw [go]
    unfold wakeOne
    split <;> exact hl
  | _ => exact hl

omit [Fintype T] in
/-- Inside the lock base a task stays in the function it called. -/
theorem Step.agree {s s' : Base T} (h : Step s (.internal t) s') (ha : Agree (s.pc t) m) : Agree (s'.pc t) m := by
  cases h with
  | leave ht =>
    rw [ht] at ha
    simp only [go, update_self]
    cases m <;> first | rfl | cases ha
  | refused ht | refuse ht | signalled ht | passSpin ht _ | passLeave ht | passFree ht _ | passTaken ht _
  | passWake ht =>
    rw [ht] at ha
    cases m <;> cases ha
  | _ =>
    rw [‹s.pc t = _›] at ha
    simp only [go, update_self]
    cases m <;> first | exact ha | cases ha

section

variable (hi : MutexInv psid s)

include hi

/-- A step of the lock base, together with the move of its task in the mutex code. -/
theorem MutexInv.step {b : Base T} (h : Step s.base e b) (hr : ∀ t, e ≠ .reset t) (ha : Agree (b.pc e.task) m)
    (ho : (s.pc e.task).owns.toNat + e.taken = m.owns.toNat + e.given) (hm : m ≠ .dead)
    (hh : ∀ t, update s.pc e.task m t = .held ∨ update s.pc e.task m t = .clearHolder → n = psid t) :
    MutexInv psid ⟨b, n, update s.pc e.task m⟩ where
  base := h.inv hi.base
  agree := by
    refine (forall_update_iff s.pc fun u p => Agree (b.pc u) p).mpr ⟨ha, fun u hu => ?_⟩
    rcases h.frame hu with hpc | hpc <;> rw [hpc]
    · exact hi.agree u
    · exact (hi.agree u).woken
  owners := by
    have hl : ∀ t, s.base.pc t = .relStore → s.base.lock = 1 := by
      intro t ht
      have h1 := tally_pos_of (p := owns) (f := s.base.pc) (by rw [ht]; rfl)
      have h2 := hi.owners
      have h3 := hi.owners_le
      omega
    have h1 := h.balance hr hl
    have h2 := tally_update MutexPc.owns s.pc e.task m
    have h3 := hi.owners
    simp only
    omega
  owners_le := h.lock_le hi.owners_le
  holder := hh
  alive := (forall_update_iff s.pc fun _ p => p ≠ .dead).mpr ⟨hm, fun u _ => hi.alive u⟩

omit [DecidableEq T] in
theorem MutexInv.unique {t u : T} (ht : (s.pc t).owns = true) (hu : (s.pc u).owns = true) : t = u := by
  have h1 := hi.owners
  have h2 := hi.owners_le
  exact eq_of_tally_le_one (by omega) ht hu

/-- A step that leaves the lock base alone moves its task between positions of the same ownership. -/
theorem MutexInv.outside (hp : Agree (s.base.pc t) m) (ho : m.owns = (s.pc t).owns) (hm : m ≠ .dead)
    (hh : ∀ u, update s.pc t m u = .held ∨ update s.pc t m u = .clearHolder → n = psid u) :
    MutexInv psid ⟨s.base, n, update s.pc t m⟩ where
  base := hi.base
  agree := (forall_update_iff s.pc fun u p => Agree (s.base.pc u) p).mpr ⟨hp, fun u _ => hi.agree u⟩
  owners := by
    have h1 := tally_update MutexPc.owns s.pc t m
    have h2 := hi.owners
    rw [ho] at h1
    simp only
    omega
  owners_le := hi.owners_le
  holder := hh
  alive := (forall_update_iff s.pc fun _ p => p ≠ .dead).mpr ⟨hm, fun u _ => hi.alive u⟩

end

omit [Fintype T] in
/-- Moving a task to a position that is not `held` or `clearHolder` keeps what is known about the holder. -/
theorem holder_update
    (hh : ∀ u, s.pc u = .held ∨ s.pc u = .clearHolder → s.holder = psid u) (hm : m ≠ .held ∧ m ≠ .clearHolder) (u : T)
    (hu : update s.pc t m u = .held ∨ update s.pc t m u = .clearHolder) : s.holder = psid u := by
  by_cases hut : u = t
  · rw [hut, update_self] at hu
    rcases hu with h | h
    · exact absurd h hm.1
    · exact absurd h hm.2
  · rw [update_of_ne hut] at hu
    exact hh u hu

theorem MutexStep.inv {s s' : Mutex T} {e : MutexEvent T} (h : MutexStep psid s e s')
    (hi : MutexInv psid s) : MutexInv psid s' := by
  cases h with
  | @lock t b ht hb =>
    refine hi.step hb (by rintro u ⟨⟩) ?_ ?_ (by simp) (holder_update hi.holder ⟨by simp, by simp⟩)
    · cases hb
      simp only [task, go, update_self]
      rfl
    · simp only [task, ht]
      rfl
  | @acquired t b ht hb | @released t b ht hb =>
    refine hi.step hb (by rintro u ⟨⟩) ?_ ?_ (by simp) (holder_update hi.holder ⟨by simp, by simp⟩)
    · cases hb <;> exact update_self _ _ _
    · simp only [task, ht]
      rfl
  | @clearHolder t b ht hb =>
    refine hi.step hb (by rintro u ⟨⟩) ?_ ?_ (by simp) ?_
    · cases hb
      simp only [task, go, update_self]
      rfl
    · simp only [task, ht]
      rfl
    · -- the task that clears `holder` was the only owner
      intro u hu
      have hut : u ≠ t := by
        rintro rfl
        simp [task] at hu
      simp only [task, update_of_ne hut] at hu
      refine absurd (hi.unique ?_ ?_) hut
      · rcases hu with h | h <;> rw [h] <;> rfl
      · rw [ht]; rfl
  | @internal t b hb =>
    have h := hi.step (n := s.holder) hb (by rintro u ⟨⟩) (hb.agree (hi.agree t)) rfl (hi.alive t)
    simp only [task, update_eq_self] at h
    exact h hi.holder
  | @wake t b hb =>
    have ha : Agree (b.pc t) (s.pc t) := by
      cases hb
      rcases s.base.wakeTask_pc t t with h | h <;> rw [h]
      · exact hi.agree t
      · exact (hi.agree t).woken
    have h := hi.step (n := s.holder) hb (by rintro u ⟨⟩) ha rfl (hi.alive t)
    simp only [task, update_eq_self] at h
    exact h hi.holder
  | @setHolder t ht =>
    have ha := hi.agree t
    rw [ht] at ha
    refine hi.outside ha (by rw [ht]; rfl) (by simp) fun u hu => ?_
    by_cases hut : u = t
    · rw [hut]
    · rw [update_of_ne hut] at hu
      refine absurd (hi.unique ?_ ?_) hut
      · rcases hu with h | h <;> rw [h] <;> rfl
      · rw [ht]; rfl
  | @unlock t ht hh =>
    have ha := hi.agree t
    rw [ht] at ha
    refine hi.outside ha (by rw [ht]; rfl) (by simp) fun u hu => ?_
    by_cases hut : u = t
    · rw [hut, hh]
    · rw [update_of_ne hut] at hu
      exact hi.holder u hu
  | die ht hne => exact absurd (hi.holder _ (.inl ht)) hne

theorem MutexQuiet.base (hq : MutexQuiet psid s) (hi : MutexInv psid s) : Quiet s.base := by
  have stuck : ∀ {e s'}, MutexStep psid s e s' → e.inside = true → False := by
    intro e s' hs he
    rw [hq e s' hs] at he
    cases he
  intro e b hb
  cases e with
  | call | reset | wake => rfl
  | internal t => exact (stuck (.internal hb) rfl).elim
  | acquired t =>
    have ha := hi.agree t
    have hm : s.pc t = .locking := by
      cases hb with
      | casFree ht _ | retAcquired ht =>
        rw [ht] at ha
        cases hm : s.pc t <;> rw [hm] at ha <;> first | rfl | cases ha
    exact (stuck (.acquired hm hb) rfl).elim
  | released t =>
    have ha := hi.agree t
    have hm : s.pc t = .unlocking := by
      cases hb with
      | relNone ht _ | relUnlock ht =>
        rw [ht] at ha
        cases hm : s.pc t <;> rw [hm] at ha <;> first | rfl | cases ha
    exact (stuck (.released hm hb) rfl).elim
  | interrupted t =>
    have ha := hi.agree t
    cases hb with
    | retInterrupted ht =>
      rw [ht] at ha
      cases hm : s.pc t <;> rw [hm] at ha <;> cases ha

/-- Mutexes exclude, `waiters` counts the tasks of the slow path, and no wakeup of a mutex or of an event is lost. -/
theorem lock_base_runs (T : Type) [Fintype T] [DecidableEq T] :
    (∀ (psid : T → Nat) (tr : List (MutexEvent T)) (s : Mutex T), Run (MutexStep psid) (.init T) tr s →
      (∀ t u, s.pc t = .held → s.pc u = .held → t = u) ∧ s.base.waiters = tally Pc.registered s.base.pc ∧
      (MutexQuiet psid s → s.base.lock = 0 → s.base.waitList = [])) ∧
    (∀ (initstat : Nat) (tr : List (Event T)) (s : Base T), Run Step (.init T initstat) tr s →
      s.waiters = tally Pc.registered s.pc ∧ (Quiet s → s.lock = 0 → s.waitList = [])) := by
  constructor
  · intro psid tr s h
    have hi := h.invariant_state (MutexInv psid) (.init psid) fun _ _ _ hi hs => hs.inv hi
    refine ⟨fun t u ht hu => hi.unique (by rw [ht]; rfl) (by rw [hu]; rfl), hi.base.waiters, ?_⟩
    intro hq hl
    exact (hq.base hi).waitList_eq_nil hi.base hl
  · intro initstat tr s h
    have hi := run_inv h
    exact ⟨hi.waiters, fun hq hl => hq.waitList_eq_nil hi hl⟩

theorem lock_base_runs_contended :
    ∃ tr s, Run (MutexStep fun t : Bool => cond t 2 1) (.init Bool) tr s ∧ s.pc false = .held ∧
      s.base.waitList = [true] ∧ s.base.waiters = tally Pc.registered s.base.pc ∧
      ∀ t u, s.pc t = .held → s.pc u = .held → t = u := by
  have h1 : Run (MutexStep fun t : Bool => cond t 2 1) (.init Bool) _ _ :=
    (((Run.nil.snoc (.lock (t := false) rfl (.call .acquire rfl))).snoc
      (.internal (.loadFree (t := false) rfl rfl))).snoc (.acquired (t := false) rfl (.casFree rfl rfl))).snoc
        (.setHolder (t := false) rfl)
  have h2 := ((h1.snoc (.lock (t := true) rfl (.call .acquire rfl))).snoc
    (.internal (.loadTaken (t := true) rfl (by decide)))).snoc (.internal (.register (t := true) rfl))
  have h3 := ((h2.snoc (.internal (.spin (t := true) rfl rfl))).snoc
    (.internal (.retryTaken (t := true) rfl (by decide)))).snoc (.internal (.park (t := true) rfl))
  obtain ⟨hx, hw, -⟩ := (lock_base_runs Bool).1 _ _ _ h3
  exact ⟨_, _, h3, rfl, rfl, hw, hx⟩

end Mos.Lock
