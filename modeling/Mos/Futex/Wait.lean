import Mos.Lib.Extract
import Mos.Lib.Run
import Mos.Lib.Tally
import Mathlib.Data.BitVec

/-!
# Futexes

`futex_execute` of `src/ps/impl/ps_futex.c`, by any number of tasks.  One global list holds the waiters of all keys; a
waiter lives on the stack of its task, so the list is a list of tasks.  The word is read twice: without a lock at the
start of the call, and under `ps_lock` before the task is queued.  A queued task may be made ready by anything (a
timer, a signal, an unrelated wakeup); it then takes itself off the list and decides whether to wait again.

A step is one read of the word, one critical section of `ps_lock`, or one of the checks between them; the clock and
the pending signals are found as the environment has them.
-/

namespace Mos.Futex

open Lib Function List Listed

/-- `futex_key`, without the reference to its backing file; two keys are equal when these four are. -/
structure FutexKey where
  kind : Nat
  identity : Nat
  object : Nat
  offset : Nat
  deriving DecidableEq

def efault : Int := -14

def einval : Int := -22

def enosys : Int := -38

def eagain : Int := -11

def eintr : Int := -4

def etimedout : Int := -110

def futexWait : BitVec 32 := 0

def futexWake : BitVec 32 := 1

def futexWaitBitset : BitVec 32 := 9

def futexWakeBitset : BitVec 32 := 10

def futexPrivateFlag : BitVec 32 := 128

def futexClockRealtime : BitVec 32 := 256

/-- A call of `futex_execute`; `word` is the place in memory that `uaddr` denotes for the caller. -/
structure Call (L : Type) where
  uaddr : Nat
  op : BitVec 32
  val : Int
  timeout : Bool
  val3 : BitVec 32
  key : FutexKey
  word : L

section

variable {L : Type}

def Call.cmd (c : Call L) : BitVec 32 := c.op &&& ~~~(futexPrivateFlag ||| futexClockRealtime)

def Call.bitset (c : Call L) : BitVec 32 :=
  if c.cmd = futexWaitBitset ∨ c.cmd = futexWakeBitset then c.val3 else BitVec.allOnes 32

inductive Kind
  | wait
  | wake
  deriving DecidableEq

/-- The checks before the word is looked at. -/
def Call.decode (c : Call L) : Except Int Kind :=
  if c.uaddr = 0 then .error efault
  else if c.uaddr % 4 ≠ 0 then .error einval
  else if c.op &&& futexClockRealtime ≠ 0 ∧ c.cmd ≠ futexWaitBitset then .error enosys
  else if c.bitset = 0 then .error einval
  else if c.cmd = futexWait ∨ c.cmd = futexWaitBitset then .ok .wait
  else if c.cmd = futexWake ∨ c.cmd = futexWakeBitset then if c.val < 0 then .error einval else .ok .wake
  else .error enosys

inductive Pc (L : Type)
  | idle
  | entry (c : Call L)
  | clock (c : Call L)
  | again (c : Call L)
  | enter (c : Call L)
  | queued (c : Call L) (asleep : Bool)
  | woken (c : Call L)
  | unwoken (c : Call L)

def Pc.isQueued : Pc L → Bool
  | .queued _ _ => true
  | _ => false

/-- `futex_wake_mask_unsafe` on one waiter. -/
def Pc.wake : Pc L → Pc L
  | .queued c _ => .woken c
  | p => p

/-- Whether the waiter of a task is one the scan looks for. -/
def Pc.matches (key : FutexKey) (bitset : BitVec 32) : Pc L → Bool
  | .queued c _ => c.key = key ∧ c.bitset &&& bitset ≠ 0
  | _ => false

end

structure State (T L : Type) where
  mem : L → Int
  queue : List T
  pc : T → Pc L

def State.init {L : Type} (T : Type) (mem : L → Int) : State T L := ⟨mem, [], fun _ => .idle⟩

inductive Cause
  | refused
  | changed
  | signal
  | timeout
  | woken
  deriving DecidableEq

inductive Event (T L : Type)
  | call (t : T) (c : Call L)
  | internal (t : T)
  | queue (t : T)
  | ready (t : T)
  | store (l : L) (v : Int)
  | wake (t : T) (key : FutexKey) (count : Nat) (bitset : BitVec 32) (woken : List T) (ret : Int)
  | ret (t : T) (cause : Cause) (r : Int)

variable {n : Nat} {b : BitVec 32} {r v : Int}

section

variable {T L : Type} [DecidableEq T]

def State.go (s : State T L) (t : T) (p : Pc L) : State T L := { s with pc := update s.pc t p }

/-- The scan of `futex_wake_mask_unsafe`: the tasks woken, and the state after it. -/
def State.wakeMask (s : State T L) (key : FutexKey) (maxWake : Nat) (bitset : BitVec 32) : List T × State T L :=
  let r := extract (fun t => (s.pc t).matches key bitset) maxWake s.queue
  (r.1, { s with queue := r.2, pc := fun t => if t ∈ r.1 then (s.pc t).wake else s.pc t })

inductive Step [DecidableEq L] : State T L → Event T L → State T L → Prop
  | call {s t} (c) : s.pc t = .idle → Step s (.call t c) (s.go t (.entry c))
  | refused {s t c r} : s.pc t = .entry c → c.decode = .error r → Step s (.ret t .refused r) (s.go t .idle)
  -- FUTEX_WAIT: the first look at the word, and the timeout
  | readFault {s t c} : s.pc t = .entry c → c.decode = .ok .wait → Step s (.ret t .refused efault) (s.go t .idle)
  | readChanged {s t c} : s.pc t = .entry c → c.decode = .ok .wait → s.mem c.word ≠ c.val →
      Step s (.ret t .changed eagain) (s.go t .idle)
  | read {s t c} : s.pc t = .entry c → c.decode = .ok .wait → s.mem c.word = c.val →
      Step s (.internal t) (s.go t (.clock c))
  | clockFault {s t c} : s.pc t = .clock c → c.timeout = true → Step s (.ret t .refused efault) (s.go t .idle)
  | clockInvalid {s t c} : s.pc t = .clock c → c.timeout = true → Step s (.ret t .refused einval) (s.go t .idle)
  | clockPast {s t c} : s.pc t = .clock c → c.timeout = true → Step s (.ret t .timeout etimedout) (s.go t .idle)
  | clock {s t c} : s.pc t = .clock c → Step s (.internal t) (s.go t (.again c))
  -- `wait_again`
  | againPast {s t c} : s.pc t = .again c → c.timeout = true → Step s (.ret t .timeout etimedout) (s.go t .idle)
  | again {s t c} : s.pc t = .again c → Step s (.internal t) (s.go t (.enter c))
  -- under `ps_lock`
  | enterChanged {s t c} : s.pc t = .enter c → s.mem c.word ≠ c.val → Step s (.ret t .changed eagain) (s.go t .idle)
  | enterSignal {s t c} : s.pc t = .enter c → s.mem c.word = c.val → Step s (.ret t .signal eintr) (s.go t .idle)
  | enqueue {s t c} : s.pc t = .enter c → s.mem c.word = c.val →
      Step s (.queue t) ({ s with queue := s.queue ++ [t] }.go t (.queued c true))
  -- made ready without a wake; the task then leaves the list itself
  | ready {s t c} : s.pc t = .queued c true → Step s (.ready t) (s.go t (.queued c false))
  | dequeue {s t c} : s.pc t = .queued c false →
      Step s (.internal t) ({ s with queue := s.queue.erase t }.go t (.unwoken c))
  | woken {s t c} : s.pc t = .woken c → Step s (.ret t .woken 0) (s.go t .idle)
  | unwokenSignal {s t c} : s.pc t = .unwoken c → Step s (.ret t .signal eintr) (s.go t .idle)
  | unwokenAgain {s t c} : s.pc t = .unwoken c → Step s (.internal t) (s.go t (.again c))
  | unwokenPast {s t c} : s.pc t = .unwoken c → c.timeout = true → Step s (.ret t .timeout etimedout) (s.go t .idle)
  -- FUTEX_WAKE
  | wake {s t c} : s.pc t = .entry c → c.decode = .ok .wake →
      Step s (.wake t c.key c.val.toNat c.bitset (s.wakeMask c.key c.val.toNat c.bitset).1
          (s.wakeMask c.key c.val.toNat c.bitset).1.length)
        ((s.wakeMask c.key c.val.toNat c.bitset).2.go t .idle)
  -- any program writes the word
  | store {s} (l v) : Step s (.store l v) { s with mem := update s.mem l v }

/-! ### The list of waiters -/

variable [DecidableEq L] {s s' : State T L} {e : Event T L} {tr : List (Event T L)} {key : FutexKey} {c : Call L}
  {l : L} {t : T}

/-- The list holds exactly the tasks that stand queued, each once. -/
def Inv (s : State T L) : Prop := Listed Pc.isQueued s.queue s.pc

omit [DecidableEq L] in
theorem wakeMask_mem (h : t ∈ (s.wakeMask key n b).1) :
    ∃ c a, s.pc t = .queued c a ∧ (s.wakeMask key n b).2.pc t = .woken c := by
  obtain ⟨-, hmatch⟩ := mem_extract_fst h
  have hpc : (s.wakeMask key n b).2.pc t = (s.pc t).wake := if_pos h
  cases hp : s.pc t with
  | queued c a => exact ⟨c, a, rfl, by rw [hpc, hp]; rfl⟩
  | _ => rw [hp] at hmatch; cases hmatch

omit [DecidableEq L] in
/-- Where the tasks are after a wake by `t`: itself out of its call, those of the list at their return, the others
where they were. -/
theorem wake_pc (ht : s.pc t = .entry c) (key : FutexKey) (n : Nat) (b : BitVec 32) (u : T) :
    let w := s.wakeMask key n b
    u = t ∧ u ∉ w.1 ∧ (w.2.go t .idle).pc u = .idle ∨
    u ≠ t ∧ u ∈ w.1 ∧ (∃ c a, s.pc u = .queued c a ∧ (w.2.go t .idle).pc u = .woken c) ∨
    u ≠ t ∧ u ∉ w.1 ∧ (w.2.go t .idle).pc u = s.pc u := by
  intro w
  have hno : t ∉ w.1 := by
    intro hm
    obtain ⟨c', a, hpc, -⟩ := wakeMask_mem hm
    rw [ht] at hpc
    cases hpc
  by_cases hut : u = t
  · subst hut
    exact .inl ⟨rfl, hno, update_self ..⟩
  have hgo : (w.2.go t .idle).pc u = w.2.pc u := update_of_ne hut ..
  rw [hgo]
  by_cases hm : u ∈ w.1
  · exact .inr (.inl ⟨hut, hm, wakeMask_mem hm⟩)
  · exact .inr (.inr ⟨hut, hm, if_neg hm⟩)

open Pc

theorem Step.inv (h : Step s e s') (hi : Inv s) : Inv s' := by
  cases h with
  | enqueue ht _ => exact push hi (by rw [ht]; rfl) rfl
  | dequeue ht => exact erase hi rfl
  | @wake t c ht _ =>
    refine ⟨fun u => (mem_extract_snd hi.nodup).trans ?_, hi.nodup.sublist extract_snd_sublist⟩
    rcases wake_pc ht c.key c.val.toNat c.bitset u with ⟨rfl, -, hp⟩ | ⟨-, hm, c', a, -, hp⟩ | ⟨-, hm, hp⟩ <;> rw [hp]
    · simp [isQueued, hi.mem_iff, ht]
    · exact iff_of_false (fun h => h.2 hm) nofun
    · exact (and_iff_left hm).trans (hi.mem_iff u)
  | store l v => exact hi
  | _ => exact keep hi (by rw [‹s.pc _ = _›]; rfl)

/-- Whether `t` was woken since its last call. -/
def wokenIn (t : T) : List (Event T L) → Bool :=
  List.foldl (fun acc e => match e with
    | .call u _ => if u = t then false else acc
    | .wake _ _ _ _ w _ => acc || decide (t ∈ w)
    | _ => acc) false

def Pc.isWoken : Pc L → Bool
  | .woken _ => true
  | _ => false

/-- A task inside a call stands at the return of 0 exactly if it was woken. -/
def WokenOk (tr : List (Event T L)) (s : State T L) : Prop :=
  ∀ u, s.pc u ≠ .idle → wokenIn u tr = (s.pc u).isWoken

open State

theorem Step.wokenOk (h : Step s e s') (hok : WokenOk tr s) : WokenOk (tr ++ [e]) s' := by
  intro u hu
  have hsnoc : ∀ e : Event T L, wokenIn u (tr ++ [e]) = match e with
      | .call v _ => if v = u then false else wokenIn u tr
      | .wake _ _ _ _ w _ => wokenIn u tr || decide (u ∈ w)
      | _ => wokenIn u tr := by
    intro e
    simp [wokenIn]
  -- a step of one task that neither starts nor ends a call of its own
  have own : ∀ {t : T} {p : Pc L}, s'.pc = update s.pc t p → wokenIn u (tr ++ [e]) = wokenIn u tr →
      (p = .idle ∨ s.pc t ≠ .idle ∧ p.isWoken = (s.pc t).isWoken) → wokenIn u (tr ++ [e]) = (s'.pc u).isWoken := by
    intro t p hpc htr hp
    rw [htr]
    rw [hpc] at hu ⊢
    by_cases hut : u = t
    · subst hut
      rw [update_self] at hu ⊢
      rcases hp with hp | ⟨hp, heq⟩
      · exact absurd hp hu
      · rw [heq]
        exact hok u hp
    · rw [update_of_ne hut] at hu ⊢
      exact hok u hu
  cases h with
  | @call t c ht =>
    rw [hsnoc]
    by_cases hut : u = t
    · subst hut
      simp [go, isWoken]
    · simp only [go, update_of_ne hut] at hu ⊢
      rw [if_neg (Ne.symm hut)]
      exact hok u hu
  | read ht _ _ | clock ht | again ht | enqueue ht _ | ready ht | dequeue ht | unwokenAgain ht =>
    exact own rfl (hsnoc _) (.inr ⟨by rw [ht]; rintro ⟨⟩, by rw [ht]; rfl⟩)
  | @wake t c ht hd =>
    rw [hsnoc]
    rcases wake_pc ht c.key c.val.toNat c.bitset u with ⟨-, -, hp⟩ | ⟨-, hm, c', a, -, hp⟩ | ⟨-, hm, hp⟩
    · exact absurd hp hu
    · rw [hp]
      simp [hm, isWoken]
    · rw [hp] at hu ⊢
      simp [hm, hok u hu]
  | store l v =>
    rw [hsnoc]
    exact hok u hu
  | _ => exact own rfl (hsnoc _) (.inl rfl)

section

omit [DecidableEq T] [DecidableEq L]

private theorem decode_ne_zero (h : c.decode = .error r) : r ≠ 0 := by
  unfold Call.decode at h
  split_ifs at h <;> (cases h; decide)

private theorem decode_bitset {k : Kind} (h : c.decode = .ok k) : c.bitset ≠ 0 := by
  intro hb
  unfold Call.decode at h
  split_ifs at h

end

theorem Step.ret_spec {cause : Cause} (h : Step s (.ret t cause r) s') :
    s.pc t ≠ .idle ∧ (r = 0 ↔ (s.pc t).isWoken = true) ∧ (cause = .signal → r = eintr) ∧
      (cause = .timeout → r = etimedout) := by
  cases h with
  | refused ht hd =>
    rw [ht]
    exact ⟨nofun, by simp [decode_ne_zero hd, isWoken], nofun, nofun⟩
  | _ =>
    rw [‹s.pc t = _›]
    exact ⟨nofun, by simp [isWoken, efault, eagain, einval, etimedout, eintr], by decide, by decide⟩

/-! ### The order of the list -/

/-- The tasks that were ever queued, by the last time they were. -/
def order : List (Event T L) → List T :=
  List.foldl (fun l e => match e with
    | .queue t => l.filter (· ≠ t) ++ [t]
    | _ => l) []

def Ordered (tr : List (Event T L)) (s : State T L) : Prop :=
  s.queue = (order tr).filter fun t => (s.pc t).isQueued

omit [DecidableEq L] in
/-- A step that leaves the list alone and does not queue or dequeue its task. -/
theorem Ordered.keep {tr tr' : List (Event T L)} (ho : Ordered tr s) (htr : order tr' = order tr)
    (hq : s'.queue = s.queue) (hpc : ∀ t, (s'.pc t).isQueued = (s.pc t).isQueued) : Ordered tr' s' := by
  unfold Ordered
  rw [htr, hq, ho]
  exact filter_congr fun t _ => (hpc t).symm

theorem Step.ordered (h : Step s e s') (hi : Inv s) (ho : Ordered tr s) : Ordered (tr ++ [e]) s' := by
  have hsnoc : ∀ e : Event T L, order (tr ++ [e]) = match e with
      | .queue t => (order tr).filter (· ≠ t) ++ [t]
      | _ => order tr := by
    intro e
    simp [order]
  have own : ∀ {t : T} {p : Pc L}, s'.pc = update s.pc t p → p.isQueued = (s.pc t).isQueued →
      ∀ u, (s'.pc u).isQueued = (s.pc u).isQueued := by
    intro t p hpc hp u
    rw [hpc]
    by_cases hut : u = t
    · rw [hut, update_self, hp]
    · rw [update_of_ne hut]
  cases h with
  | @enqueue t c ht _ =>
    unfold Ordered
    rw [hsnoc]
    have hlast : [t].filter (fun u => (update s.pc t (.queued c true) u).isQueued) = [t] := by
      simp [isQueued]
    simp only [go, filter_append, hlast, filter_filter]
    rw [ho]
    refine congrArg (· ++ [t]) (filter_congr fun u _ => ?_)
    by_cases hut : u = t
    · simp [hut, ht, isQueued]
    · simp [hut]
  | @dequeue t c ht =>
    unfold Ordered
    rw [hsnoc]
    simp only [go]
    rw [hi.nodup.erase_eq_filter, ho, filter_filter]
    refine filter_congr fun u _ => ?_
    by_cases hut : u = t
    · simp [hut, isQueued]
    · simp [hut]
  | @wake t c ht _ =>
    unfold Ordered
    rw [hsnoc]
    have hq : ((s.wakeMask c.key c.val.toNat c.bitset).2.go t .idle).queue =
        s.queue.filter fun u => decide (u ∉ (s.wakeMask c.key c.val.toNat c.bitset).1) := extract_snd hi.nodup
    rw [hq]
    conv_lhs => rw [ho]
    rw [filter_filter]
    refine filter_congr fun u _ => ?_
    rcases wake_pc ht c.key c.val.toNat c.bitset u with ⟨rfl, -, hp⟩ | ⟨-, hm, c', a, -, hp⟩ | ⟨-, hm, hp⟩
    · rw [hp, ht]
      simp [isQueued]
    · rw [hp]
      simp [hm, isQueued]
    · rw [hp]
      simp [hm]
  | store l v => exact ho.keep (hsnoc _) rfl fun _ => rfl
  | _ => exact ho.keep (hsnoc _) rfl (own rfl (by rw [‹s.pc _ = _›]; rfl))

theorem Step.mem_ne (h : Step s e s') (he : e ≠ .store l v) (hm : s.mem l ≠ v) : s'.mem l ≠ v := by
  cases h with
  | store l' v' =>
    simp only
    by_cases hl : l = l'
    · subst hl
      rw [update_self]
      exact fun hv => he (congrArg _ hv)
    · rwa [update_of_ne hl]
  | _ => exact hm

/-- Nobody is queued on `key`, for a bit of `b`, who waits for the word `l` to stop being `v`. -/
def NoWaiter (key : FutexKey) (b : BitVec 32) (l : L) (v : Int) (s : State T L) : Prop :=
  ∀ u c a, s.pc u = .queued c a → c.key = key → c.bitset &&& b ≠ 0 → c.word = l → c.val ≠ v

omit [DecidableEq T] [DecidableEq L] in
/-- The waiters after a step were queued before it, or have just found the word as they expect it. -/
theorem NoWaiter.mono (hn : NoWaiter key b l v s) (hm : s.mem l ≠ v)
    (h : ∀ u c a, s'.pc u = .queued c a → (∃ a', s.pc u = .queued c a') ∨ s.mem c.word = c.val) :
    NoWaiter key b l v s' := by
  intro u c a hu hk hb hl hv
  rcases h u c a hu with ⟨a', hu'⟩ | hmem
  · exact hn u c a' hu' hk hb hl hv
  · rw [hl, hv] at hmem
    exact hm hmem

theorem Step.noWaiter (h : Step s e s') (hm : s.mem l ≠ v) (hn : NoWaiter key b l v s) : NoWaiter key b l v s' := by
  refine hn.mono hm ?_
  have own : ∀ {t : T} {p : Pc L}, s'.pc = update s.pc t p →
      (∀ c a, p = .queued c a → (∃ a', s.pc t = .queued c a') ∨ s.mem c.word = c.val) →
      ∀ u c a, s'.pc u = .queued c a → (∃ a', s.pc u = .queued c a') ∨ s.mem c.word = c.val := by
    intro t p hpc hp u c a hu
    rw [hpc] at hu
    by_cases hut : u = t
    · rw [hut, update_self] at hu
      rw [hut]
      exact hp c a hu
    · rw [update_of_ne hut] at hu
      exact .inl ⟨a, hu⟩
  cases h with
  | enqueue ht hv => exact own rfl fun c a hp => by cases hp; exact .inr hv
  | ready ht => exact own rfl fun c a hp => by cases hp; exact .inl ⟨_, ht⟩
  | @wake t c ht _ =>
    intro u c' a hu
    rcases wake_pc ht c.key c.val.toNat c.bitset u with ⟨-, -, hp⟩ | ⟨-, -, c'', a', -, hp⟩ | ⟨-, -, hp⟩
    · cases hp.symm.trans hu
    · cases hp.symm.trans hu
    · exact .inl ⟨a, hp.symm.trans hu⟩
  | store l' v' => exact fun u c a hu => .inl ⟨a, hu⟩
  | _ => exact own rfl nofun

/-- The waiters that a wake looks for, in the order in which they were queued. -/
def State.matching (s : State T L) (tr : List (Event T L)) (key : FutexKey) (b : BitVec 32) : List T :=
  (order tr).filter fun u => (s.pc u).matches key b

omit [DecidableEq L] in
private theorem matching_eq (ho : Ordered tr s) (key : FutexKey) (b : BitVec 32) :
    s.matching tr key b = s.queue.filter fun u => (s.pc u).matches key b := by
  rw [ho, filter_filter]
  refine filter_congr fun u _ => ?_
  cases s.pc u with
  | queued c a => simp [isQueued]
  | _ => rfl

theorem Step.wake_spec {w : List T} (h : Step s (.wake t key n b w r) s') (hi : Inv s) (ho : Ordered tr s) :
    b ≠ 0 ∧ w = (s.matching tr key b).take n ∧ r = min n (s.matching tr key b).length ∧ w.Nodup ∧
      (∀ u ∈ w, ∃ c a, s.pc u = .queued c a ∧ s'.pc u = .woken c) ∧ (∀ u, u ∉ w → u ≠ t → s'.pc u = s.pc u) ∧
      ((s.matching tr key b).length ≤ n → ∀ u, (s'.pc u).matches key b = false) := by
  cases h with
  | @wake t c ht hd =>
    rw [matching_eq ho]
    have hw : (s.wakeMask c.key c.val.toNat c.bitset).1 =
        (s.queue.filter fun u => (s.pc u).matches c.key c.bitset).take c.val.toNat := extract_fst
    have hpc := wake_pc ht c.key c.val.toNat c.bitset
    refine ⟨decode_bitset hd, hw, ?_, ?_, fun u hu => ?_, fun u hu hut => ?_, fun hn u => ?_⟩
    · rw [hw, length_take]
    · rw [hw]
      exact (hi.nodup.filter _).sublist (take_sublist _ _)
    · rcases hpc u with ⟨-, hm, -⟩ | ⟨-, -, hq⟩ | ⟨-, hm, -⟩
      · exact absurd hu hm
      · exact hq
      · exact absurd hu hm
    · rcases hpc u with ⟨he, -, -⟩ | ⟨-, hm, -⟩ | ⟨-, -, hq⟩
      · exact absurd he hut
      · exact absurd hm hu
      · exact hq
    · rcases hpc u with ⟨-, -, hq⟩ | ⟨-, -, c', a, -, hq⟩ | ⟨-, hu, hq⟩ <;> rw [hq]
      · rfl
      · rfl
      by_cases hmem : u ∈ s.queue
      · exact extract_all (p := fun u => (s.pc u).matches c.key c.bitset) hn
          ((mem_extract_snd hi.nodup).mpr ⟨hmem, hu⟩)
      · have hno : (s.pc u).isQueued = false := by simpa using mt (hi.mem_iff u).mpr hmem
        cases hp : s.pc u with
        | queued c' a => rw [hp] at hno; cases hno
        | _ => rfl

/-! ### Runs -/

private theorem run_inv {mem : L → Int} (h : Run Step (init T mem) tr s) : Inv s ∧ Ordered tr s ∧ WokenOk tr s := by
  refine Run.invariant (fun tr s => Inv s ∧ Ordered tr s ∧ WokenOk tr s) h ⟨.nil rfl, rfl, ?_⟩ ?_
  · exact fun u hu => absurd rfl hu
  · intro tr s e s' _ ⟨hi, ho, hw⟩ hs
    exact ⟨hs.inv hi, hs.ordered hi ho, hs.wokenOk hw⟩

/-- As long as nobody stores `v`, the word stays different from `v` and nobody new waits for it. -/
theorem run_noWaiter (h : Run Step s tr s') (hno : .store l v ∉ tr)
    (hm : s.mem l ≠ v) : s'.mem l ≠ v ∧ ∀ key b, NoWaiter key b l v s → NoWaiter key b l v s' := by
  refine Run.invariant
    (fun tr s' => .store l v ∉ tr → s'.mem l ≠ v ∧ ∀ key b, NoWaiter key b l v s → NoWaiter key b l v s')
    h (fun _ => ⟨hm, fun _ _ => id⟩) ?_ hno
  intro tr t e u _ ih hs hno
  rw [mem_append, mem_singleton, not_or] at hno
  obtain ⟨hm, hn⟩ := ih hno.1
  exact ⟨hs.mem_ne (Ne.symm hno.2) hm, fun key b h0 => hs.noWaiter hm (hn key b h0)⟩

omit [DecidableEq T] [DecidableEq L] in
theorem Call.bitset_of_wait (h : c.cmd = futexWait) : c.bitset = BitVec.allOnes 32 := by
  unfold Call.bitset
  rw [h]
  exact if_neg (by decide)

/-- In every run each wake wakes the first waiters with its key and one of its bits, in the order in which they were
queued, and returns how many; a wait returns 0 exactly if it was woken, and a signal or a timeout shows in its result.
After a store of another value and a wake that reaches every waiter, nobody is queued for the old value, unless that
value was stored again. -/
theorem futex_runs {mem : L → Int} {tr : List (Event T L)} (h : Run Step (State.init T mem) tr s) :
    (∀ tr₁ tr₂ t key n b w r, tr = tr₁ ++ .wake t key n b w r :: tr₂ →
      ∃ s₁ s₂, Run Step (State.init T mem) tr₁ s₁ ∧ Step s₁ (.wake t key n b w r) s₂ ∧ Run Step s₂ tr₂ s ∧
        w = (s₁.matching tr₁ key b).take n ∧ r = min n (s₁.matching tr₁ key b).length ∧ w.Nodup ∧
        (∀ u ∈ w, ∃ c a, s₁.pc u = .queued c a ∧ s₂.pc u = .woken c) ∧ (∀ u, u ∉ w → u ≠ t → s₂.pc u = s₁.pc u) ∧
        ((s₁.matching tr₁ key b).length ≤ n →
          ∀ tr₀ tr₀' l v v', tr₁ = tr₀ ++ .store l v' :: tr₀' → v' ≠ v → .store l v ∉ tr₀' ++ tr₂ →
            ∀ u c a, s.pc u = .queued c a → c.key = key → c.word = l → c.val = v →
              ¬(c.cmd = futexWait ∨ c.bitset &&& b ≠ 0))) ∧ ∀ tr₁ tr₂ t cause r, tr = tr₁ ++ .ret t cause r :: tr₂ →
        (r = 0 ↔ wokenIn t tr₁ = true) ∧ (cause = .signal → r = eintr) ∧ (cause = .timeout → r = etimedout) := by
  refine ⟨?_, ?_⟩
  · rintro tr₁ tr₂ t key n b w r rfl
    obtain ⟨s₁, s₂, h1, hs, h2⟩ := h.split
    obtain ⟨hi, ho, -⟩ := run_inv h1
    obtain ⟨hb, hw, hr, hnd, hwoken, hrest, hall⟩ := hs.wake_spec hi ho
    refine ⟨s₁, s₂, h1, hs, h2, hw, hr, hnd, hwoken, hrest, ?_⟩
    rintro hn tr₀ tr₀' l v v' rfl hv hno u c a hu hk hl hval hbits
    rw [mem_append, not_or] at hno
    obtain ⟨m1, m2, -, hst, hm⟩ := h1.split
    -- the word is different from `v` from the store on
    have hm2 : m2.mem l ≠ v := by
      cases hst with
      | store => simpa using hv
    have hs1 : s₁.mem l ≠ v := (run_noWaiter hm hno.1 hm2).1
    have hs2 : s₂.mem l ≠ v := hs.mem_ne nofun hs1
    -- and nobody who waits for `v` is left on the key right after the wake
    have hafter : NoWaiter key b l v s₂ := by
      intro u' c' a' hu' hk' hb' _ _
      have hno := hall hn u'
      rw [hu'] at hno
      exact hb' (by simpa [Pc.matches, hk'] using hno)
    have hbit : c.bitset &&& b ≠ 0 := by
      rcases hbits with hc | hc
      · rw [Call.bitset_of_wait hc, BitVec.allOnes_and]
        exact hb
      · exact hc
    exact (run_noWaiter h2 hno.2 hs2).2 key b hafter u c a hu hk hbit hl hval
  · rintro tr₁ tr₂ t cause r rfl
    obtain ⟨s₁, s₂, h1, hs, -⟩ := h.split
    obtain ⟨hne, hr, hsig, htime⟩ := hs.ret_spec
    exact ⟨by rw [hr, (run_inv h1).2.2 t hne], hsig, htime⟩

end

/-- `FUTEX_WAIT` for a value of 0, without a timeout. -/
def waitZero : Call Unit := ⟨4, futexWait, 0, false, 0, ⟨0, 1, 0, 4⟩, ()⟩

/-- `FUTEX_WAKE` of one waiter on the same word. -/
def wakeOne : Call Unit := ⟨4, futexWake, 1, false, 0, ⟨0, 1, 0, 4⟩, ()⟩

/-- The steps of `true` up to the second look at the word. -/
def waitZeroSteps : List (Event Bool Unit) := [.call true waitZero, .internal true, .internal true, .internal true]

private theorem waitZero_run : Run Step (State.init Bool fun _ => 0) waitZeroSteps
    ((State.init Bool fun _ => 0).go true (.enter waitZero)) := by
  have h0 : Run Step (State.init Bool fun _ : Unit => 0) [] _ := .nil
  have h1 := ((h0.snoc (.call (t := true) waitZero rfl)).snoc (.read (t := true) rfl rfl rfl)).snoc
    (.clock (t := true) rfl)
  have h2 := h1.snoc (.again (t := true) rfl)
  simpa [State.go, waitZeroSteps] using h2

theorem futex_runs_handoff : ∃ s, Run Step (State.init Bool fun _ => 0)
      (waitZeroSteps ++ [.queue true, .store () 1, .call false wakeOne,
        .wake false ⟨0, 1, 0, 4⟩ 1 (BitVec.allOnes 32) [true] 1, .ret true .woken 0]) s ∧
    ∀ u c a, s.pc u = .queued c a → c.key = ⟨0, 1, 0, 4⟩ → c.word = () → c.val = 0 → c.cmd ≠ futexWait := by
  have h := ((waitZero_run.snoc (.enqueue (t := true) rfl rfl)).snoc (.store () 1)).snoc
    (.call (t := false) wakeOne rfl)
  have h' := (h.snoc (.wake (t := false) rfl rfl)).snoc (.woken (t := true) rfl)
  refine ⟨_, h', ?_⟩
  obtain ⟨s1, s2, -, -, -, -, -, -, -, -, hnone⟩ := (futex_runs h').1
    (waitZeroSteps ++ [.queue true, .store () 1, .call false wakeOne]) [.ret true .woken 0] _ _ _ _ _ _ rfl
  -- only one task was ever queued
  have hcount : (s1.matching (waitZeroSteps ++ [.queue true, .store () 1, .call false wakeOne]) wakeOne.key
      wakeOne.bitset).length ≤ 1 := length_filter_le _ _
  intro u c a hu hk hl hv hc
  exact hnone hcount (waitZeroSteps ++ [.queue true]) [.call false wakeOne] () 0 1 rfl (by decide)
    (by simp) u c a hu hk hl hv (.inl hc)

/-- The word changes back after the wake: the waiter, which has not been queued yet, goes to sleep for the old
value. -/
theorem waiter_parked_after_wake : ∃ s, Run Step (State.init Bool fun _ => 0)
      (waitZeroSteps ++ [.store () 1, .call false wakeOne, .wake false ⟨0, 1, 0, 4⟩ 1 (BitVec.allOnes 32) [] 0,
        .store () 0, .queue true]) s ∧ s.pc true = .queued waitZero true := by
  have h := ((waitZero_run.snoc (.store () 1)).snoc (.call (t := false) wakeOne rfl)).snoc
    (.wake (t := false) rfl rfl)
  have h' := (h.snoc (.store () 0)).snoc (.enqueue (t := true) rfl rfl)
  exact ⟨_, h', rfl⟩

end Mos.Futex
