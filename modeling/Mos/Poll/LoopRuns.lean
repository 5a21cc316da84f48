import Mos.Poll.Loop

/-!
# Runs of the wait loop

What holds at each place of the loop (`At`) is kept by its own steps and by what happens around it (`Drift`).  A task
that is parked has looked at every source after it published the wait, so a source that is ready has changed since and
still owes a notification (`Guarded`).
-/

namespace Mos.Poll

open Function List
open Sched (Status)

variable {F S : Type} {c : Call F S} {s s' : State F S} {a : Act F S}

namespace State

/-- A source that is ready will still wake the task. -/
def Guarded (s : State F S) (x : S) : Prop := s.ready x = true → s.owed x = true ∨ s.status ≠ .waiting

/-- The task has subscribed to a source, unless the table was full. -/
def Covered (s : State F S) (x : S) : Prop := x ∈ s.table ∨ s.unsupported = true

/-- The task has subscribed to the sources of the descriptors that are still open. -/
def Registered (c : Call F S) (s : State F S) (fds : List F) : Prop :=
  ∀ fd ∈ fds, s.isOpen fd = true → ∀ x ∈ c.sources fd, s.Covered x

def Safe (s : State F S) (x : S) : Prop := (x ∈ s.table ∧ s.Guarded x) ∨ s.unsupported = true

def Quiet (c : Call F S) (s : State F S) (fds : List F) : Prop := ∀ fd ∈ fds, ∀ x ∈ c.sources fd, s.Safe x

/-- If the table was full, a sleep ends with the next tick. -/
def Timed (s : State F S) : Prop :=
  s.unsupported = true → s.status = .waiting → ∃ d, s.due = some d ∧ d ≤ s.nowMs + 1 + tickMs

end State

open State

def ZeroOk (c : Call F S) (s : State F S) (ret : Int) : Prop :=
  ret = 0 → c.justTest = true ∨ c.infinite = false ∧ c.deadline ≤ s.nowMs

/-- The number of subscriptions that a registration makes. -/
def size (c : Call F S) (fds : List F) : Nat := (fds.flatMap c.sources).length

def AtPoint (c : Call F S) (s : State F S) : Point → Prop
  | .first | .woken => s.table = []
  | .registered => s.Registered c c.fds
  | .refused => True
  | .published => s.Registered c c.fds ∧ s.Timed

def At (c : Call F S) (s : State F S) : Pc F S → Prop
  | .enter p => AtPoint c s p
  | .check p todo n => AtPoint c s p ∧
      (p = .published → n = 0 → ∃ pre, c.fds = pre ++ todo ∧ s.Quiet c pre)
  | .look p xs found todo n => AtPoint c s p ∧
      (p = .published → n = 0 → found = false → ∃ pre fd ys, c.fds = pre ++ fd :: todo ∧ c.sources fd = ys ++ xs ∧
        s.Quiet c pre ∧ (∀ x ∈ c.sources fd, s.Covered x) ∧ ∀ y ∈ ys, s.Safe y)
  | .test | .signals => s.table = []
  | .reg todo => s.table.length + size c todo ≤ size c c.fds ∧ ∃ pre, c.fds = pre ++ todo ∧ s.Registered c pre
  | .subscribe xs todo => s.table.length + xs.length + size c todo ≤ size c c.fds ∧
      ∃ pre fd ys, c.fds = pre ++ fd :: todo ∧ c.sources fd = ys ++ xs ∧ s.Registered c pre ∧ ∀ y ∈ ys, s.Covered y
  | .late => s.Registered c c.fds
  | .prepare ms => s.Registered c c.fds ∧ (s.unsupported = true → 0 < ms ∧ ms ≤ tickMs)
  | .cancel ret => ret ≠ 0
  | .sched | .parked => s.Quiet c c.fds ∧ s.Timed
  | .finish => True
  | .dereg ret => ∀ r, ret = some r → ZeroOk c s r
  | .done ret => ZeroOk c s ret

structure Inv [DecidableEq S] (c : Call F S) (s : State F S) : Prop where
  count : ∀ x, s.subs x = s.table.count x
  full : s.unsupported = true → c.cap < size c c.fds
  place : At c s s.pc

/-! ### What happens around the loop -/

structure Drift (s s' : State F S) : Prop where
  pc : s'.pc = s.pc
  table : s'.table = s.table
  unsupported : s'.unsupported = s.unsupported
  subs : s'.subs = s.subs
  isOpen : ∀ fd, s'.isOpen fd = true → s.isOpen fd = true
  us : s.us ≤ s'.us
  guarded : ∀ x, 0 < s.subs x → s.Guarded x → s'.Guarded x
  due : s'.status = .waiting → s.status = .waiting ∧ s'.due = s.due

private theorem putToReadyQueue_status (s : State F S) : s.putToReadyQueue.status ≠ .waiting := by
  unfold putToReadyQueue
  split
  · exact Status.noConfusion
  · assumption

theorem putToReadyQueue_eq (s : State F S) :
    ∃ st i, s.putToReadyQueue = { s with status := st, interruptible := i } := by
  unfold putToReadyQueue
  split
  · exact ⟨_, _, rfl⟩
  · exact ⟨_, _, rfl⟩

theorem Drift.refl (s : State F S) : Drift s s :=
  ⟨rfl, rfl, rfl, rfl, fun _ h => h, le_rfl, fun _ _ h => h, fun h => ⟨h, rfl⟩⟩

private theorem drift_putToReadyQueue (s : State F S) (owed : S → Bool) :
    Drift s { s with owed }.putToReadyQueue := by
  obtain ⟨st, i, heq⟩ := putToReadyQueue_eq { s with owed }
  have hst := putToReadyQueue_status { s with owed }
  rw [heq] at hst ⊢
  exact { Drift.refl s with guarded := fun _ _ _ _ => .inr hst, due := fun h => absurd h hst }

theorem Drift.trans {s'' : State F S} (h : Drift s s') (h' : Drift s' s'') : Drift s s'' where
  pc := h'.pc.trans h.pc
  table := h'.table.trans h.table
  unsupported := h'.unsupported.trans h.unsupported
  subs := h'.subs.trans h.subs
  isOpen fd hfd := h.isOpen fd (h'.isOpen fd hfd)
  us := h.us.trans h'.us
  guarded x hx hg := h'.guarded x (by rw [h.subs]; exact hx) (h.guarded x hx hg)
  due hw := ⟨(h.due (h'.due hw).1).1, (h'.due hw).2.trans (h.due (h'.due hw).1).2⟩

theorem env_drift [DecidableEq F] [DecidableEq S] (h : env s a = some s') : Drift s s' := by
  cases a with
  | start p | look x found | result ret | subscribe x | pending | loop => cases h
  | become x =>
    cases h
    refine { Drift.refl s with guarded := ?_ }
    intro y _ hg hy
    by_cases hxy : y = x
    · subst hxy
      cases hr : s.ready y with
      | false => simp
      | true => simpa [hr] using hg hr
    · simpa [update_of_ne hxy] using hg (by simpa [update_of_ne hxy] using hy)
  | unready x =>
    cases h
    refine { Drift.refl s with guarded := ?_ }
    intro y _ hg hy
    by_cases hxy : y = x
    · simp [hxy] at hy
    · exact hg (by simpa [update_of_ne hxy] using hy)
  | notify x =>
    simp only [env, Option.some.injEq] at h
    split at h
    · -- a subscriber is woken
      rename_i hx
      subst h
      exact drift_putToReadyQueue s _
    · rename_i hx
      subst h
      refine { Drift.refl s with guarded := ?_ }
      intro y hy hg hr
      have hxy : y ≠ x := fun heq => hx (heq ▸ hy)
      simpa [update_of_ne hxy] using hg hr
  | raise =>
    have hset : ∀ s : State F S, Drift s { s with signal := true } := fun s => { Drift.refl s with }
    simp only [env, Option.some.injEq] at h
    split at h
    · subst h
      exact (drift_putToReadyQueue s s.owed).trans (hset _)
    · subst h
      exact hset s
  | lower =>
    cases h
    exact { Drift.refl s with }
  | tick us =>
    cases h
    exact { Drift.refl s with us := Nat.le_add_right _ _ }
  | fire =>
    simp only [env] at h
    split at h
    · cases h
      exact { Drift.refl s with
        guarded := fun _ _ _ _ => .inr Status.noConfusion, due := fun h => Status.noConfusion h }
    · cases h
  | wake =>
    cases h
    exact drift_putToReadyQueue s s.owed
  | close fd =>
    cases h
    refine { Drift.refl s with isOpen := ?_ }
    intro fd' hfd
    by_cases heq : fd' = fd
    · simp [heq] at hfd
    · simpa [update_of_ne heq] using hfd

variable {x : S} {fds : List F} {ret : Int} {p : Point}

namespace Drift

variable (h : Drift s s')

include h

private theorem nowMs : s.nowMs ≤ s'.nowMs := Nat.div_le_div_right h.us

private theorem covered (hx : s.Covered x) : s'.Covered x := by
  unfold Covered
  rw [h.table, h.unsupported]
  exact hx

private theorem registered (hr : s.Registered c fds) : s'.Registered c fds :=
  fun fd hfd hopen x hx => h.covered (hr fd hfd (h.isOpen fd hopen) x hx)

private theorem timed (ht : s.Timed) : s'.Timed := by
  intro hu hw
  obtain ⟨hw, hdue⟩ := h.due hw
  obtain ⟨d, hd, hle⟩ := ht (h.unsupported ▸ hu) hw
  have := h.nowMs
  exact ⟨d, hdue.trans hd, by omega⟩

private theorem zeroOk (hz : ZeroOk c s ret) : ZeroOk c s' ret := by
  intro hret
  have := h.nowMs
  exact (hz hret).imp_right fun hd => ⟨hd.1, by omega⟩

private theorem atPoint (hp : AtPoint c s p) : AtPoint c s' p := by
  cases p with
  | first | woken => exact h.table.trans hp
  | registered => exact h.registered hp
  | refused => trivial
  | published => exact ⟨h.registered hp.1, h.timed hp.2⟩

private theorem safe [DecidableEq S] (hcount : ∀ x, s.subs x = s.table.count x) (hs : s.Safe x) : s'.Safe x := by
  rcases hs with ⟨hmem, hg⟩ | hu
  · refine .inl ⟨h.table ▸ hmem, h.guarded x ?_ hg⟩
    rw [hcount]
    exact count_pos_iff.2 hmem
  · exact .inr (h.unsupported ▸ hu)

private theorem quiet [DecidableEq S] (hcount : ∀ x, s.subs x = s.table.count x) (hq : s.Quiet c fds) :
    s'.Quiet c fds := fun fd hfd x hx => h.safe hcount (hq fd hfd x hx)

end Drift

/-! ### Steps of the loop -/

private theorem size_cons (c : Call F S) (fd : F) (todo : List F) :
    size c (fd :: todo) = (c.sources fd).length + size c todo := by
  simp [size]

private theorem sleepMs_spec (hu : s.unsupported = true) (hlate : ¬(c.infinite = false ∧ s.nowMs ≥ c.deadline)) :
    0 < sleepMs c s ∧ sleepMs c s ≤ tickMs := by
  unfold sleepMs
  cases hinf : c.infinite with
  | true => simp [hu, tickMs]
  | false =>
    have hlt : s.nowMs < c.deadline := by
      by_contra hge
      exact hlate ⟨hinf, by omega⟩
    simp only [hu, Bool.false_eq_true, if_false, true_and]
    split_ifs with hgt
    · simp [tickMs]
    · omega

variable {todo : List F} {xs : List S} {found : Bool} {n : Nat}

theorem At.look (hat : At c s (.look p (x :: xs) found todo n)) :
    At c s (.look p xs (found || s.ready x) todo n) := by
  refine ⟨hat.1, ?_⟩
  intro hp hn hf
  obtain ⟨hf, hx⟩ := Bool.or_eq_false_iff.1 hf
  obtain ⟨pre, fd, ys, hpre, hys, hq, hcov, hsafe⟩ := hat.2 hp hn hf
  refine ⟨pre, fd, ys ++ [x], hpre, by simpa using hys, hq, hcov, ?_⟩
  refine forall_mem_append.2 ⟨hsafe, forall_mem_singleton.2 ?_⟩
  refine (hcov x (by rw [hys]; simp)).imp_left fun hmem => ⟨hmem, ?_⟩
  intro hr
  rw [hx] at hr
  cases hr

theorem At.looked (hat : At c s (.look p [] found todo n)) :
    At c s (.check p todo (if found then n + 1 else n)) := by
  refine ⟨hat.1, ?_⟩
  intro hp hn
  cases found with
  | true => simp at hn
  | false =>
    obtain ⟨pre, fd, ys, hpre, hys, hq, -, hsafe⟩ := hat.2 hp (by simpa using hn) rfl
    rw [append_nil] at hys
    refine ⟨pre ++ [fd], by simpa using hpre, forall_mem_append.2 ⟨hq, forall_mem_singleton.2 ?_⟩⟩
    rw [hys]
    exact hsafe

theorem At.lookAt {fd : F} (hat : At c s (.check p (fd :: todo) n))
    (hopen : s.isOpen fd = true) : At c s (.look p (c.sources fd) false todo n) := by
  refine ⟨hat.1, ?_⟩
  intro hp hn _
  obtain ⟨pre, hpre, hq⟩ := hat.2 hp hn
  subst hp
  refine ⟨pre, fd, [], hpre, rfl, hq, ?_, fun y hy => absurd hy not_mem_nil⟩
  exact hat.1.1 fd (by rw [hpre]; simp) hopen

theorem At.checked (hp : AtPoint c s p) (hquiet : p = .published → ret = 0 → s.Quiet c c.fds) :
    At c s (checked ret p) := by
  have hret : ret ≠ 0 → ZeroOk c s ret := fun hne h0 => absurd h0 hne
  have hder : ret ≠ 0 → At c s (.dereg (some ret)) := fun hne r hr => by
    cases hr
    exact hret hne
  unfold Poll.checked
  cases p with
  | first | woken =>
    dsimp only
    split
    · exact hret ‹_›
    · exact hp
  | registered =>
    dsimp only
    split
    · exact hder ‹_›
    · exact hp
  | refused =>
    dsimp only
    split
    · exact hder ‹_›
    · intro r hr
      cases hr
      exact fun h0 => absurd h0 (by decide)
  | published =>
    dsimp only
    split
    · assumption
    · exact ⟨hquiet rfl (not_not.1 ‹_›), hp.2⟩

theorem At.lastChecked (hat : At c s (.check p [] n)) : At c s (Poll.checked n p) := by
  apply At.checked hat.1
  intro hp hn
  obtain ⟨pre, hpre, hq⟩ := hat.2 hp (by exact_mod_cast hn)
  rw [hpre, append_nil]
  exact hq

theorem At.register (hat : At c s .test) : At c s (.reg c.fds) := by
  refine ⟨?_, [], rfl, fun fd hfd => absurd hfd not_mem_nil⟩
  rw [show s.table = [] from hat]
  simp

theorem At.regAt {fd : F} (hat : At c s (.reg (fd :: todo))) : At c s (.subscribe (c.sources fd) todo) := by
  obtain ⟨hsize, pre, hpre, hreg⟩ := hat
  rw [size_cons] at hsize
  exact ⟨by omega, pre, fd, [], hpre, rfl, hreg, fun y hy => absurd hy not_mem_nil⟩

theorem At.regNone {fd : F} (hat : At c s (.reg (fd :: todo))) (hopen : s.isOpen fd = false) :
    At c s (.reg todo) := by
  obtain ⟨hsize, pre, hpre, hreg⟩ := hat
  rw [size_cons] at hsize
  refine ⟨by omega, pre ++ [fd], by simpa using hpre, forall_mem_append.2 ⟨hreg, forall_mem_singleton.2 ?_⟩⟩
  intro h
  rw [hopen] at h
  cases h

theorem At.registered (hat : At c s (.reg [])) : At c s (.enter .registered) := by
  obtain ⟨-, pre, hpre, hreg⟩ := hat
  rw [append_nil] at hpre
  exact (hpre ▸ hreg : s.Registered c c.fds)

theorem At.subscribed (hat : At c s (.subscribe [] todo)) : At c s (.reg todo) := by
  obtain ⟨hsize, pre, fd, ys, hpre, hys, hreg, hcov⟩ := hat
  rw [append_nil] at hys
  refine ⟨by simpa using hsize, pre ++ [fd], by simpa using hpre,
    forall_mem_append.2 ⟨hreg, forall_mem_singleton.2 fun _ => ?_⟩⟩
  rw [hys]
  exact hcov

section inv

variable [DecidableEq S]

theorem Inv.drift (hinv : Inv c s) (h : Drift s s') : Inv c s' := by
  refine ⟨fun x => ?_, fun hu => hinv.full (h.unsupported ▸ hu), ?_⟩
  · rw [h.subs, h.table]
    exact hinv.count x
  have hat := hinv.place
  rw [h.pc]
  cases hpc : s.pc with
  | enter p =>
    rw [hpc] at hat
    exact h.atPoint hat
  | check p todo n =>
    rw [hpc] at hat
    refine ⟨h.atPoint hat.1, ?_⟩
    intro hp hn
    obtain ⟨pre, hpre, hq⟩ := hat.2 hp hn
    exact ⟨pre, hpre, h.quiet hinv.count hq⟩
  | look p xs found todo n =>
    rw [hpc] at hat
    refine ⟨h.atPoint hat.1, ?_⟩
    intro hp hn hf
    obtain ⟨pre, fd, ys, hpre, hys, hq, hcov, hg⟩ := hat.2 hp hn hf
    exact ⟨pre, fd, ys, hpre, hys, h.quiet hinv.count hq, fun x hx => h.covered (hcov x hx),
      fun y hy => h.safe hinv.count (hg y hy)⟩
  | test | signals =>
    rw [hpc] at hat
    exact h.table.trans hat
  | reg todo =>
    rw [hpc] at hat
    obtain ⟨hsize, pre, hpre, hr⟩ := hat
    exact ⟨h.table ▸ hsize, pre, hpre, h.registered hr⟩
  | subscribe xs todo =>
    rw [hpc] at hat
    obtain ⟨hsize, pre, fd, ys, hpre, hys, hr, hcov⟩ := hat
    exact ⟨h.table ▸ hsize, pre, fd, ys, hpre, hys, h.registered hr, fun y hy => h.covered (hcov y hy)⟩
  | late =>
    rw [hpc] at hat
    exact h.registered hat
  | prepare ms =>
    rw [hpc] at hat
    exact ⟨h.registered hat.1, fun hu => hat.2 (h.unsupported ▸ hu)⟩
  | cancel ret =>
    rw [hpc] at hat
    exact hat
  | sched | parked =>
    rw [hpc] at hat
    exact ⟨h.quiet hinv.count hat.1, h.timed hat.2⟩
  | finish => trivial
  | dereg ret =>
    rw [hpc] at hat
    exact fun r hr => h.zeroOk (hat r hr)
  | done ret =>
    rw [hpc] at hat
    exact h.zeroOk hat

theorem Inv.goto {pc : Pc F S} (h : Inv c s) (hat : At c s pc) : Inv c (s.goto pc) := { h with place := hat }

private theorem subscribe_covered {cap : Nat} {y : S} (h : s.Covered y) : (s.subscribe cap x).Covered y := by
  unfold subscribe
  split
  · exact .inr rfl
  · exact h.imp_left (mem_cons_of_mem x)

private theorem subscribe_self (s : State F S) (cap : Nat) (x : S) : (s.subscribe cap x).Covered x := by
  unfold subscribe
  split
  · exact .inr rfl
  · exact .inl mem_cons_self

theorem subscribe_isOpen (s : State F S) (cap : Nat) (x : S) : (s.subscribe cap x).isOpen = s.isOpen := by
  unfold subscribe
  split <;> rfl

private theorem subscribe_length (s : State F S) (cap : Nat) (x : S) :
    (s.subscribe cap x).table.length ≤ s.table.length + 1 := by
  unfold subscribe
  split
  · exact Nat.le_succ _
  · exact le_rfl

theorem Inv.subscribe (h : Inv c s) (hat : At c s (.subscribe (x :: xs) todo)) :
    Inv c ((s.subscribe c.cap x).goto (.subscribe xs todo)) := by
  obtain ⟨hsize, pre, fd, ys, hpre, hys, hreg, hcov⟩ := hat
  rw [length_cons] at hsize
  refine ⟨?_, ?_, ?_, pre, fd, ys ++ [x], hpre, by simpa using hys, ?_, ?_⟩
  · intro y
    show (s.subscribe c.cap x).subs y = (s.subscribe c.cap x).table.count y
    unfold State.subscribe
    split
    · exact h.count y
    · by_cases hxy : y = x
      · simp [hxy, h.count]
      · simp [update_of_ne hxy, count_cons_of_ne (Ne.symm hxy), h.count]
  · intro hu
    by_cases hfull : s.table.length ≥ c.cap
    · omega
    · apply h.full
      simpa [State.goto, State.subscribe, hfull] using hu
  · have := subscribe_length s c.cap x
    show (s.subscribe c.cap x).table.length + xs.length + size c todo ≤ size c c.fds
    omega
  · intro fd' hfd hopen y hy
    apply subscribe_covered
    exact hreg fd' hfd (by rw [← subscribe_isOpen s c.cap x]; exact hopen) y hy
  · exact forall_mem_append.2 ⟨fun y hy => subscribe_covered (hcov y hy),
      forall_mem_singleton.2 (subscribe_self s c.cap x)⟩

theorem Inv.unsubscribe {table : List S} {ret : Option Int} (h : Inv c s) (hpc : s.pc = .dereg ret)
    (htable : s.table = x :: table) : Inv c (s.unsubscribe x table) := by
  have hat := h.place
  rw [hpc] at hat
  refine ⟨?_, h.full, ?_⟩
  · intro y
    have hcount := h.count y
    rw [htable] at hcount
    by_cases hxy : y = x
    · simp [State.unsubscribe, hxy] at hcount ⊢
      omega
    · simpa [State.unsubscribe, update_of_ne hxy, count_cons_of_ne (Ne.symm hxy)] using hcount
  · show At c (s.unsubscribe x table) s.pc
    rw [hpc]
    exact hat

theorem Inv.publish {ms : Nat} (h : Inv c s) (hat : At c s (.prepare ms)) :
    Inv c ((s.publish ms).goto (.enter .published)) := by
  refine ⟨h.count, h.full, hat.1, ?_⟩
  intro hu _
  obtain ⟨hpos, hle⟩ := hat.2 hu
  refine ⟨s.deadlineMs ms, if_neg (by omega), ?_⟩
  have hmin : s.deadlineMs ms ≤ s.us / 1000 + (if s.us % 1000 = 0 then 0 else 1) + ms := Nat.min_le_left ..
  show s.deadlineMs ms ≤ s.us / 1000 + 1 + tickMs
  split_ifs at hmin <;> omega

theorem Move.inv (h : Inv c s) (hmove : Move c s a s') : Inv c s' := by
  have hat := h.place
  cases hmove with
  | enter hpc =>
    rw [hpc] at hat
    exact h.goto ⟨hat, fun _ _ => ⟨[], rfl, fun fd hfd => absurd hfd not_mem_nil⟩⟩
  | checked hpc =>
    rw [hpc] at hat
    exact h.goto hat.lastChecked
  | lookAt hpc hopen =>
    rw [hpc] at hat
    exact h.goto (hat.lookAt hopen)
  | badf hpc _ =>
    rw [hpc] at hat
    exact h.goto (.checked hat.1 fun _ h0 => absurd h0 (by decide))
  | nval hpc _ =>
    rw [hpc] at hat
    exact h.goto ⟨hat.1, fun _ h0 => absurd h0 (Nat.succ_ne_zero _)⟩
  | look hpc =>
    rw [hpc] at hat
    exact h.goto hat.look
  | looked hpc =>
    rw [hpc] at hat
    exact h.goto hat.looked
  | tested _ hzero => exact h.goto fun _ => hzero
  | register hpc =>
    rw [hpc] at hat
    exact h.goto hat.register
  | regAt hpc _ =>
    rw [hpc] at hat
    exact h.goto hat.regAt
  | regBadf _ _ _ | interrupted _ _ => exact h.goto fun h0 => absurd h0 (by decide)
  | regNone hpc hopen =>
    rw [hpc] at hat
    exact h.goto (hat.regNone hopen)
  | registered hpc =>
    rw [hpc] at hat
    exact h.goto hat.registered
  | subscribe hpc =>
    rw [hpc] at hat
    exact h.subscribe hat
  | subscribed hpc =>
    rw [hpc] at hat
    exact h.goto hat.subscribed
  | expired _ hinf hlate =>
    apply h.goto
    intro r hr
    cases hr
    exact fun _ => .inr ⟨hinf, hlate⟩
  | timed hpc hlate =>
    rw [hpc] at hat
    exact h.goto ⟨hat, fun hu => sleepMs_spec hu hlate⟩
  | refuse _ _ => exact h.goto trivial
  | publish hpc =>
    rw [hpc] at hat
    exact h.publish hat
  | cancel hpc =>
    rw [hpc] at hat
    have hready := h.drift (drift_putToReadyQueue s s.owed)
    refine { hready with place := ?_ }
    intro r hr h0
    cases hr
    exact absurd h0 hat
  | sched hpc | again hpc =>
    rw [hpc] at hat
    exact h.goto hat
  | resume _ => exact { h with place := trivial }
  | finish _ => exact { h with place := nofun }
  | unsubscribe hpc htable => exact h.unsubscribe hpc htable
  | leave hpc _ =>
    rw [hpc] at hat
    exact h.goto (hat _ rfl)
  | left _ htable => exact h.goto htable

end inv

end Mos.Poll
