import Mos.Poll.LoopRuns

/-!
# How the wait loop returns

The trace of a run has the looks and the results of the checks, so that it says what the last check has found.  The
loop returns with its subscriptions removed, except where `select` finds at its registration that a descriptor has
been closed (`Doomed`).
-/

namespace Mos.Poll

open Lib List
open State

variable {F S : Type} {c : Call F S} {s s' : State F S} {a : Act F S}

/-! ### What the checks have seen -/

/-- The last check has looked at a source and not found it ready. -/
def LookedNot (x : S) (tr : List (Act F S)) : Prop := Since (fun e => e = .look x false) Act.IsStart tr

def SawNone (c : Call F S) (fds : List F) (tr : List (Act F S)) : Prop := ∀ fd ∈ fds, ∀ x ∈ c.sources fd,
    LookedNot x tr

variable {pc : Pc F S} {p : Point} {ret : Int}

section seen

variable [DecidableEq F] [DecidableEq S]

/-- The loop has found a signal pending, and has only made the check of a wait that is refused since. -/
def Interrupted (c : Call F S) (s₀ : State F S) (tr : List (Act F S)) : Prop :=
  ∃ tr₁ s₁ tr₂, tr = tr₁ ++ .pending :: tr₂ ∧ Run (Step c) s₀ tr₁ s₁ ∧ s₁.signal = true ∧
    ∀ p, .start p ∈ tr₂ → p = .refused

def Seen (c : Call F S) (s₀ : State F S) (tr : List (Act F S)) : Pc F S → Prop
  | .enter p => p = .refused → Interrupted c s₀ tr
  | .check p todo n => (p = .refused → Interrupted c s₀ tr) ∧ (n = 0 → ∃ pre, c.fds = pre ++ todo ∧ SawNone c pre tr)
  | .look p xs found todo n => (p = .refused → Interrupted c s₀ tr) ∧
      (n = 0 → found = false → ∃ pre fd ys, c.fds = pre ++ fd :: todo ∧ c.sources fd = ys ++ xs ∧
        SawNone c pre tr ∧ ∀ y ∈ ys, LookedNot y tr)
  | .signals => SawNone c c.fds tr
  | .cancel ret => ret ≠ eintr
  | .dereg ret => ∀ r, ret = some r → r = eintr → SawNone c c.fds tr ∧ Interrupted c s₀ tr
  | .done ret => ret = eintr → SawNone c c.fds tr ∧ Interrupted c s₀ tr
  | _ => True

variable {s₀ : State F S} {tr : List (Act F S)}

section

omit [DecidableEq F] [DecidableEq S]

private theorem loop_not_start : ¬(Act.loop : Act F S).IsStart := by
  rintro ⟨p, hp⟩
  cases hp

private theorem result_not_start (ret : Int) : ¬(Act.result ret : Act F S).IsStart := by
  rintro ⟨p, hp⟩
  cases hp

private theorem look_not_start (x : S) (b : Bool) : ¬(Act.look x b : Act F S).IsStart := by
  rintro ⟨p, hp⟩
  cases hp

private theorem pending_not_start : ¬(Act.pending : Act F S).IsStart := by
  rintro ⟨p, hp⟩
  cases hp

theorem LookedNot.snoc {x : S} (h : LookedNot x tr) (ha : ¬a.IsStart) : LookedNot x (tr ++ [a]) :=
  since_snoc.2 (.inr ⟨ha, h⟩)

theorem SawNone.snoc {fds : List F} (h : SawNone c fds tr) (ha : ¬a.IsStart) : SawNone c fds (tr ++ [a]) :=
  fun fd hfd x hx => (h fd hfd x hx).snoc ha

end

theorem Interrupted.snoc (h : Interrupted c s₀ tr) (ha : ∀ p, a = .start p → p = .refused) :
    Interrupted c s₀ (tr ++ [a]) := by
  obtain ⟨tr1, s1, tr2, rfl, hrun, hsig, hrest⟩ := h
  refine ⟨tr1, s1, tr2 ++ [a], by simp, hrun, hsig, ?_⟩
  intro p hp
  rcases mem_append.1 hp with hp | hp
  · exact hrest p hp
  · exact ha p (mem_singleton.1 hp).symm

theorem Interrupted.of_signal (hrun : Run (Step c) s₀ tr s) (hsig : s.signal = true) :
    Interrupted c s₀ (tr ++ [.pending]) :=
  ⟨tr, s, [], rfl, hrun, hsig, fun _ hp => absurd hp not_mem_nil⟩

theorem Seen.snoc (h : Seen c s₀ tr pc) (ha : ¬a.IsStart) : Seen c s₀ (tr ++ [a]) pc := by
  have hint : Interrupted c s₀ tr → Interrupted c s₀ (tr ++ [a]) := fun hi =>
    hi.snoc fun p hp => absurd ⟨p, hp⟩ ha
  cases pc with
  | enter p => exact fun hp => hint (h hp)
  | check p todo n =>
    refine ⟨fun hp => hint (h.1 hp), fun hn => ?_⟩
    obtain ⟨pre, hpre, hnone⟩ := h.2 hn
    exact ⟨pre, hpre, hnone.snoc ha⟩
  | look p xs found todo n =>
    refine ⟨fun hp => hint (h.1 hp), fun hn hf => ?_⟩
    obtain ⟨pre, fd, ys, hpre, hys, hnone, hlook⟩ := h.2 hn hf
    exact ⟨pre, fd, ys, hpre, hys, hnone.snoc ha, fun y hy => (hlook y hy).snoc ha⟩
  | signals => exact SawNone.snoc h ha
  | cancel ret => exact h
  | dereg ret => exact fun r hr he => ⟨(h r hr he).1.snoc ha, hint (h r hr he).2⟩
  | done ret => exact fun he => ⟨(h he).1.snoc ha, hint (h he).2⟩
  | _ => trivial

/-- The result of a check is a number or `EBADF`; `EINTR` is what is made of a result of zero. -/
theorem checked_seen (hret : ret ≠ eintr) (hnone : ret = 0 → SawNone c c.fds tr)
    (hint : p = .refused → Interrupted c s₀ tr) : Seen c s₀ tr (checked ret p) := by
  have hdone : Seen c s₀ tr (.done ret) := fun he => absurd he hret
  have hder : Seen c s₀ tr (.dereg (some ret)) := fun r hr he => by
    cases hr
    exact absurd he hret
  unfold checked
  cases p with
  | first =>
    dsimp only
    split
    · exact hdone
    · trivial
  | registered =>
    dsimp only
    split
    · exact hder
    · trivial
  | refused =>
    dsimp only
    split
    · exact hder
    · exact fun _ _ _ => ⟨hnone (not_not.1 ‹_›), hint rfl⟩
  | published =>
    dsimp only
    split
    · exact hret
    · trivial
  | woken =>
    dsimp only
    split
    · exact hdone
    · exact hnone (not_not.1 ‹_›)

theorem Seen.lookAt {fd : F} {todo : List F} {n : Nat} (h : Seen c s₀ tr (.check p (fd :: todo) n)) :
    Seen c s₀ tr (.look p (c.sources fd) false todo n) := by
  refine ⟨h.1, fun hn _ => ?_⟩
  obtain ⟨pre, hpre, hnone⟩ := h.2 hn
  exact ⟨pre, _, [], hpre, rfl, hnone, fun y hy => absurd hy not_mem_nil⟩

theorem Seen.look {x : S} {xs : List S} {found b : Bool} {todo : List F} {n : Nat}
    (h : Seen c s₀ tr (.look p (x :: xs) found todo n)) :
    Seen c s₀ (tr ++ [.look x b]) (.look p xs (found || b) todo n) := by
  have hns := look_not_start (F := F) x b
  refine ⟨fun hp => (h.1 hp).snoc fun p hp => absurd ⟨p, hp⟩ hns, fun hn hf => ?_⟩
  obtain ⟨hfound, rfl⟩ := Bool.or_eq_false_iff.1 hf
  obtain ⟨pre, fd, ys, hpre, hys, hnone, hlook⟩ := h.2 hn hfound
  refine ⟨pre, fd, ys ++ [x], hpre, by simpa using hys, hnone.snoc hns, ?_⟩
  exact forall_mem_append.2 ⟨fun y hy => (hlook y hy).snoc hns, forall_mem_singleton.2 (since_snoc.2 (.inl rfl))⟩

theorem Seen.looked {found : Bool} {todo : List F} {n : Nat} (h : Seen c s₀ tr (.look p [] found todo n)) :
    Seen c s₀ tr (.check p todo (if found then n + 1 else n)) := by
  refine ⟨h.1, fun hn => ?_⟩
  cases found with
  | true => exact absurd hn (Nat.succ_ne_zero n)
  | false =>
    obtain ⟨pre, fd, ys, hpre, hys, hnone, hlook⟩ := h.2 hn rfl
    rw [append_nil] at hys
    refine ⟨pre ++ [fd], by simpa using hpre, forall_mem_append.2 ⟨hnone, forall_mem_singleton.2 ?_⟩⟩
    rw [hys]
    exact hlook

theorem Move.seen (hrun : Run (Step c) s₀ tr s) (h : Seen c s₀ tr s.pc) (hmove : Move c s a s') :
    Seen c s₀ (tr ++ [a]) s'.pc := by
  cases hmove with
  | enter hpc =>
    rw [hpc] at h
    refine ⟨fun hp => (h hp).snoc fun q hq => ?_, fun _ => ⟨[], rfl, fun fd hfd => absurd hfd not_mem_nil⟩⟩
    cases hq
    exact hp
  | checked hpc =>
    rw [hpc] at h
    refine Seen.snoc (checked_seen (by unfold eintr; omega) (fun h0 => ?_) h.1) (result_not_start _)
    obtain ⟨pre, hpre, hnone⟩ := h.2 (by exact_mod_cast h0)
    rw [hpre, append_nil]
    exact hnone
  | badf hpc _ =>
    rw [hpc] at h
    exact Seen.snoc (checked_seen (by decide) (fun h0 => absurd h0 (by decide)) h.1) (result_not_start _)
  | lookAt hpc _ =>
    rw [hpc] at h
    exact h.lookAt.snoc loop_not_start
  | nval hpc _ =>
    rw [hpc] at h
    exact ⟨(h.snoc loop_not_start).1, fun h0 => absurd h0 (Nat.succ_ne_zero _)⟩
  | look hpc =>
    rw [hpc] at h
    exact h.look
  | looked hpc =>
    rw [hpc] at h
    exact h.looked.snoc loop_not_start
  | tested _ _ | regBadf _ _ _ => exact fun h0 => absurd h0 (by decide)
  | expired _ _ _ =>
    intro r hr h0
    cases hr
    exact absurd h0 (by decide)
  | registered _ | publish _ | left _ _ | again _ => exact fun hp => Point.noConfusion hp
  | refuse _ hsig => exact fun _ => .of_signal hrun hsig
  | cancel hpc =>
    rw [hpc] at h
    intro r hr he
    cases hr
    exact absurd he h
  | finish _ =>
    intro r hr
    cases hr
  | unsubscribe _ _ => exact h.snoc loop_not_start
  | leave hpc _ =>
    rw [hpc] at h
    exact fun he => ⟨(h _ rfl he).1.snoc loop_not_start, ((h.snoc loop_not_start) _ rfl he).2⟩
  | interrupted hpc hsig =>
    rw [hpc] at h
    exact fun _ => ⟨h.snoc pending_not_start, .of_signal hrun hsig⟩
  | _ => trivial

end seen

/-! ### Subscriptions at the return -/

/-- A registration of `select` that finds a closed descriptor has not subscribed to anything yet. -/
def Meets (c : Call F S) (s : State F S) : Prop :=
  ∀ fd todo, s.pc = .reg (fd :: todo) → s.isOpen fd = false → c.select = true → s.table = []

/-- Subscriptions remain, or will. -/
def Doomed (c : Call F S) (s : State F S) : Prop :=
  s.table ≠ [] ∧ ((∃ r, s.pc = .done r) ∨ ∃ fd todo, s.pc = .reg (fd :: todo) ∧ s.isOpen fd = false ∧ c.select = true)

private theorem doomed_of_not_meets (h : ¬Meets c s) : Doomed c s := by
  unfold Meets at h
  push Not at h
  obtain ⟨fd, todo, hpc, hopen, hsel, htable⟩ := h
  exact ⟨htable, .inr ⟨fd, todo, hpc, hopen, hsel⟩⟩

variable {r : Int} {tr : List (Act F S)} {ready owed : S → Bool} {isOpen : F → Bool} {signal : Bool} {us : Nat}

section clean

variable [DecidableEq F] [DecidableEq S]

theorem Doomed.step (h : Doomed c s) (hstep : Step c s a s') : Doomed c s' := by
  obtain ⟨htable, hpc⟩ := h
  rcases hstep with hnext | henv
  · rcases hpc with ⟨r, hpc⟩ | ⟨fd, todo, hpc, hopen, hsel⟩
    · rw [next, hpc] at hnext
      cases hnext
    · rw [next, hpc] at hnext
      simp only [hopen, hsel] at hnext
      cases hnext
      exact ⟨htable, .inl ⟨ebadf, rfl⟩⟩
  · have hdrift := env_drift henv
    refine ⟨hdrift.table ▸ htable, ?_⟩
    rw [hdrift.pc]
    refine hpc.imp_right fun hreg => ?_
    obtain ⟨fd, todo, hpc, hopen, hsel⟩ := hreg
    refine ⟨fd, todo, hpc, ?_, hsel⟩
    by_contra hno
    rw [hdrift.isOpen fd (by simpa using hno)] at hopen
    cases hopen

section

omit [DecidableEq F] [DecidableEq S]

private theorem checked_done (hp : AtPoint c s p) (hdone : (checked ret p : Pc F S) = .done r) : s.table = [] := by
  cases p with
  | first | woken => exact hp
  | registered | published =>
    simp only [checked] at hdone
    split at hdone <;> cases hdone
  | refused => cases hdone

end

omit [DecidableEq F] in
theorem Move.done (hinv : Inv c s) (hmeets : Meets c s) (hmove : Move c s a s') (hdone : s'.pc = .done r) :
    s'.table = [] := by
  have hat := hinv.place
  cases hmove with
  | checked hpc | badf hpc _ =>
    rw [hpc] at hat
    exact checked_done hat.1 hdone
  | tested hpc _ | interrupted hpc _ =>
    rw [hpc] at hat
    exact hat
  | regBadf hpc hopen hsel => exact hmeets _ _ hpc hopen hsel
  | unsubscribe hpc _ =>
    rw [State.unsubscribe, hpc] at hdone
    cases hdone
  | leave _ htable => exact htable
  | _ => cases hdone

/-- The run goes on with steps that meet the condition, or subscriptions remain. -/
theorem meets_or_doomed {s₀ : State F S} (hrun : Run (Step c) s₀ tr s) :
    Run (fun s a s' => Step c s a s' ∧ Meets c s) s₀ tr s ∨ Doomed c s := by
  induction hrun with
  | nil => exact .inl .nil
  | @snoc tr s s' a _ hstep ih =>
    rcases ih with ih | ih
    · by_cases hmeets : Meets c s
      · exact .inl (ih.snoc ⟨hstep, hmeets⟩)
      · exact .inr ((doomed_of_not_meets hmeets).step hstep)
    · exact .inr (ih.step hstep)

omit [DecidableEq F] in
private theorem init_inv (c : Call F S) (ready owed : S → Bool) (isOpen : F → Bool) (signal : Bool) (us : Nat) :
    Inv c (init ready owed isOpen signal us) :=
  ⟨fun _ => rfl, Bool.noConfusion, rfl⟩

theorem Step.inv (h : Inv c s) (hstep : Step c s a s') : Inv c s' := by
  rcases hstep with hnext | henv
  · exact (next_move hnext).inv h
  · exact h.drift (env_drift henv)

private theorem env_not_start (henv : env s a = some s') : ¬a.IsStart := by
  intro h
  obtain ⟨p, rfl⟩ := h
  cases henv

private theorem run_spec (hrun : Run (Step c) (init ready owed isOpen signal us) tr s) :
    Inv c s ∧ Seen c (init ready owed isOpen signal us) tr s.pc := by
  induction hrun with
  | nil => exact ⟨init_inv c ready owed isOpen signal us, fun hp => Point.noConfusion hp⟩
  | snoc hrun hstep ih =>
    refine ⟨hstep.inv ih.1, ?_⟩
    rcases hstep with hnext | henv
    · exact (next_move hnext).seen hrun ih.2
    · rw [(env_drift henv).pc]
      exact ih.2.snoc (env_not_start henv)

private theorem run_table (hrun : Run (fun s a s' => Step c s a s' ∧ Meets c s) (init ready owed isOpen signal us) tr
    s) : Inv c s ∧ ∀ r, s.pc = .done r → s.table = [] := by
  induction hrun with
  | nil => exact ⟨init_inv c ready owed isOpen signal us, fun _ _ => rfl⟩
  | snoc _ hstep ih =>
    obtain ⟨hstep, hmeets⟩ := hstep
    refine ⟨hstep.inv ih.1, fun r hr => ?_⟩
    rcases hstep with hnext | henv
    · exact (next_move hnext).done ih.1 hmeets hr
    · have hdrift := env_drift henv
      rw [hdrift.table]
      exact ih.2 r (hdrift.pc ▸ hr)

omit [DecidableEq F] in
private theorem subs_iff_table (hinv : Inv c s) : (∀ x, s.subs x = 0) ↔ s.table = [] := by
  constructor
  · intro h
    apply eq_nil_iff_forall_not_mem.2
    intro x hx
    have := count_pos_iff.2 hx
    rw [← hinv.count, h x] at this
    omega
  · intro h x
    rw [hinv.count, h]
    rfl

/-- No subscription remains at the return exactly if all steps have met the condition. -/
theorem subs_iff_meets
    (hrun : Run (Step c) (init ready owed isOpen signal us) tr s) (hpc : s.pc = .done r) : (∀ x, s.subs x = 0) ↔
      Run (fun s a s' => Step c s a s' ∧ Meets c s) (init ready owed isOpen signal us) tr s := by
  rw [subs_iff_table (run_spec hrun).1]
  constructor
  · intro hnil
    exact (meets_or_doomed hrun).resolve_right fun hd => hd.1 hnil
  · intro hmeets
    exact (run_table hmeets).2 r hpc

/-- A `select` that goes on after its first check has found all descriptors open. -/
def AllOpen (c : Call F S) (s : State F S) : Pc F S → Prop
  | .check .first todo _ | .look .first _ _ todo _ => ∃ pre, c.fds = pre ++ todo ∧ ∀ fd ∈ pre, s.isOpen fd = true
  | .test | .reg _ | .subscribe _ _ => ∀ fd ∈ c.fds, s.isOpen fd = true
  | _ => True

section

omit [DecidableEq F] [DecidableEq S]

theorem AllOpen.of_isOpen (h : AllOpen c s pc) (heq : s'.isOpen = s.isOpen) : AllOpen c s' pc := by
  unfold AllOpen at h ⊢
  rw [heq]
  exact h

private theorem checked_allOpen (h : p = .first → ret = 0 → ∀ fd ∈ c.fds, s.isOpen fd = true) :
    AllOpen c s (checked ret p) := by
  cases p with
  | first =>
    simp only [checked]
    split
    · trivial
    · exact h rfl (not_not.1 ‹_›)
  | refused => trivial
  | _ =>
    simp only [checked]
    split <;> trivial

end

omit [DecidableEq F] in
theorem Move.allOpen (hsel : c.select = true) (h : AllOpen c s s.pc) (hmove : Move c s a s') :
    AllOpen c s' s'.pc := by
  cases hmove with
  | @enter p _ =>
    cases p with
    | first => exact ⟨[], rfl, fun fd hfd => absurd hfd not_mem_nil⟩
    | _ => trivial
  | checked hpc =>
    rw [hpc] at h
    apply checked_allOpen
    intro hp _
    subst hp
    obtain ⟨pre, hpre, hopen⟩ := h
    rw [hpre, append_nil]
    exact hopen
  | badf _ _ => exact checked_allOpen fun _ h0 => absurd h0 (by decide)
  | nval _ hpoll =>
    rw [hsel] at hpoll
    cases hpoll
  | @lookAt p fd todo n hpc hfd =>
    cases p with
    | first =>
      rw [hpc] at h
      obtain ⟨pre, hpre, hopen⟩ := h
      refine ⟨pre ++ [fd], by simpa using hpre, ?_⟩
      exact forall_mem_append.2 ⟨hopen, forall_mem_singleton.2 hfd⟩
    | _ => trivial
  | @look p x xs found todo n hpc | @looked p found todo n hpc =>
    rw [hpc] at h
    cases p with
    | first => exact h
    | _ => trivial
  | register hpc | regAt hpc _ | regNone hpc _ | subscribed hpc =>
    rw [hpc] at h
    exact h
  | subscribe hpc =>
    rw [hpc] at h
    intro fd hfd
    show (s.subscribe c.cap _).isOpen fd = true
    rw [subscribe_isOpen]
    exact h fd hfd
  | unsubscribe hpc _ =>
    rw [State.unsubscribe, hpc]
    trivial
  | _ => trivial

private theorem env_isOpen (henv : env s a = some s') (ha : ∀ fd, a ≠ .close fd) : s'.isOpen = s.isOpen := by
  have hready : ∀ s : State F S, s.putToReadyQueue.isOpen = s.isOpen := fun s => by
    obtain ⟨_, _, heq⟩ := putToReadyQueue_eq s
    rw [heq]
  cases a with
  | close fd => exact absurd rfl (ha fd)
  | notify x =>
    simp only [env, Option.some.injEq] at henv
    subst henv
    split
    · exact hready _
    · rfl
  | raise =>
    simp only [env, Option.some.injEq] at henv
    subst henv
    split
    · exact hready s
    · rfl
  | fire =>
    simp only [env] at henv
    split_ifs at henv
    cases henv
    rfl
  | wake =>
    cases henv
    exact hready s
  | _ =>
    cases henv
    try rfl

/-- While no descriptor is closed, every step meets the condition. -/
theorem run_meets (hrun : Run (Step c) (init ready owed isOpen signal us) tr s) (hclose : ∀ fd, .close fd ∉ tr) :
    Run (fun s a s' => Step c s a s' ∧ Meets c s) (init ready owed isOpen signal us) tr s := by
  suffices h : Run (fun s a s' => Step c s a s' ∧ Meets c s) (init ready owed isOpen signal us) tr s ∧
      (c.select = true → AllOpen c s s.pc) from h.1
  induction hrun with
  | nil => exact ⟨.nil, fun _ => trivial⟩
  | @snoc tr s s' a hrun hstep ih =>
    obtain ⟨hmeets, hopen⟩ := ih fun fd h => hclose fd (mem_append_left _ h)
    have ha : ∀ fd, a ≠ .close fd := fun fd h => hclose fd (by simp [h])
    refine ⟨hmeets.snoc ⟨hstep, ?_⟩, fun hsel => ?_⟩
    · intro fd todo hpc hfd hsel
      -- a descriptor that is left to register is open
      have hall := hopen hsel
      have hat := (run_spec hrun).1.place
      rw [hpc] at hall hat
      obtain ⟨-, pre, hpre, -⟩ := hat
      rw [hall fd (by rw [hpre]; simp)] at hfd
      cases hfd
    · rcases hstep with hnext | henv
      · exact (next_move hnext).allOpen hsel (hopen hsel)
      · rw [(env_drift henv).pc]
        exact (hopen hsel).of_isOpen (env_isOpen henv ha)

omit [DecidableEq F] in
theorem Inv.parked {x : S} {fd : F} (hinv : Inv c s) (hpc : s.pc = .parked) (hwait : s.status = .waiting)
    (hfd : fd ∈ c.fds) (hx : x ∈ c.sources fd) (hready : s.ready x = true) : (s.owed x = true ∧ 0 < s.subs x) ∨
      s.unsupported = true ∧ ∃ d, s.due = some d ∧ d ≤ s.nowMs + 1 + tickMs := by
  have hat := hinv.place
  rw [hpc] at hat
  rcases hat.1 fd hfd x hx with ⟨hmem, hg⟩ | hu
  · refine .inl ⟨(hg hready).resolve_right (not_not.2 hwait), ?_⟩
    rw [hinv.count]
    exact count_pos_iff.2 hmem
  · exact .inr ⟨hu, hat.2 hu hwait⟩

omit [DecidableEq F] in
theorem Inv.done (hinv : Inv c s) (hpc : s.pc = .done r) : ZeroOk c s r := by
  have hat := hinv.place
  rw [hpc] at hat
  exact hat

/-- **Waiting.**  For every call and every interleaving: if the task is parked and a source is ready, the source still
owes the task a notification, or the table was full (which it is only with more sources than entries) and the next
tick ends the sleep; `0` is returned only for a test or with the deadline reached; `EINTR` is returned only if the
last check has looked at every source and found none ready, and a signal was pending when the wait was prepared or
after the wakeup; and no subscription remains at the return, if no descriptor has been closed meanwhile. -/
theorem poll_wait_loop_runs {ready owed : S → Bool} {isOpen : F → Bool} {signal : Bool} {us : Nat}
    {tr : List (Act F S)} (hrun : Run (Step c) (init ready owed isOpen signal us) tr s) :
    (s.pc = .parked → s.status = .waiting → ∀ fd ∈ c.fds, ∀ x ∈ c.sources fd, s.ready x = true →
      (s.owed x = true ∧ 0 < s.subs x) ∨ c.cap < size c c.fds ∧ ∃ d, s.due = some d ∧ d ≤ s.nowMs + 1 + tickMs) ∧
    (s.pc = .done 0 → c.justTest = true ∨ c.infinite = false ∧ c.deadline ≤ s.nowMs) ∧
    (s.pc = .done eintr → SawNone c c.fds tr ∧ Interrupted c (init ready owed isOpen signal us) tr) ∧
    ((∀ fd, .close fd ∉ tr) → ∀ r, s.pc = .done r → ∀ x, s.subs x = 0) := by
  obtain ⟨hinv, hseen⟩ := run_spec hrun
  refine ⟨?_, fun hpc => hinv.done hpc rfl, ?_, ?_⟩
  · intro hpc hwait fd hfd x hx hready
    exact (hinv.parked hpc hwait hfd hx hready).imp_right fun ⟨hu, hdue⟩ => ⟨hinv.full hu, hdue⟩
  · intro hpc
    rw [hpc] at hseen
    exact hseen rfl
  · intro hclose r hpc
    exact (subs_iff_meets hrun hpc).mpr (run_meets hrun hclose)

/-! ### The table of `poll` -/

/-- The size that `zalloc` is given, an `unsigned`; an entry has nine words. -/
def tableBytes (word nfds : Nat) : Nat := 9 * word * nfds * 2 % 2 ^ (8 * word) % 2 ^ 32

/-- The entries that there is memory for, and the capacity of the table.  `do_ppoll` checks the number of descriptors
and the result of `zalloc`, `do_poll` does not. -/
def pollTable (ppoll : Bool) (word : Nat) (memory : Bool) (nfds : Nat) : Option (Nat × Nat) :=
  if ppoll ∧ (nfds > 1024 ∨ nfds ≠ 0 ∧ !memory) then none
  else some (if memory then tableBytes word nfds / (9 * word) else 0, nfds * 2 % 2 ^ 32)

/-- A subscription that is recorded is written to an entry that there is memory for. -/
def Inside (c : Call F S) (room : Nat) (s : State F S) (a : Act F S) : Prop :=
  ∀ x, a = .subscribe x → s.table.length < c.cap → s.table.length < room

omit [DecidableEq F] [DecidableEq S]

private theorem tableBytes_eq_iff {word n : Nat} (hword : word = 4 ∨ word = 8) :
    tableBytes word n = 9 * word * n * 2 ↔ 9 * word * n * 2 < 2 ^ 32 := by
  unfold tableBytes
  rcases hword with rfl | rfl <;> omega

private theorem pollTable_ppoll {memory : Bool} {word n room cap : Nat} (hword : word = 4 ∨ word = 8)
    (h : pollTable true word memory n = some (room, cap)) : 9 * word * n * 2 < 2 ^ 32 ∧ (memory = true ∨ n = 0) := by
  unfold pollTable at h
  split at h
  · cases h
  · rename_i hok
    obtain ⟨hn, hmem⟩ := not_or.1 (not_and.1 hok rfl)
    refine ⟨by rcases hword with rfl | rfl <;> omega, ?_⟩
    cases memory with
    | true => exact .inl rfl
    | false => exact .inr (by simpa using hmem)

private theorem pollTable_room {ppoll memory : Bool} {word n room cap : Nat} (hword : word = 4 ∨ word = 8)
    (h : pollTable ppoll word memory n = some (room, cap)) (hsize : 9 * word * n * 2 < 2 ^ 32) :
    cap = n * 2 ∧ (memory = true → room = n * 2) ∧ (memory = false → room = 0) := by
  unfold pollTable at h
  split at h
  · cases h
  · obtain ⟨rfl, rfl⟩ := Prod.mk.inj (Option.some.inj h)
    refine ⟨Nat.mod_eq_of_lt (by rcases hword with rfl | rfl <;> omega), ?_, ?_⟩
    · rintro rfl
      rw [if_pos rfl, (tableBytes_eq_iff hword).2 hsize, Nat.mul_assoc, Nat.mul_div_cancel_left _ (by omega)]
    · rintro rfl
      rfl

private theorem run_inside [DecidableEq F] [DecidableEq S] {s₀ : State F S} {room : Nat} (hrun : Run (Step c) s₀ tr s)
    (h : ∀ x, .subscribe x ∈ tr → c.cap ≤ room) : Run (fun s a s' => Step c s a s' ∧ Inside c room s a) s₀ tr s := by
  refine hrun.imp fun s t a ha hstep => ⟨hstep, ?_⟩
  rintro x rfl hlt
  exact hlt.trans_le (h x ha)

theorem Move.table_nil [DecidableEq S] (hmove : Move c s a s') (ha : ∀ x, a ≠ .subscribe x) (h : s.table = []) :
    s'.table = [] := by
  cases hmove with
  | @subscribe x => exact absurd rfl (ha x)
  | cancel =>
    obtain ⟨st, i, heq⟩ := putToReadyQueue_eq s
    rw [heq]
    exact h
  | unsubscribe _ htable =>
    rw [h] at htable
    cases htable
  | _ => exact h

/-- Without memory, nothing is subscribed to in a run whose entries are inside. -/
theorem no_subscribe [DecidableEq F] [DecidableEq S] (hcap : 0 < c.cap)
    (hrun : Run (fun s a s' => Step c s a s' ∧ Inside c 0 s a) (init ready owed isOpen signal us) tr s) :
    (∀ x, .subscribe x ∉ tr) ∧ s.table = [] := by
  induction hrun with
  | nil => exact ⟨fun x hx => absurd hx not_mem_nil, rfl⟩
  | @snoc tr s s' a _ hstep ih =>
    obtain ⟨hno, htable⟩ := ih
    obtain ⟨hstep, hin⟩ := hstep
    have ha : ∀ x, a ≠ .subscribe x := by
      intro x hx
      have hlt := hin x hx
      rw [htable] at hlt
      exact absurd (hlt hcap) (Nat.not_lt_zero _)
    refine ⟨fun x hx => ?_, ?_⟩
    · rcases mem_append.1 hx with hx | hx
      · exact hno x hx
      · exact ha x (mem_singleton.1 hx).symm
    · rcases hstep with hnext | henv
      · exact (next_move hnext).table_nil ha htable
      · exact (env_drift henv).table.trans htable

end clean

def onePoll : Call Nat Nat := ⟨false, [0], fun fd => [fd], 2, false, true, 0⟩

def calm : State Nat Nat := init (fun _ => false) (fun _ => false) (fun _ => true) false 0

/-- The steps up to the place where the wait is prepared. -/
def untilPrepare : List (Act Nat Nat) :=
  [.start .first, .loop, .look 0 false, .loop, .result 0, .loop, .loop, .subscribe 0, .loop, .loop,
    .start .registered, .loop, .look 0 false, .loop, .result 0, .loop]

private theorem onePoll_parked : ∃ tr s, Run (Step onePoll) calm tr s ∧
      s.pc = .parked ∧ s.status = .waiting ∧ s.ready 0 = true ∧ s.table = [0] := by
  obtain ⟨s, hrun, hs⟩ := Run.exists_of_foldlM (fun _ _ _ _ => exec_step)
    (show (List.foldlM (exec onePoll) calm (untilPrepare ++
        [.loop, .start .published, .loop, .look 0 false, .loop, .result 0, .loop, .become 0])).any
      (fun s => s.pc = .parked ∧ s.status = .waiting ∧ s.ready 0 = true ∧ s.table = [0]) = true by decide +kernel)
  exact ⟨_, s, hrun, of_decide_eq_true hs⟩

theorem poll_wait_loop_runs_parked :
    ∃ tr s, Run (Step onePoll) (init (fun _ => false) (fun _ => false) (fun _ => true) false 0) tr s ∧
      s.pc = .parked ∧ s.status = .waiting ∧ s.ready 0 = true ∧ s.owed 0 = true := by
  obtain ⟨tr, s, hrun, hpc, hwait, hready, -⟩ := onePoll_parked
  refine ⟨tr, s, hrun, hpc, hwait, hready, ?_⟩
  rcases (poll_wait_loop_runs hrun).1 hpc hwait 0 (by decide) 0 (by decide) hready with h | h
  · exact h.1
  · exact absurd h.1 (by decide)

/-- Another thread takes the signal that has refused the wait before the last check is made. -/
theorem eintr_without_signal : ∃ tr s, Run (Step onePoll) calm tr s ∧ s.pc = .done eintr ∧ s.signal = false := by
  obtain ⟨s, hrun, hs⟩ := Run.exists_of_foldlM (fun _ _ _ _ => exec_step)
    (show (List.foldlM (exec onePoll) calm (untilPrepare ++
        [.raise, .pending, .lower, .start .refused, .loop, .look 0 false, .loop, .result 0, .loop, .loop])).any
      (fun s => s.pc = .done eintr ∧ s.signal = false) = true by decide +kernel)
  exact ⟨_, s, hrun, of_decide_eq_true hs⟩

end Mos.Poll
