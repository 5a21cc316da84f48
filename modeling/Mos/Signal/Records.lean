import Mos.Signal.Delivery

/-!
# Pending bits and queued records

`ps_take_signal_info` keeps the bit of a signal set while a record of it is queued.  Three shortcuts clear a bit and
leave the queue alone: `SIGCONT` clears the stop signals, a stop signal clears `SIGCONT`, and `ps_fault_signal` clears
its signal. Where none of them meets a record, every record has its bit (`bits_of_records`); otherwise it stays behind
(`stale_records`).
-/

namespace Mos.Signal

open List Lib Pending

variable {T : Type} [DecidableEq T]

/-- None of the bits `C` is that of a queued record. -/
def Pending.Spares (p : Pending) (C : Nat → Prop) : Prop := ∀ e ∈ p.queue, ¬C e.signo

instance (p : Pending) (C : Nat → Prop) [DecidablePred C] : Decidable (p.Spares C) :=
  inferInstanceAs (Decidable (∀ e ∈ p.queue, ¬C e.signo))

/-- The bits that a call clears are not those of records in the same set. -/
def Spared (g : Group T) : Event T → Prop
  | .queueinfo c _ => (sigqueueinfo g c).2.shared.queue ≠ g.shared.queue → g.shared.Spares (Clears c.sig.toNat)
  | .post w sig => (w.elim g.shared g.own).Spares (Clears sig)
  | .child sig _ => g.shared.Spares (Clears sig)
  | .fault t sig => (g.own t).Spares (· = sig)
  | _ => True

/-- Every queued record is of a signal whose bit is set. -/
def Pending.Recorded (p : Pending) : Prop := ∀ e ∈ p.queue, (0 < e.signo ∧ e.signo < nsig) ∧ p.has e.signo = true

variable {p : Pending} {s : Nat} {g g' : Group T}

section

variable (h : p.Recorded)

include h

theorem Pending.Recorded.queueSignal (hs : 0 < s ∧ s < nsig) (hno : p.Spares (Clears s)) :
    (p.queueSignal s).Recorded := by
  intro e he
  obtain ⟨hr, hbit⟩ := h e he
  exact ⟨hr, (p.has_queueSignal_iff hs.1 hs.2 hr.1 hr.2).mpr (.inr ⟨hbit, hno e he⟩)⟩

/-- A record goes into the queue before its signal is posted. -/
theorem Pending.Recorded.queueEntry {a : Entry} (hs : 0 < a.signo ∧ a.signo < nsig)
    (hno : p.Spares (Clears a.signo)) : ({ p with queue := p.queue ++ [a] }.queueSignal a.signo).Recorded := by
  exact forall_mem_append.2 ⟨h.queueSignal hs hno, forall_mem_singleton.2 ⟨hs,
    (has_queueSignal_iff hs.1 hs.2 hs.1 hs.2 _).mpr (.inl rfl)⟩⟩

theorem Pending.Recorded.notifyTimer (hs : 0 < s ∧ s < nsig) (hno : p.Spares (Clears s))
    (timerId value overrun : Nat) : (p.notifyTimer s timerId value overrun).Recorded := by
  unfold Pending.notifyTimer
  split
  · rename_i q hq
    intro e he
    obtain ⟨e', he', hsig, -⟩ := (bumpTimer_spec hq s).2 e he
    exact hsig ▸ h e' he'
  · exact h.queueEntry hs hno

theorem Pending.Recorded.take (hs : 0 < s) (hs' : s < nsig) : (p.take s).2.Recorded := by
  intro e he
  obtain ⟨hr, hbit⟩ := h e (mem_of_mem_eraseP he)
  exact ⟨hr, has_take hs hs' he hr.1 hr.2 hbit⟩

end

def Group.Recorded (g : Group T) : Prop := g.shared.Recorded ∧ ∀ t, (g.own t).Recorded

theorem Step.recorded {e : Event T} (hc : Step g e g') (hk : Spared g e) (h : g.Recorded) : g'.Recorded := by
  cases hc with
  | queueinfo c =>
    rcases sigqueueinfo_cases g c with ⟨-, hg⟩ | ⟨w, -, ⟨h1, h2, -⟩, -, -, ⟨-, hg⟩ | hg⟩
    · rw [hg]
      exact h
    · rw [hg]
      exact h
    · have hspare := hk (by simp [hg, psQueueGroupSignal, queueSignal])
      rw [hg]
      exact ⟨h.1.queueEntry ⟨h1, h2⟩ hspare, h.2⟩
  | take t mask =>
    unfold psTakeSignalInfo
    simp only
    split
    · exact h
    rename_i hpend
    have hs : ctz (((g.own t).bits ||| g.shared.bits) &&& mask) + 1 < nsig := Nat.succ_lt_succ (getLsbD_ctz hpend).2
    split
    · exact ⟨h.1, g.forall_setOwn h.2 ((h.2 t).take (Nat.succ_pos _) hs)⟩
    · exact ⟨h.1.take (Nat.succ_pos _) hs, h.2⟩
  | send target sig pid uid h0 hn =>
    have hs : 0 < sig ∧ sig < nsig := ⟨h0, hn⟩
    cases target with
    | none =>
      refine ⟨?_, h.2⟩
      simp only [sendSignal, fillInfo]
      split <;> exact h.1.queueSignal hs hk
    | some t =>
      refine ⟨h.1, g.forall_setOwn h.2 ?_⟩
      simp only [fillInfo]
      split <;> exact (h.2 t).queueSignal hs hk
  | kernel sig h0 hn => exact ⟨h.1.queueSignal ⟨h0, hn⟩ hk, h.2⟩
  | inject t sig h0 hn => exact ⟨h.1, g.forall_setOwn h.2 ((h.2 t).queueSignal ⟨h0, hn⟩ hk)⟩
  | child sig info h0 hn =>
    simp only [psChildSignal]
    split <;> exact ⟨h.1.queueSignal ⟨h0, hn⟩ hk, h.2⟩
  | timer target thread sig timerId value overrun h0 hn =>
    cases thread with
    | true => exact ⟨h.1, g.forall_setOwn h.2 ((h.2 target).notifyTimer ⟨h0, hn⟩ hk timerId value overrun)⟩
    | false => exact ⟨h.1.notifyTimer ⟨h0, hn⟩ hk timerId value overrun, h.2⟩
  | fault t sig h0 hn =>
    refine ⟨h.1, g.forall_setOwn h.2 fun e he => ?_⟩
    obtain ⟨hr, hbit⟩ := h.2 t e he
    rw [has_eq _ hr.1 hr.2] at hbit ⊢
    exact ⟨hr, (getLsbD_clear h0 hn hr.1 hr.2 (Ne.symm (hk e he)) _).trans hbit⟩
  | pipe t =>
    refine ⟨h.1, g.forall_setOwn h.2 fun e he => ?_⟩
    obtain ⟨hr, hbit⟩ := h.2 t e he
    rw [has_eq _ hr.1 hr.2] at hbit ⊢
    exact ⟨hr, by simp [hbit]⟩

omit [DecidableEq T] in
theorem Group.recorded_init : (Group.init T).Recorded := by
  constructor
  · intro e he
    cases he
  · intro t e he
    cases he

/-- In every run in which no call clears the bit of a queued record, every record of the group and of each task has
its bit set, and no record of a signal whose bit is clear is left. -/
theorem bits_of_records (tr : List (Event T)) (g : Group T)
    (h : Run (fun g e g' => Step g e g' ∧ Spared g e) (.init T) tr g) (p : Pending)
    (hp : p = g.shared ∨ ∃ t, p = g.own t) :
    (∀ e ∈ p.queue, p.has e.signo = true) ∧ ∀ sig, p.has sig = false → ∀ e ∈ p.queue, e.signo ≠ sig := by
  have hg : g.Recorded := h.invariant_state Group.Recorded Group.recorded_init fun _ _ _ hi hs =>
    hs.1.recorded hs.2 hi
  have hbits : ∀ e ∈ p.queue, p.has e.signo = true := by
    rcases hp with rfl | ⟨t, rfl⟩
    · exact fun e he => (hg.1 e he).2
    · exact fun e he => (hg.2 t e he).2
  refine ⟨hbits, fun sig hclear e he heq => ?_⟩
  rw [← heq, hbits e he] at hclear
  cases hclear

/-- Two timers and a payload of the group, one of the timers taken, and a fault of a task with a timer of its own. -/
theorem bits_of_records_timer : ∃ tr, ∃ g : Group Unit,
    Run (fun g e g' => Step g e g' ∧ Spared g e) (.init Unit) tr g ∧ tr.length = 6 ∧ g.shared.queue.length = 2 ∧
      (g.own ()).queue.length = 1 ∧ (∀ e ∈ g.shared.queue, g.shared.has e.signo = true) ∧
      ∀ e ∈ (g.own ()).queue, (g.own ()).has e.signo = true := by
  have r1 : Run (fun g e g' => Step g e g' ∧ Spared g e) (.init Unit) _ _ :=
    ((Run.nil.snoc ⟨.timer _ () false 20 1 0 0 (by decide) (by decide), (by decide : Spares _ (Clears 20))⟩).snoc
      ⟨.timer _ () false 21 2 0 0 (by decide) (by decide), (by decide : Spares _ (Clears 21))⟩).snoc
      ⟨.queueinfo _ (queueValue 33 7), fun _ => by decide⟩
  have r2 := ((r1.snoc ⟨.take _ () (sigBit 20), trivial⟩).snoc
    ⟨.timer _ () true 12 3 0 0 (by decide) (by decide), (by decide : Spares _ (Clears 12))⟩).snoc
    ⟨.fault _ () 11 (by decide) (by decide), (by decide : Spares _ (· = 11))⟩
  exact ⟨_, _, r2, rfl, by decide, by decide, (bits_of_records _ _ r2 _ (.inl rfl)).1,
    (bits_of_records _ _ r2 _ (.inr ⟨(), rfl⟩)).1⟩

/-- A `SIGTSTP` timer of the group and then `SIGCONT`; a `SIGSEGV` timer of the task and then a fault: both records
stay queued with their bits clear. -/
theorem stale_records : ∃ tr, ∃ g : Group Unit, Run Step (.init Unit) tr g ∧
    (∃ e ∈ g.shared.queue, g.shared.has e.signo = false) ∧ ∃ e ∈ (g.own ()).queue,
    (g.own ()).has e.signo = false := by
  have r : Run Step (.init Unit) _ _ :=
    (((Run.nil.snoc (.timer _ () false 20 1 0 0 (by decide) (by decide))).snoc
      (.send _ none 18 1 0 (by decide) (by decide))).snoc (.timer _ () true 11 2 0 0 (by decide) (by decide))).snoc
      (.fault _ () 11 (by decide) (by decide))
  exact ⟨_, _, r, ⟨_, mem_cons_self, by decide⟩, _, mem_cons_self, by decide⟩

end Mos.Signal
