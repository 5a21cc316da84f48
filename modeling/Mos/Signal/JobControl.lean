import Mos.Signal.Delivery

/-!
# Job control

`ps_queue_group_signal_unsafe` and `ps_queue_signal_unsafe` clear the signals that oppose the posted one, but each
only in the pending set it posts to: that of the thread group, or that of one task.
-/

namespace Mos.Signal

open Lib

variable {T : Type} [DecidableEq T]

/-- The pending set of the group, or of a task. -/
def Group.set (g : Group T) : Option T → Pending
  | none => g.shared
  | some t => g.own t

def psQueueSignal (g : Group T) (t : T) (sig : Nat) : Group T := g.setOwn t ((g.own t).queueSignal sig)

def Group.post (g : Group T) : Option T → Nat → Group T
  | none, sig => psQueueGroupSignal g sig
  | some t, sig => psQueueSignal g t sig

/-- One step of a process's signals; `rest` is all that makes no job-control signal pending, such as taking a signal,
a payload, and the start or the end of a task. -/
inductive Post : Group T → Option (Option T × Nat) → Group T → Prop
  | post (g w sig) : 0 < sig → sig < nsig → Post g (some (w, sig)) (g.post w sig)
  | rest (g g') : (∀ w x, sigcont ≤ x → x ≤ sigttou → (g'.set w).has x → (g.set w).has x) → Post g none g'

/-- No signal that opposes the posted one is pending in another set. -/
def Alone (g : Group T) : Option (Option T × Nat) → Prop
  | some (w, s) => ∀ u ≠ w, ∀ x, Clears s x → (g.set u).has x = false
  | none => True

variable {g g' : Group T} {w y : Option T} {s x : Nat}

theorem Group.set_post : (g.post y s).set w = if w = y then (g.set y).queueSignal s else g.set w := by
  cases y with
  | none => cases w <;> simp [post, set, psQueueGroupSignal]
  | some t =>
    cases w with
    | none => simp [post, set, psQueueSignal, setOwn]
    | some u =>
      by_cases hu : u = t <;> simp [post, set, psQueueSignal, setOwn, hu]

/-- A job-control signal is pending because it was just posted, or it was pending and the post does not clear it. -/
theorem Post.pending {e : Option (Option T × Nat)} (h : Post g e g') (hx : sigcont ≤ x) (hx' : x ≤ sigttou)
    (hp : (g'.set w).has x = true) :
    e = some (w, x) ∨ (g.set w).has x = true ∧ ∀ s, e = some (w, s) → ¬Clears s x := by
  have hpos : 0 < x ∧ x < nsig := by
    unfold sigcont at hx
    unfold sigttou at hx'
    unfold nsig
    omega
  cases h with
  | rest _ hr => exact .inr ⟨hr w x hx hx' hp, by simp⟩
  | post y s h0 hn =>
    rw [Group.set_post] at hp
    split at hp
    · rename_i hw
      rcases (Pending.has_queueSignal_iff h0 hn hpos.1 hpos.2 _).mp hp with h1 | ⟨h1, h2⟩
      · exact .inl (by rw [h1, hw])
      · exact .inr ⟨hw ▸ h1, by simpa [hw] using h2⟩
    · rename_i hw
      exact .inr ⟨hp, fun s he => absurd (by simpa using he) fun h : y = w ∧ _ => hw h.1.symm⟩

/-- In every run whose posts find no opposing signal pending in another set: an opposing signal that is pending, for
the group or a task, after a post was posted since. -/
theorem job_control_cleared {tr tr' : List (Option (Option T × Nat))}
    (h : Run (fun g e g' => Post g e g' ∧ Alone g e) (.init T) (tr ++ some (y, s) :: tr') g) (hx : Clears s x)
    (hp : (g.set w).has x = true) : some (w, x) ∈ tr' := by
  have hrange : sigcont ≤ x ∧ x ≤ sigttou ∧ s ≠ x := by
    unfold Clears sigcont sigstop sigttou at *
    omega
  obtain ⟨hlow, hhigh, hne⟩ := hrange
  obtain ⟨g1, g2, -, ⟨hpost, halone⟩, hrun⟩ := h.split
  -- right after the post the signal is pending nowhere, and then only a post makes it pending
  have hnone : ¬(g2.set w).has x = true := by
    intro hp2
    rcases hpost.pending hlow hhigh hp2 with h1 | ⟨h1, h2⟩
    · exact hne (by simpa using congrArg (·.map Prod.snd) h1)
    · by_cases hw : w = y
      · exact h2 s (by rw [hw]) hx
      · rw [halone w hw x hx] at h1
        cases h1
  refine hrun.invariant (fun tr g => (g.set w).has x = true → some (w, x) ∈ tr) (fun h0 => absurd h0 hnone) ?_ hp
  intro tr g e g' _ ih hs hp'
  rcases hs.1.pending hlow hhigh hp' with h1 | ⟨h1, -⟩
  · simp [h1]
  · simp [ih h1]

/-- A stop signal for a task is taken before `SIGCONT` comes for the group, and that before the next one for the
task. -/
theorem job_control_cleared_group : ∃ g, Run (fun g e g' => Post g e g' ∧ Alone g e) (.init Unit)
    ([some (some (), sigstop), none] ++ some (none, sigcont) :: [none, some (some (), sigstop)]) g ∧
      (g.set (some ())).has sigstop = true ∧ some (some (), sigstop) ∈ [none, some (some (), sigstop)] := by
  have hzero : ∀ p : Pending, p.bits = 0 → ∀ x, p.has x = false := by
    intro p hp x
    simp [Pending.has, hp]
  have halone : ∀ (g : Group Unit) w s, (w ≠ none → g.shared.bits = 0) ∧ (w ≠ some () → (g.own ()).bits = 0) →
      Alone g (some (w, s)) := by
    rintro g w s ⟨h1, h2⟩ (_ | _) hu x -
    exacts [hzero _ (h1 hu.symm) x, hzero _ (h2 hu.symm) x]
  have htake : ∀ (g : Group Unit) mask, (psTakeSignalInfo g () mask).2.shared.bits = 0 ∧
      ((psTakeSignalInfo g () mask).2.own ()).bits = 0 → Post g none (psTakeSignalInfo g () mask).2 := by
    rintro g mask ⟨h1, h2⟩
    refine .rest _ _ fun w x _ _ hx => absurd hx ?_
    cases w <;> simp [Group.set, hzero, h1, h2]
  have r1 : Run (fun g e g' => Post g e g' ∧ Alone g e) (.init Unit) [some (some (), sigstop), none] _ :=
    (Run.nil.snoc ⟨.post _ (some ()) sigstop (by decide) (by decide), halone _ _ _ (by decide)⟩).snoc
      ⟨htake _ (sigBit sigstop) (by decide), trivial⟩
  have r2 : Run (fun g e g' => Post g e g' ∧ Alone g e) (.init Unit)
      ([some (some (), sigstop), none] ++ some (none, sigcont) :: [none, some (some (), sigstop)]) _ :=
    ((r1.snoc ⟨.post _ none sigcont (by decide) (by decide), halone _ _ _ (by decide)⟩).snoc
      ⟨htake _ (sigBit sigcont) (by decide), trivial⟩).snoc
      ⟨.post _ (some ()) sigstop (by decide) (by decide), halone _ _ _ (by decide)⟩
  exact ⟨_, r2, by decide, job_control_cleared r2 (.inl ⟨rfl, by decide, by decide⟩) rfl⟩

/-- A stop signal for the group outlives a later `SIGCONT` for one of its tasks. -/
theorem thread_cont_keeps_stop : ∃ g, Run Post (.init Nat) [some (none, sigstop), some (some 0, sigcont)] g ∧
    Clears sigcont sigstop ∧ (g.set none).has sigstop = true :=
  ⟨_, .snoc (.snoc .nil (.post _ none _ (by decide) (by decide))) (.post _ (some 0) _ (by decide) (by decide)),
    .inl ⟨rfl, by decide, by decide⟩, rfl⟩

end Mos.Signal
