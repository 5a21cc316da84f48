import Mos.Sched.Pick

/-!
# The scheduler takes turns

The tasks of one level that are available are picked in turn: a pick takes the first of them and puts it to the tail,
and the other steps leave their order alone as long as they move none of them.  A timer that falls due moves its task
whatever the status of the task is, also one that is ready again after a wakeup and has not yet disarmed its timer;
such a task loses its turn.
-/

namespace Mos.Sched

open Lib List State

section

variable {T W : Type} [DecidableEq T] [DecidableEq W]

/-- The tasks that a step moves; of a pick, those it moves before the scan. -/
def Op.Moves (s : State T W) : Op T W → T → Prop
  | .create t _ _ _ | .wait t _ | .wakeUnsafe t | .dying t _ => fun u => u = t
  | .wake t => fun u => u = t ∧ s.status t = .waiting
  | .arm _ _ | .disarm _ => fun _ => False
  | .fire now => Woken s now
  | .pick c now => fun u => s.psid c.cur ≠ noPsid ∧ Woken (s.yield c.cur) now u

instance (s : State T W) (now : Nat) : DecidablePred (Woken s now) := fun _ => inferInstanceAs (Decidable (_ ∧ _ ∧ _))

def picked : Op T W × Option T → List (Option T)
  | (.pick _ _, r) => [r]
  | _ => []

variable (B : Balancing T)

/-- A pick finds the tasks of `A` available at this level, and none at a higher one. -/
def Offers (A : T → Bool) (level : Fin 3) (s : State T W) : Op T W → Prop
  | .pick c now =>
    (∀ u ∈ ((s.yield c.cur).fireBefore B c now).lists (.ready level),
      ((s.yield c.cur).fireBefore B c now).taskAvailable c u = A u) ∧
    ∀ higher > level, ∀ u ∈ ((s.yield c.cur).fireBefore B c now).lists (.ready higher),
      ((s.yield c.cur).fireBefore B c now).taskAvailable c u = false
  | _ => True

/-- A step that moves none of the tasks of `A`, except for the pick itself. -/
def RoundStep (A : T → Bool) (level : Fin 3) (s : State T W) (e : Op T W × Option T) (s' : State T W) : Prop :=
  Step B s e s' ∧ Offers B A level s e.1 ∧ ∀ u, A u = true → ¬e.1.Moves s u

variable {B} {A : T → Bool} {level : Fin 3} {s s' : State T W} {c : Cpu T} {t : T} {now : Nat}
  {tr : List (Op T W × Option T)}

omit [DecidableEq W] in
private theorem yield_lists (s : State T W) (t : T) : (s.yield t).lists = s.lists := by
  unfold yield
  split_ifs <;> rfl

omit [DecidableEq W] in
private theorem yield_psid (s : State T W) (t : T) : (s.yield t).psid = s.psid := by
  unfold yield
  split_ifs <;> rfl

/-- A step other than a pick leaves the order of the tasks that it does not move. -/
theorem exec_filter (hi : Inv s) {op : Op T W} (hop : ∀ c now, op ≠ .pick c now)
    (hA : ∀ u, A u = true → ¬op.Moves s u)
    (q : Queue T W) : ((s.exec B op).2.lists q).filter A = (s.lists q).filter A := by
  have hself : ∀ {u : T}, (A u = true → ¬u = u) → A u = false := fun h => by simpa using h
  cases op with
  | create t psid priority first =>
    have ht : A t = false := hself (hA t)
    have hput := putReady_filter (s.create t psid priority) (fun _ => ht) q
    cases first with
    | false => exact hput
    | true => exact ((linkHead_filter ht _ q).trans (unlink_filter ht q)).trans hput
  | wait t w => exact move_filter s (hself (hA t)) (.wait w) q
  | wake t =>
    show ((s.putToReadyQueue t).lists q).filter A = _
    unfold putToReadyQueue
    split_ifs with hwait
    · exact putReady_filter s (fun _ => hself fun ha _ => hA t ha ⟨rfl, hwait⟩) q
    · rfl
  | wakeUnsafe t => exact putReady_filter s (fun _ => hself (hA t)) q
  | dying t parent =>
    cases parent with
    | none => exact unlink_filter (hself (hA t)) q
    | some p => exact move_filter s (hself (hA t)) (.dying p) q
  | arm t due => rfl
  | disarm t => rfl
  | fire now =>
    refine (fireTimers_spec hi now).2.2.2 A (fun u hu => ?_) q
    by_contra hau
    exact hA u (by simpa using hau) hu
  | pick c now => exact absurd rfl (hop c now)

private theorem fireBefore_filter (hi : Inv s) (hA : ∀ u, A u = true → ¬(Op.pick c now).Moves s u) (q : Queue T W) :
    (((s.yield c.cur).fireBefore B c now).lists q).filter A = (s.lists q).filter A := by
  unfold fireBefore
  rw [yield_psid]
  split_ifs with hpsid
  · rw [← yield_lists s c.cur]
    refine (fireTimers_spec (hi.yield c.cur) now).2.2.2 A (fun u hu => ?_) q
    by_contra hau
    exact hA u (by simpa using hau) ⟨hpsid, hu⟩
  · rw [yield_lists]

/-- A pick takes the first of the tasks of `A` and puts it behind the others. -/
theorem pick_turn (hi : Inv s) (hoffer : Offers B A level s (.pick c now))
    (hA : ∀ u, A u = true → ¬(Op.pick c now).Moves s u) (hne : (s.lists (.ready level)).filter A ≠ []) :
    ∃ t r, (s.lists (.ready level)).filter A = t :: r ∧ (s.taskSched B c now).1 = some t ∧
      ((s.taskSched B c now).2.lists (.ready level)).filter A = r ++ [t] := by
  obtain ⟨havail, hhigher⟩ := hoffer
  have hspec := getNext_spec (B := B) (s.yield c.cur) c now
  have hsame := fireBefore_filter (B := B) hi hA (.ready level)
  rw [← hsame] at hne ⊢
  unfold taskSched
  generalize (s.yield c.cur).getNextTaskUnsafe B c now = r at hspec ⊢
  generalize (s.yield c.cur).fireBefore B c now = f at havail hhigher hspec hne ⊢
  obtain ⟨u, hu⟩ := exists_mem_of_ne_nil _ hne
  obtain ⟨hmem, hau⟩ := mem_filter.1 hu
  have hupick : f.taskAvailable c u = true := (havail u hmem).trans hau
  obtain ⟨_ | t, s'⟩ := r
  · have := hspec.2 level u hmem
    rw [hupick] at this
    cases this
  obtain ⟨level', l1, l2, heq, ht, hbefore, habove, rfl⟩ := hspec
  have htmem : t ∈ f.lists (.ready level') := by simp [heq]
  -- the pick is at this level: there is a task here, and none above
  have hlevel : level' = level := by
    rcases lt_trichotomy level' level with hlt | heq | hgt
    · have := habove level hlt u hmem
      rw [hupick] at this
      cases this
    · exact heq
    · have := hhigher level' hgt t htmem
      rw [ht] at this
      cases this
  subst hlevel
  have hl1 : ∀ a ∈ l1, A a = false := fun a ha => by
    rw [← havail a (by simp [heq, ha])]
    exact hbefore a ha
  obtain ⟨hq, hq'⟩ := filter_turn ((havail t htmem).symm.trans ht) hl1 l2
  refine ⟨t, l2.filter A, by rw [heq, hq], rfl, ?_⟩
  simpa [setStatus] using hq'

/-- One step of a round: what is picked goes from the front of the queue to its back. -/
theorem RoundStep.turn {e : Op T W × Option T} (h : RoundStep B A level s e s') (hi : Inv s)
    (hne : (s.lists (.ready level)).filter A ≠ []) : (s'.lists (.ready level)).filter A ≠ [] ∧
      ((s.lists (.ready level)).filter A).map some ++ picked e =
        picked e ++ ((s'.lists (.ready level)).filter A).map some := by
  obtain ⟨⟨-, hex⟩, hoffer, hA⟩ := h
  obtain ⟨op, r⟩ := e
  have hs' : s' = (s.exec B op).2 := by rw [hex]
  have hr : r = (s.exec B op).1 := by rw [hex]
  by_cases hop : ∃ c now, op = .pick c now
  · obtain ⟨c, now, rfl⟩ := hop
    obtain ⟨t, rest, hq, ht, hq'⟩ := pick_turn hi hoffer hA hne
    have hr' : r = some t := hr.trans ht
    have hlist : (s'.lists (.ready level)).filter A = rest ++ [t] := by rw [hs']; exact hq'
    rw [hq, hlist, hr']
    simp [picked]
  push Not at hop
  have hsame := exec_filter (B := B) hi hop hA (.ready level)
  have hpicked : picked (op, r) = [] := by
    cases op with
    | pick c now => exact absurd rfl (hop c now)
    | _ => rfl
  rw [hs', hsame, hpicked]
  simpa using hne

/-- As many picks as there are tasks pick each of them once, in the order of the queue. -/
theorem round_robin (hi : Inv s) (h : Run (RoundStep B A level) s tr s')
    (hlen : (tr.flatMap picked).length = ((s.lists (.ready level)).filter A).length) :
    tr.flatMap picked = ((s.lists (.ready level)).filter A).map some := by
  by_cases hne : (s.lists (.ready level)).filter A = []
  · rw [hne] at hlen ⊢
    exact eq_nil_of_length_eq_zero hlen
  obtain ⟨-, hq⟩ := h.conserved (fun s => ((s.lists (.ready level)).filter A).map some) picked picked
    (fun s => Inv s ∧ (s.lists (.ready level)).filter A ≠ []) ⟨hi, hne⟩ fun s e s' hs hstep =>
      ⟨⟨hstep.1.inv hs.1, (hstep.turn hs.1 hs.2).1⟩, (hstep.turn hs.1 hs.2).2⟩
  rw [flatMap_def] at hlen ⊢
  exact (append_inj hq (by simpa using hlen.symm)).1.symm

theorem Step.exec (op : Op T W) (hv : op.Valid s) : Step B s (op, (s.exec B op).1) (s.exec B op).2 :=
    ⟨hv, rfl⟩

omit [DecidableEq T] [DecidableEq W] in
theorem Inv.empty : Inv (empty T W) :=
  ⟨⟨fun _ => none, Linked.empty, fun _ ht => absurd ht Bool.false_ne_true, fun _ _ => rfl⟩, Timers.Ok.empty,
    fun _ ht => absurd ht Bool.false_ne_true⟩

omit [DecidableEq W] in
/-- A task that exists stands in one queue, once, and this queue is the one of its status and priority. -/
theorem Inv.home (hi : Inv s) (ht : s.live t = true) :
    ∃ q, Home (s.status t) (s.priority t) q ∧ (s.lists q).count t = 1 ∧ ∀ q', t ∈ s.lists q' → q' = q := by
  obtain ⟨place, hp⟩ := hi.placed
  obtain ⟨-, q, hq, hhome⟩ := hp.home t ht
  refine ⟨q, hhome, ?_, fun q' hq' => ?_⟩
  · exact count_eq_one_of_mem (hp.linked.nodup q) ((hp.linked.mem_iff t q).mpr hq)
  · have := (hp.linked.mem_iff t q').mp hq'
    rw [hq] at this
    exact (Option.some.inj this).symm

/-- In every run of the scheduler, each task that exists stands in the one queue of its status and priority; a pick
returns the first available task of the highest level that has one and puts it to the tail, so that as many picks as
tasks are available pick each of them once if nothing else moves them; the timer tree is ordered and has one node of
each armed task; and the timers that fire are those that are due. -/
theorem scheduler_runs (B : Balancing T) {tr : List (Op T W × Option T)} (h : Run (Step B) (State.empty T W) tr s) :
    (∀ t, s.live t = true →
      ∃ q, Home (s.status t) (s.priority t) q ∧ (s.lists q).count t = 1 ∧ ∀ q', t ∈ s.lists q' → q' = q) ∧
    (∀ c now, PickSpec (s.fireBefore B c now) c (s.getNextTaskUnsafe B c now)) ∧
    (∀ A level tr' s', Run (RoundStep B A level) s tr' s' →
      (tr'.flatMap picked).length = ((s.lists (.ready level)).filter A).length →
      tr'.flatMap picked = ((s.lists (.ready level)).filter A).map some ∧ (tr'.flatMap picked).Nodup) ∧ s.timers.Ok ∧
    ∀ now, (∀ t, (s.fireTimers B now).timers.armed t = true ↔ s.timers.armed t = true ∧ now < s.timers.due t) ∧
      (∀ t, Woken s now t → (s.fireTimers B now).status t = .ready) ∧
      (∀ t, ¬Woken s now t → (s.fireTimers B now).status t = s.status t) ∧
      ∀ A : T → Bool, (∀ t, Woken s now t → A t = false) →
        ∀ q, ((s.fireTimers B now).lists q).filter A = (s.lists q).filter A := by
  have hi := h.invariant_state Inv Inv.empty fun _ _ _ hi hs => hs.inv hi
  refine ⟨fun t => hi.home, fun c now => getNext_spec s c now, fun A level tr' s' hr hlen => ?_, hi.timers,
    fun now => fireTimers_spec hi now⟩
  have hround := round_robin hi hr hlen
  obtain ⟨place, hp⟩ := hi.placed
  refine ⟨hround, ?_⟩
  rw [hround]
  exact ((hp.linked.nodup _).filter _).map (Option.some_injective T)

end

/-! ### Three tasks -/

inductive Three
  | a
  | b
  | c
  deriving DecidableEq

instance {p : Three → Prop} [DecidablePred p] : Decidable (∀ u, p u) :=
  decidable_of_iff (p .a ∧ p .b ∧ p .c)
    ⟨fun h u => by cases u; exacts [h.1, h.2.1, h.2.2], fun h => ⟨h .a, h .b, h .c⟩⟩

/-- A processor that runs the task and finds no obstacle for any other. -/
def plainCpu (t : Three) : Cpu Three := ⟨t, 0, fun _ => false, fun _ => 0, fun _ => 0, fun _ => 0, fun _ => 0⟩

/-- Three tasks of the middle level; the second has slept with a deadline and was woken before it. -/
def threeTasks : List (Op Three Unit) :=
  [.create .a 1 psNormal false, .create .b 2 psNormal false, .create .c 3 psNormal false, .arm .b 5, .wait .b none,
    .wake .b]

def threeState : State Three Unit := threeTasks.foldl (fun s op => (s.exec (.none _) op).2) (State.empty Three Unit)

example : threeState.lists (.ready psNormal) = [.a, .c, .b] := by decide

private theorem threeState_reached : ∃ tr, Run (Step (.none _)) (empty Three Unit) tr threeState := by
  have h0 : Run (Step (.none _)) (empty Three Unit) [] (empty Three Unit) := .nil
  have h1 := h0.snoc (.exec (.create .a 1 psNormal false) ⟨rfl, by decide⟩)
  have h2 := h1.snoc (.exec (.create .b 2 psNormal false) ⟨rfl, by decide⟩)
  have h3 := h2.snoc (.exec (.create .c 3 psNormal false) ⟨rfl, by decide⟩)
  exact ⟨_, ((h3.snoc (.exec (.arm Three.b 5) rfl)).snoc (.exec (.wait Three.b none) rfl)).snoc
    (.exec (.wake Three.b) rfl)⟩

variable {s : State Three Unit}

theorem RoundStep.plain {A : Three → Bool} {level : Fin 3} (t : Three) (now : Nat)
    (hoffer : Offers (.none _) A level s (.pick (plainCpu t) now)) (hno : ∀ u, ¬Woken (s.yield t) now u) :
    RoundStep (.none _) A level s (.pick (plainCpu t) now, (s.taskSched (.none _) (plainCpu t) now).1)
      (s.taskSched (.none _) (plainCpu t) now).2 :=
  ⟨.exec (.pick (plainCpu t) now) trivial, hoffer, fun u _ hm => hno u hm.2⟩

theorem scheduler_runs_three : ∃ tr s', Run (RoundStep (.none _) (fun _ => true) psNormal) threeState tr s' ∧
    tr.flatMap picked = [some .a, some .c, some .b] := by
  obtain ⟨_, hreach⟩ := threeState_reached
  have h0 : Run (RoundStep (.none _) (fun _ => true) psNormal) threeState [] threeState := .nil
  have h1 := h0.snoc (.plain .c 0 ⟨by decide, by decide⟩ (by decide))
  have h2 := h1.snoc (.plain .a 0 ⟨by decide, by decide⟩ (by decide))
  have h3 := h2.snoc (.plain .c 0 ⟨by decide, by decide⟩ (by decide))
  exact ⟨_, _, h3, ((scheduler_runs _ hreach).2.2.1 _ _ _ _ h3 (by decide)).1⟩

/-- A pick that finds the three tasks available. -/
def ThreeAvailable (s : State Three Unit) (e : Op Three Unit × Option Three) (s' : State Three Unit) : Prop :=
  Step (.none _) s e s' ∧ ∃ c now, e.1 = .pick c now ∧ Offers (.none _) (fun _ => true) psNormal s e.1 ∧
    ∀ u, u ∈ ((s.yield c.cur).fireBefore (.none _) c now).lists (.ready psNormal)

theorem ThreeAvailable.pick (t : Three) (now : Nat)
    (hoffer : Offers (.none _) (fun _ => true) psNormal s (.pick (plainCpu t) now))
    (hall : ∀ u, u ∈ ((s.yield t).fireBefore (.none _) (plainCpu t) now).lists (.ready psNormal)) :
    ThreeAvailable s (.pick (plainCpu t) now, (s.taskSched (.none _) (plainCpu t) now).1)
      (s.taskSched (.none _) (plainCpu t) now).2 :=
  ⟨.exec (.pick (plainCpu t) now) trivial, _, _, rfl, hoffer, hall⟩

/-- The deadline of the second task passes before the second pick: all three are available at each of the three picks,
the first is picked twice and the second is not picked. -/
theorem stale_timer_loses_turn : (∃ tr, Run (Step (.none _)) (State.empty Three Unit) tr threeState) ∧
      ∃ tr s', Run ThreeAvailable threeState tr s' ∧ tr.flatMap picked = [some .a, some .c, some .a] := by
  refine ⟨threeState_reached, ?_⟩
  have h0 : Run ThreeAvailable threeState [] threeState := .nil
  have h1 := h0.snoc (.pick .c 0 ⟨by decide, by decide⟩ (by decide))
  have h2 := h1.snoc (.pick .a 5 ⟨by decide, by decide⟩ (by decide))
  have h3 := h2.snoc (.pick .c 5 ⟨by decide, by decide⟩ (by decide))
  exact ⟨_, _, h3, by decide⟩

end Mos.Sched
