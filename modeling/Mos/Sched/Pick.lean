import Mos.Lib.Run
import Mos.Sched.Queues
import Mathlib.Data.BitVec

/-!
# Picking the next task

`ps_fire_timers_unsafe`, `ps_get_next_task_unsafe` and `task_sched` of the scheduler, and runs of all its steps.
Before a task is picked, the tasks whose deadline has passed are put to their ready queues; then the ready queues are
scanned from the highest level down, and the first task that is available goes to the tail of its queue.

What a processor knows of the tasks besides the state of the scheduler is found as it is at each pick (`Cpu`).
-/

namespace Mos.Sched

open Lib Function List Timers State

/-- What `ps_task_available` reads besides the status and the priority. -/
structure Cpu (T : Type) where
  cur : T
  id : Nat
  terminateRequested : T → Bool
  vmLockDepth : T → Nat
  onCpu : T → Nat
  affinityMask : T → BitVec 32
  param : T → Nat

section

variable {T W : Type} [DecidableEq T] [DecidableEq W] (B : Balancing T)

def State.taskAvailable (s : State T W) (c : Cpu T) (t : T) : Bool :=
  (s.status t = .ready ∨ t = c.cur) ∧ (¬c.terminateRequested t ∨ c.vmLockDepth t ≠ 0) ∧ (c.onCpu t = 0 ∨ t = c.cur) ∧
    (c.affinityMask t = 0 ∨ c.affinityMask t &&& (1 <<< c.id) ≠ 0) ∧ (s.priority t ≠ psIdle ∨ c.param t = c.id)

/-- One round of the loop of `ps_fire_timers_unsafe`. -/
def State.expire (s : State T W) (t : T) : State T W :=
  { s with timers := s.timers.clear B t }.putToReadyQueueUnsafe t

/-- The loop of `ps_fire_timers_unsafe`: the next node is read before the current one is erased. -/
def fireLoop (now : Nat) : Nat → Option T → State T W → State T W
  | 0, _, s => s
  | _ + 1, none, s => s
  | fuel + 1, some t, s =>
    if s.timers.due t > now then s else fireLoop now fuel (s.timers.tree.next t) (s.expire B t)

def State.fireTimers (s : State T W) (now : Nat) : State T W :=
  fireLoop B now s.timers.tree.toList.length s.timers.tree.first s

/-- `ps_get_available_ready_task`. -/
def State.getAvailableReadyTask (s : State T W) (c : Cpu T) (level : Fin 3) : Option T × State T W :=
  match (s.lists (.ready level)).find? (s.taskAvailable c) with
  | some t =>
    (some t, { s with lists := update s.lists (.ready level) ((s.lists (.ready level)).erase t ++ [t]) })
  | none => (none, s)

def State.scan (s : State T W) (c : Cpu T) : List (Fin 3) → Option T × State T W
  | [] => (none, s)
  | level :: levels =>
    if s.lists (.ready level) = [] then s.scan c levels
    else match s.getAvailableReadyTask c level with
    | (some t, s') => (some t, s')
    | (none, s') => s'.scan c levels

/-- What `ps_get_next_task_unsafe` does before the scan. -/
def State.fireBefore (s : State T W) (c : Cpu T) (now : Nat) : State T W :=
  if s.psid c.cur ≠ noPsid then s.fireTimers B now else s

def State.getNextTaskUnsafe (s : State T W) (c : Cpu T) (now : Nat) : Option T × State T W :=
  (s.fireBefore B c now).scan c [psDeferred, psNormal, psIdle]

/-- The current task is no longer running. -/
def State.yield (s : State T W) (t : T) : State T W := if s.status t = .running then s.setStatus t .ready else s

/-- `task_sched` up to the switch. -/
def State.taskSched (s : State T W) (c : Cpu T) (now : Nat) : Option T × State T W :=
  match (s.yield c.cur).getNextTaskUnsafe B c now with
  | (some t, s') => (some t, s'.setStatus t .running)
  | (none, s') => (none, s')

inductive Op (T W : Type)
  | create (t : T) (psid : Nat) (priority : Fin 3) (first : Bool)
  | wait (t : T) (w : Option W)
  | wake (t : T)
  | wakeUnsafe (t : T)
  | dying (t : T) (parent : Option T)
  | arm (t : T) (due : Nat)
  | disarm (t : T)
  | fire (now : Nat)
  | pick (c : Cpu T) (now : Nat)

def State.exec (s : State T W) : Op T W → Option T × State T W
  | .create t psid priority first =>
    let s := s.create t psid priority
    (none, if first then s.enqueueChildFirst t else s.putToReadyQueueUnsafe t)
  | .wait t w => (none, s.putToWaitQueueUnsafe t w)
  | .wake t => (none, s.putToReadyQueue t)
  | .wakeUnsafe t => (none, s.putToReadyQueueUnsafe t)
  | .dying t parent => (none, s.putToDyingQueueUnsafe B t parent)
  | .arm t due => (none, { s with timers := s.timers.arm B t due })
  | .disarm t => (none, { s with timers := s.timers.disarm B t })
  | .fire now => (none, s.fireTimers B now)
  | .pick c now => s.taskSched B c now

/-- Tasks are created once, with a number, and the other steps are about tasks that exist; a dying task has a
parent. -/
def Op.Valid (s : State T W) : Op T W → Prop
  | .create t psid _ _ => s.live t = false ∧ psid ≠ noPsid
  | .wait t _ | .wake t | .wakeUnsafe t | .arm t _ | .disarm t => s.live t = true
  | .dying t parent => s.live t = true ∧ parent ≠ none
  | .fire _ | .pick _ _ => True

def Step (s : State T W) (e : Op T W × Option T) (s' : State T W) : Prop := e.1.Valid s ∧ s.exec B e.1 = (e.2, s')

/-! ### Timers that expire -/

structure Inv (s : State T W) : Prop where
  placed : ∃ place, Placed s place
  timers : s.timers.Ok
  armed : ∀ t, s.timers.armed t = true → s.live t = true

variable {B} {s s' : State T W} {c : Cpu T} {t : T} {now : Nat}

/-- The task is to be woken: its deadline has passed, and it is not dying. -/
def Woken (s : State T W) (now : Nat) (t : T) : Prop :=
  s.timers.armed t = true ∧ s.timers.due t ≤ now ∧ s.status t ≠ .dying

theorem Inv.putToReadyQueueUnsafe (hi : Inv s) (ht : s.live t = true) : Inv (s.putToReadyQueueUnsafe t) := by
  obtain ⟨place, hp⟩ := hi.placed
  obtain ⟨-, -, hlive, htimers⟩ := putReady_rest s t
  refine ⟨hp.putToReadyQueueUnsafe ht, by rw [htimers]; exact hi.timers, fun u hu => ?_⟩
  rw [hlive]
  rw [htimers] at hu
  exact hi.armed u hu

omit [DecidableEq T] [DecidableEq W] in
theorem Inv.setTimers (hi : Inv s) {tm : Timers T} (hok : tm.Ok)
    (harm : ∀ t, tm.armed t = true → s.live t = true) : Inv { s with timers := tm } := by
  obtain ⟨place, hp⟩ := hi.placed
  exact ⟨⟨place, { hp with }⟩, hok, harm⟩

theorem Inv.expire (hi : Inv s) (ht : s.timers.armed t = true) : Inv (s.expire B t) := by
  refine Inv.putToReadyQueueUnsafe (hi.setTimers (hi.timers.clear ht) fun u hu => ?_) (hi.armed t ht)
  by_cases hut : u = t
  · rw [hut]
    exact hi.armed t ht
  · refine hi.armed u ?_
    simpa [clear, hut] using hu

private theorem expire_timers (s : State T W) (t : T) : (s.expire B t).timers = s.timers.clear B t :=
  (putReady_rest { s with timers := s.timers.clear B t } t).2.2.2

/-- What has changed after the tasks of a list have expired. -/
structure Expired (s : State T W) (d : List T) (s' : State T W) : Prop where
  inv : Inv s'
  armed : ∀ t, s'.timers.armed t = (s.timers.armed t && decide (t ∉ d))
  due : ∀ t, t ∉ d → s'.timers.due t = s.timers.due t
  status : ∀ t, s'.status t = if t ∈ d ∧ s.status t ≠ .dying then .ready else s.status t
  priority : s'.priority = s.priority
  psid : s'.psid = s.psid
  live : s'.live = s.live
  others : ∀ A : T → Bool, (∀ t ∈ d, s.status t ≠ .dying → A t = false) →
    ∀ q, (s'.lists q).filter A = (s.lists q).filter A

private theorem expired_foldl {d : List T} (hi : Inv s) (hd : d.Nodup) (harm : ∀ t ∈ d, s.timers.armed t = true) :
    Expired s d (d.foldl (expire B) s) := by
  induction d generalizing s with
  | nil => exact ⟨hi, by simp, fun _ _ => rfl, by simp, rfl, rfl, rfl, fun _ _ _ => rfl⟩
  | cons t d ih =>
    obtain ⟨hno, hd⟩ := nodup_cons.1 hd
    have ht := harm t mem_cons_self
    have htm := expire_timers (B := B) s t
    obtain ⟨hpri, hpsid, hlive, -⟩ := putReady_rest { s with timers := s.timers.clear B t } t
    have hstatus : ∀ u, (s.expire B t).status u = if u = t ∧ s.status u ≠ .dying then .ready else s.status u :=
      putReady_status { s with timers := s.timers.clear B t } t
    have hne : ∀ u ∈ d, u ≠ t := fun u hu he => hno (he ▸ hu)
    have hrest := ih (hi.expire ht) hd fun u hu => by
      rw [htm]
      simpa [clear, hne u hu] using harm u (mem_cons_of_mem _ hu)
    refine ⟨hrest.inv, fun u => ?_, fun u hu => ?_, fun u => ?_, hrest.priority.trans hpri, hrest.psid.trans hpsid,
      hrest.live.trans hlive, fun A hA q => ?_⟩
    · rw [foldl_cons, hrest.armed, htm]
      by_cases hu : u = t
      · simp [clear, hu]
      · simp [clear, hu]
    · rw [mem_cons, not_or] at hu
      rw [foldl_cons, hrest.due u hu.2, htm]
      exact update_of_ne hu.1 _ _
    · rw [foldl_cons, hrest.status, hstatus]
      by_cases hu : u = t
      · subst hu
        by_cases hdy : s.status u = .dying
        · simp [hdy]
        · simp [hdy, hno]
      · simp [hu]
    · have hfirst : ((s.expire B t).lists q).filter A = (s.lists q).filter A :=
        putReady_filter { s with timers := s.timers.clear B t } (hA t mem_cons_self) q
      rw [foldl_cons, hrest.others A (fun u hu hst => ?_) q, hfirst]
      refine hA u (mem_cons_of_mem _ hu) ?_
      rwa [hstatus, if_neg (fun h => hne u hu h.1)] at hst

private theorem fireLoop_eq (l : List T) {n : Nat} (hi : Inv s) (hl : s.timers.tree.toList = l) (hn : l.length ≤ n) :
    fireLoop B now n l.head? s = (l.filter fun t => s.timers.due t ≤ now).foldl (expire B) s := by
  induction l generalizing n s with
  | nil => cases n <;> rfl
  | cons t l ih =>
    obtain ⟨n, rfl⟩ : ∃ m, n = m + 1 := ⟨n - 1, by simp at hn; omega⟩
    obtain ⟨hno, -⟩ := nodup_cons.1 (hl ▸ hi.timers.nodup)
    have ht : s.timers.armed t = true := (hi.timers.mem_iff t).mp (by simp [hl])
    rw [List.head?_cons, fireLoop]
    by_cases hdue : s.timers.due t ≤ now
    · rw [if_neg (by omega), filter_cons_of_pos (by simpa using hdue), foldl_cons, Tree.next_first hl]
      have htree : (s.expire B t).timers.tree.toList = l := by
        rw [expire_timers, clear_toList hi.timers ht, hl, erase_cons_head]
      rw [ih (hi.expire ht) htree (by simpa using hn)]
      congr 1
      refine filter_congr fun u hu => ?_
      have hut : u ≠ t := fun h => hno (h ▸ hu)
      simp only [expire_timers, clear, update_of_ne hut]
    · -- the tree is ordered, so that the later ones are not due either
      have hsort := hi.timers.sorted
      rw [hl] at hsort
      have hlater := (pairwise_cons.1 hsort).1
      have hnone : (t :: l).filter (fun t => s.timers.due t ≤ now) = [] := by
        refine filter_eq_nil_iff.2 fun u hu => ?_
        rcases mem_cons.1 hu with rfl | hu
        · simpa using hdue
        · have := hlater u hu
          simp
          omega
      rw [if_pos (by omega), hnone]
      rfl

/-- `ps_fire_timers_unsafe` expires exactly the tasks whose deadline has passed. -/
theorem fireTimers_expired (hi : Inv s) (now : Nat) :
    Expired s (s.timers.tree.toList.filter fun t => s.timers.due t ≤ now) (s.fireTimers B now) := by
  have heq : s.fireTimers B now = _ := fireLoop_eq _ hi rfl le_rfl
  rw [heq]
  refine expired_foldl hi (hi.timers.nodup.filter _) fun t ht => ?_
  exact (hi.timers.mem_iff t).mp (mem_of_mem_filter ht)

omit [DecidableEq T] [DecidableEq W] in
private theorem mem_due (hi : Inv s) (t : T) : t ∈ (s.timers.tree.toList.filter fun t => s.timers.due t ≤ now) ↔
      s.timers.armed t = true ∧ s.timers.due t ≤ now := by
  rw [mem_filter, hi.timers.mem_iff, decide_eq_true_eq]

/-- What `ps_fire_timers_unsafe` does: the timers that are due are gone, their tasks are ready, and everything else is
as it was. -/
theorem fireTimers_spec (hi : Inv s) (now : Nat) :
    let s' := s.fireTimers B now
    (∀ t, s'.timers.armed t = true ↔ s.timers.armed t = true ∧ now < s.timers.due t) ∧
      (∀ t, Woken s now t → s'.status t = .ready) ∧ (∀ t, ¬Woken s now t → s'.status t = s.status t) ∧
      ∀ A : T → Bool, (∀ t, Woken s now t → A t = false) → ∀ q, (s'.lists q).filter A = (s.lists q).filter A := by
  have he := fireTimers_expired (B := B) hi now
  have hw : ∀ t, (t ∈ (s.timers.tree.toList.filter fun t => s.timers.due t ≤ now) ∧ s.status t ≠ .dying) ↔
    Woken s now t := by
    intro t
    rw [mem_due hi, and_assoc]
    rfl
  refine ⟨fun t => ?_, fun t ht => ?_, fun t ht => ?_, fun A hA => he.others A fun t hd hs =>
    hA t ((hw t).mp ⟨hd, hs⟩)⟩
  · rw [he.armed, Bool.and_eq_true, decide_eq_true_eq, mem_due hi]
    constructor
    · rintro ⟨h1, h2⟩
      exact ⟨h1, by by_contra hle; exact h2 ⟨h1, by omega⟩⟩
    · rintro ⟨h1, h2⟩
      exact ⟨h1, fun h => by omega⟩
  · rw [he.status, if_pos ((hw t).mpr ht)]
  · rw [he.status, if_neg (mt (hw t).mp ht)]

/-- The task is the first available one of the highest level that has one, and goes to the tail of its queue. -/
def PickSpec (s : State T W) (c : Cpu T) : Option T × State T W → Prop
  | (none, s') => s' = s ∧ ∀ level, ∀ u ∈ s.lists (.ready level), s.taskAvailable c u = false
  | (some t, s') => ∃ level l₁ l₂, s.lists (.ready level) = l₁ ++ t :: l₂ ∧ s.taskAvailable c t = true ∧
      (∀ u ∈ l₁, s.taskAvailable c u = false) ∧
      (∀ higher > level, ∀ u ∈ s.lists (.ready higher), s.taskAvailable c u = false) ∧
      s' = { s with lists := update s.lists (.ready level) (l₁ ++ l₂ ++ [t]) }

private theorem scan_spec (levels : List (Fin 3)) (hsort : levels.Pairwise (· > ·))
    (hall : ∀ level, level ∉ levels → (∀ l ∈ levels, level > l) ∧
      ∀ u ∈ s.lists (.ready level), s.taskAvailable c u = false) : PickSpec s c (s.scan c levels) := by
  induction levels with
  | nil => exact ⟨rfl, fun level => (hall level not_mem_nil).2⟩
  | cons level levels ih =>
    obtain ⟨hlow, hsort⟩ := pairwise_cons.1 hsort
    -- with nothing available here the scan goes on below
    have hgo : (∀ u ∈ s.lists (.ready level), s.taskAvailable c u = false) → PickSpec s c (s.scan c levels) := by
      intro hnone
      refine ih hsort fun l hl => ?_
      by_cases h : l = level
      · subst h
        exact ⟨hlow, hnone⟩
      · obtain ⟨h1, h2⟩ := hall l (by simp [h, hl])
        exact ⟨fun l' hl' => h1 l' (mem_cons_of_mem _ hl'), h2⟩
    rw [State.scan]
    split_ifs with hempty
    · exact hgo (by simp [hempty])
    unfold getAvailableReadyTask
    cases hf : (s.lists (.ready level)).find? (s.taskAvailable c) with
    | none => exact hgo fun u hu => by simpa using List.find?_eq_none.1 hf u hu
    | some t =>
      obtain ⟨hav, l1, l2, heq, hbefore⟩ := List.find?_eq_some_iff_append.1 hf
      refine ⟨level, l1, l2, heq, hav, fun u hu => by simpa using hbefore u hu, fun higher hh => ?_, ?_⟩
      · refine (hall higher fun hm => ?_).2
        rcases mem_cons.1 hm with rfl | hm
        · exact absurd hh (by simp)
        · exact absurd (hlow higher hm) (not_lt.2 (le_of_lt hh))
      · have hno : t ∉ l1 := fun hm => by simpa [hav] using hbefore t hm
        rw [heq, erase_append_right _ hno, erase_cons_head]

theorem getNext_spec (s : State T W) (c : Cpu T) (now : Nat) :
    PickSpec (s.fireBefore B c now) c (s.getNextTaskUnsafe B c now) := by
  refine scan_spec [psDeferred, psNormal, psIdle] (by decide) fun level hl => absurd ?_ hl
  revert level
  decide

/-! ### The steps keep every task in its place -/

section

omit [DecidableEq T] [DecidableEq W]

theorem Inv.of_placed (hi : Inv s) (hp : ∃ place, Placed s' place) (htm : s'.timers = s.timers)
    (hlive : ∀ t, s.live t = true → s'.live t = true) : Inv s' :=
  ⟨hp, by rw [htm]; exact hi.timers, fun t ht => hlive t (hi.armed t (by rwa [htm] at ht))⟩

theorem Placed.of_mem_ready {place : T → Option (Queue T W)} (h : Placed s place) {level : Fin 3}
    (ht : t ∈ s.lists (.ready level)) : s.status t = .ready ∨ s.status t = .running := by
  have hplace := (h.linked.mem_iff t _).mp ht
  have hlive : s.live t = true := by
    by_contra hno
    rw [h.dead t (by simpa using hno)] at hplace
    cases hplace
  obtain ⟨-, q, hq, hhome⟩ := h.home t hlive
  rw [hplace] at hq
  cases hq
  cases hst : s.status t with
  | ready => exact .inl rfl
  | running => exact .inr rfl
  | waiting | dying =>
    rw [hst] at hhome
    obtain ⟨_, ⟨⟩⟩ := hhome

end

section

variable (hi : Inv s)

include hi

omit [DecidableEq W] in
theorem Inv.yield (t : T) : Inv (s.yield t) := by
  obtain ⟨place, hp⟩ := hi.placed
  unfold State.yield
  split_ifs with hrun
  · refine hi.of_placed ⟨place, hp.relabel fun q hq => ?_⟩ rfl fun _ => id
    rw [hrun] at hq
    exact hq
  · exact hi

theorem Inv.fireBefore (c : Cpu T) (now : Nat) : Inv (s.fireBefore B c now) := by
  unfold State.fireBefore
  split_ifs
  · exact (fireTimers_expired hi now).inv
  · exact hi

theorem Inv.taskSched (c : Cpu T) (now : Nat) : Inv (s.taskSched B c now).2 := by
  have hf := (hi.yield c.cur).fireBefore (B := B) c now
  have hspec := getNext_spec (B := B) (s.yield c.cur) c now
  unfold State.taskSched
  generalize (s.yield c.cur).getNextTaskUnsafe B c now = r at hspec ⊢
  generalize (s.yield c.cur).fireBefore B c now = f at hf hspec
  obtain ⟨_ | t, s'⟩ := r
  · rw [hspec.1]
    exact hf
  obtain ⟨level, l1, l2, heq, -, -, -, rfl⟩ := hspec
  obtain ⟨place, hp⟩ := hf.placed
  have ht : t ∈ f.lists (.ready level) := by simp [heq]
  have hst := hp.of_mem_ready ht
  have hturn : (l1 ++ l2 ++ [t]).Perm (f.lists (.ready level)) := by
    rw [heq, append_assoc]
    exact (perm_append_singleton t l2).append_left l1
  have hp' : Placed { f with lists := update f.lists (.ready level) (l1 ++ l2 ++ [t]) } place :=
    { hp with linked := hp.linked.reorder hturn }
  refine hf.of_placed ⟨place, hp'.relabel fun q hq => ?_⟩ rfl fun _ => id
  rcases hst with hst | hst
  · simp only [hst] at hq
    exact hq
  · simp only [hst] at hq
    exact hq

omit [DecidableEq W] in
theorem Inv.disarm (t : T) : Inv { s with timers := s.timers.disarm B t } := by
  refine hi.setTimers (hi.timers.disarm t).1 fun u hu => hi.armed u ?_
  unfold Timers.disarm at hu
  split_ifs at hu
  · by_cases hut : u = t
    · simp [Timers.clear, hut] at hu
    · simpa [Timers.clear, hut] using hu
  · exact hu

omit [DecidableEq W] in
theorem Inv.arm (ht : s.live t = true) (due : Nat) : Inv { s with timers := s.timers.arm B t due } := by
  refine hi.setTimers (hi.timers.arm t due) fun u hu => ?_
  by_cases hut : u = t
  · rwa [hut]
  · refine (hi.disarm (B := B) t).armed u ?_
    simpa [Timers.arm, hut] using hu

theorem Inv.dying (ht : s.live t = true) (p : T) : Inv (s.putToDyingQueueUnsafe B t (some p)) := by
  obtain ⟨place, hp⟩ := hi.placed
  obtain ⟨-, hok, harm⟩ := hi.disarm t
  obtain ⟨hlive, htm⟩ := move_rest s (.dying p) t
  have htm' : (s.putToDyingQueueUnsafe B t (some p)).timers = s.timers.disarm B t :=
    congrArg (Timers.disarm B · t) htm
  refine ⟨hp.putToDyingQueueUnsafe B ht p, ?_, fun u hu => ?_⟩
  · rw [htm']
    exact hok
  · rw [htm'] at hu
    exact (congrFun hlive u).trans (harm u hu)

theorem Inv.create (ht : s.live t = false) {psid : Nat} (hpsid : psid ≠ noPsid) (priority : Fin 3) :
    Inv ((s.create t psid priority).putToReadyQueueUnsafe t) ∧
    Inv ((s.create t psid priority).enqueueChildFirst t) := by
  obtain ⟨place, hp⟩ := hi.placed
  obtain ⟨htail, hhead⟩ := hp.enqueue ht hpsid priority
  obtain ⟨-, -, hlive, htm⟩ := putReady_rest (s.create t psid priority) t
  have hkeep : ∀ u, s.live u = true → ((s.create t psid priority).putToReadyQueueUnsafe t).live u = true := by
    intro u hu
    rw [hlive]
    by_cases hut : u = t
    · simp [State.create, hut]
    · simpa [State.create, hut] using hu
  exact ⟨hi.of_placed htail htm hkeep, hi.of_placed hhead htm hkeep⟩

end

theorem Step.inv {e : Op T W × Option T} (h : Step B s e s') (hi : Inv s) : Inv s' := by
  obtain ⟨op, r⟩ := e
  obtain ⟨hv, hex⟩ := h
  obtain ⟨place, hp⟩ := hi.placed
  have hs' : s' = (s.exec B op).2 := by rw [hex]
  subst hs'
  cases op with
  | create t psid priority first =>
    obtain ⟨htail, hhead⟩ := hi.create hv.1 hv.2 priority
    cases first with
    | false => exact htail
    | true => exact hhead
  | wait t w =>
    obtain ⟨hlive, htm⟩ := move_rest s (.wait w) t
    exact hi.of_placed (hp.putToWaitQueueUnsafe hv w) htm fun u hu => (congrFun hlive u).trans hu
  | wake t =>
    show Inv (s.putToReadyQueue t)
    unfold putToReadyQueue
    split_ifs
    · exact hi.putToReadyQueueUnsafe hv
    · exact hi
  | wakeUnsafe t => exact hi.putToReadyQueueUnsafe hv
  | dying t parent =>
    obtain ⟨p, rfl⟩ := Option.ne_none_iff_exists'.1 hv.2
    exact hi.dying hv.1 p
  | arm t due => exact hi.arm hv due
  | disarm t => exact hi.disarm t
  | fire now => exact (fireTimers_expired hi now).inv
  | pick c now => exact hi.taskSched c now

end

end Mos.Sched
