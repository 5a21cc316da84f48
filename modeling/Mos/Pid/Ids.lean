import Mos.Lib.Run
import Mathlib.Tactic

/-!
# Process IDs

`ps_id_gen` and `ps_id_free` of `src/ps/impl/ps.c` with the callers that create, remove and regroup tasks.  A created
task takes its ID first and enters the task table later; removing a task frees its ID, whoever is named after it.
-/

namespace Mos.Pid

open Lib Function List Option

def pidMax : Nat := 32768

/-- The failure value `(unsigned)-1` of `ps_id_gen`. -/
def noId : Nat := 2 ^ 32 - 1

/-- The IDs in a `thread` structure, which the tasks of a thread group share. -/
structure Group where
  tgid : Nat
  pgid : Nat
  sid : Nat
  deriving DecidableEq

def Group.names (g : Group) (i : Nat) : Prop := i = g.tgid ∨ i = g.pgid ∨ i = g.sid

instance (g : Group) (i : Nat) : Decidable (g.names i) := inferInstanceAs (Decidable (_ ∨ _))

structure Task where
  psid : Nat
  group : Nat
  runnable : Bool
  deriving DecidableEq

/-- `used` is `pid_bitmap`; `tasks` has the tasks of the table and those still being created. -/
structure State where
  used : Nat → Bool
  last : Nat
  tasks : List Task
  groups : Nat → Group
  nextGroup : Nat

/-- The state with the idle task alone. -/
def boot : State := ⟨fun i => i == 0, 0, [⟨0, 0, true⟩], fun _ => ⟨0, 0, 0⟩, 1⟩

/-- The loop of `ps_id_gen`. -/
def scan (used : Nat → Bool) (start : Nat) : Nat → Nat → Option Nat
  | 0, _ => none
  | fuel + 1, pid =>
    if pid = start then none
    else if used pid then scan used start fuel (if pid + 1 ≥ pidMax then 0 else pid + 1)
    else some pid

def psIdGen (s : State) : Option Nat := scan s.used s.last pidMax (if s.last + 1 ≥ pidMax then 1 else s.last + 1)

inductive Op
  | kernel
  | fork (parent : Task)
  | thread (parent : Task)
  | publish (t : Task)
  | abort (t : Task)
  | reap (t : Task)
  | setpgid (t : Task) (pgid : Nat)
  | setsid (t : Task)

/-- `fork_alloc_child` and the copy of the parent's `thread`; a failed `ps_id_gen` is not noticed. -/
def State.create (s : State) (group : Nat) (mk : Nat → Option Group) : State :=
  let id := (psIdGen s).getD noId
  { used := if (psIdGen s).isSome then update s.used id true else s.used
    last := (psIdGen s).getD s.last
    tasks := ⟨id, group, false⟩ :: s.tasks
    groups := (mk id).elim s.groups (update s.groups group)
    nextGroup := if (mk id).isSome then s.nextGroup + 1 else s.nextGroup }

/-- `ps_id_free` and the removal of the task. -/
def State.remove (s : State) (t : Task) : State :=
  { s with used := update s.used t.psid false, tasks := s.tasks.erase t }

def State.regroup (s : State) (t : Task) (f : Group → Group) : State :=
  { s with groups := update s.groups t.group (f (s.groups t.group)) }

def exec (s : State) : Op → Option State
  | .kernel => some (s.create s.nextGroup fun id => some ⟨id, 0, 0⟩)
  | .fork p =>
    if p ∈ s.tasks ∧ p.runnable then
      some (s.create s.nextGroup fun id => some ⟨id, (s.groups p.group).pgid, (s.groups p.group).sid⟩)
    else none
  | .thread p => if p ∈ s.tasks ∧ p.runnable then some (s.create p.group fun _ => none) else none
  | .publish t =>
    if t ∈ s.tasks ∧ !t.runnable then some { s with tasks := { t with runnable := true } :: s.tasks.erase t } else
      none
  | .abort t => if t ∈ s.tasks ∧ !t.runnable then some (s.remove t) else none
  | .reap t => if t ∈ s.tasks ∧ t.runnable then some (s.remove t) else none
  | .setpgid t pgid =>
    if t ∈ s.tasks ∧ t.runnable then some (s.regroup t fun g => { g with pgid := if pgid = 0 then g.tgid else pgid })
    else none
  | .setsid t =>
    if t ∈ s.tasks ∧ t.runnable then some (s.regroup t fun g => { g with sid := g.tgid, pgid := g.tgid }) else none

/-- The IDs `ps_id_gen` looks at. -/
def Candidate (s : State) (i : Nat) : Prop := i < pidMax ∧ i ≠ s.last ∧ (s.last + 1 = pidMax → i ≠ 0)

/-- A creation finds a free ID, a removed task is not the idle task and leaves nobody named after it, and a process
joins a group that exists. -/
def Allowed (s : State) : Op → Prop
  | .kernel | .fork _ | .thread _ => ∃ i, Candidate s i ∧ s.used i = false
  | .reap t => t.psid ≠ 0 ∧ ∀ u ∈ s.tasks, u ≠ t → ¬(s.groups u.group).names t.psid
  | .setpgid _ pgid =>
    pgid = 0 ∨ ∃ u ∈ s.tasks, u.runnable = true ∧ (u.psid = pgid ∨ (s.groups u.group).names pgid)
  | _ => True

/-- The ID of the task is its own. -/
def Distinct (s : State) (t : Task) : Prop :=
  t.psid < pidMax ∧ ∀ u ∈ s.tasks, u ≠ t →
    u.psid ≠ t.psid ∧ (u.group ≠ t.group → ¬(s.groups u.group).names t.psid)

variable {used : Nat → Bool} {start fuel pid i : Nat}

private theorem scan_some (h : scan used start fuel pid = some i) (hpid : pid < pidMax) : i < pidMax ∧
    used i = false := by
  induction fuel generalizing pid with
  | zero => cases h
  | succ fuel ih =>
    rw [scan] at h
    split_ifs at h with h1 h2 h3
    · exact ih h (by decide)
    · exact ih h (by omega)
    · cases h
      exact ⟨hpid, by simpa using h2⟩

/-- The steps from `pid` to `i` around the end. -/
def steps (pid i : Nat) : Nat := if pid ≤ i then i - pid else i + pidMax - pid

private theorem scan_ne_none (hpid : pid < pidMax) (hi : i < pidMax)
    (hs : start < pidMax) (hfree : used i = false) (hlt : steps pid i < steps pid start)
    (hfuel : steps pid i < fuel) :
    scan used start fuel pid ≠ none := by
  induction fuel generalizing pid with
  | zero => omega
  | succ fuel ih =>
    rw [scan]
    unfold steps at *
    split_ifs with h1 h2 h3
    · subst h1
      simp at hlt
    · exact ih (by decide) (by unfold pidMax at *; grind) (by unfold pidMax at *; grind)
    · exact ih (by omega) (by unfold pidMax at *; grind) (by unfold pidMax at *; grind)
    · simp

/-- `ps_id_gen` looks at all IDs but the last one it gave away, and 0. -/
theorem psIdGen_ne_none {s : State} (h : s.last < pidMax) (hi : Candidate s i) (hfree : s.used i = false) :
    psIdGen s ≠ none := by
  obtain ⟨h1, h2, h3⟩ := hi
  unfold psIdGen
  split_ifs with hl
  · refine scan_ne_none (by decide) h1 h hfree ?_ ?_ <;> unfold steps pidMax at * <;> split_ifs <;> omega
  · refine scan_ne_none (by omega) h1 h hfree ?_ ?_ <;> unfold steps pidMax at * <;> split_ifs <;> omega

/-! ### Runs -/

/-- In use, and not the ID of a task that is being created. -/
def Taken (s : State) (i : Nat) : Prop := s.used i = true ∧ ∀ t ∈ s.tasks, t.runnable = false → t.psid ≠ i

structure Inv (s : State) : Prop where
  last : s.last < pidMax
  idle : ⟨0, 0, true⟩ ∈ s.tasks
  nodup : (s.tasks.map Task.psid).Nodup
  psid : ∀ t ∈ s.tasks, t.psid < pidMax ∧ s.used t.psid = true
  group : ∀ t ∈ s.tasks, t.group < s.nextGroup
  named : ∀ u ∈ s.tasks, ∀ i, (s.groups u.group).names i →
    s.used i = true ∧ ∀ t ∈ s.tasks, t.runnable = false → t ≠ u → t.psid ≠ i

variable {s s' : State} {t u : Task} {i : Nat}

theorem Inv.boot : Inv boot := by
  constructor <;> simp [Pid.boot, pidMax, Group.names]

section

variable (h : Inv s)

include h

theorem Inv.eq_of_psid (ht : t ∈ s.tasks) (hu : u ∈ s.tasks) (he : t.psid = u.psid) : t = u :=
  inj_on_of_nodup_map h.nodup ht hu he

theorem Inv.mem_erase : u ∈ s.tasks.erase t ↔ u ≠ t ∧ u ∈ s.tasks := (h.nodup.of_map _).mem_erase_iff

theorem Inv.taken (hu : u ∈ s.tasks) (hr : u.runnable = true)
    (hi : u.psid = i ∨ (s.groups u.group).names i) : Taken s i := by
  have hne : ∀ t ∈ s.tasks, t.runnable = false → t ≠ u := by
    rintro t - hf rfl
    simp [hr] at hf
  rcases hi with rfl | hi
  · exact ⟨(h.psid u hu).2, fun t ht hf he => hne t ht hf (h.eq_of_psid ht hu he)⟩
  · obtain ⟨h1, h2⟩ := h.named u hu i hi
    exact ⟨h1, fun t ht hf => h2 t ht hf (hne t ht hf)⟩

theorem Inv.create (hfree : ∃ i, Candidate s i ∧ s.used i = false) {g : Nat} {mk : Nat → Option Group}
    (hmk : (∀ id, mk id = none) ∧ (∃ p ∈ s.tasks, p.runnable = true ∧ p.group = g) ∨
      g = s.nextGroup ∧ ∀ id, ∃ G, mk id = some G ∧ ∀ i, G.names i → i = id ∨ Taken s i) : Inv (s.create g mk) := by
  obtain ⟨i, hc, hi⟩ := hfree
  obtain ⟨id, hid⟩ := ne_none_iff_exists'.1 (psIdGen_ne_none h.last hc hi)
  obtain ⟨hlt, hun⟩ := scan_some hid (by have := h.last; unfold pidMax at *; split_ifs <;> omega)
  have hold : ∀ j, s.used j = true → j ≠ id := by
    rintro j hj rfl
    simp [hun] at hj
  have hnew : ∀ u ∈ s.tasks, u.psid ≠ id := fun u hu => hold _ (h.psid u hu).2
  have hused : ∀ j, s.used j = true → update s.used id true j = true := by
    intro j hj
    rwa [update_of_ne (hold j hj)]
  have hgroups : ∀ u ∈ s.tasks, ((mk id).elim s.groups (update s.groups g)) u.group = s.groups u.group := by
    intro u hu
    rcases hmk with ⟨hm, -⟩ | ⟨rfl, hm⟩
    · simp [hm]
    · obtain ⟨G, hG, -⟩ := hm id
      simp [hG, update_of_ne (Nat.ne_of_lt (h.group u hu))]
  simp only [State.create, hid, getD_some, isSome_some, if_true]
  refine ⟨hlt, mem_cons_of_mem _ h.idle, ?_, ?_, ?_, ?_⟩
  · simpa [h.nodup] using hnew
  · exact forall_mem_cons.2 ⟨⟨hlt, update_self ..⟩, fun u hu => ⟨(h.psid u hu).1, hused _ (h.psid u hu).2⟩⟩
  · intro u hu
    rcases hmk with ⟨hm, p, hp, -, rfl⟩ | ⟨rfl, hm⟩
    · rcases mem_cons.1 hu with rfl | hu
      · simpa [hm] using h.group p hp
      · simpa [hm] using h.group u hu
    · obtain ⟨G, hG, -⟩ := hm id
      rcases mem_cons.1 hu with rfl | hu
      · simp [hG]
      · simpa [hG] using Nat.lt_succ_of_lt (h.group u hu)
  · intro u hu j hj
    rcases mem_cons.1 hu with rfl | hu
    · -- the names of the new task
      have hj' : j = id ∨ Taken s j := by
        rcases hmk with ⟨hm, p, hp, hr, rfl⟩ | ⟨rfl, hm⟩
        · exact .inr (h.taken hp hr (.inr (by simpa [hm] using hj)))
        · obtain ⟨G, hG, hn⟩ := hm id
          exact hn j (by simpa [hG] using hj)
      rcases hj' with rfl | ht
      · exact ⟨update_self .., by simpa using fun t ht _ _ => hnew t ht⟩
      · exact ⟨hused j ht.1, by simpa using fun t hm hr _ => ht.2 t hm hr⟩
    · dsimp only at hj
      rw [hgroups u hu] at hj
      obtain ⟨h1, h2⟩ := h.named u hu j hj
      exact ⟨hused j h1, by simpa using ⟨fun _ => (hold j h1).symm, h2⟩⟩

/-- Only names that are taken are added to a group. -/
theorem Inv.regroup {f : Group → Group}
    (hf : ∀ i, (f (s.groups t.group)).names i → (s.groups t.group).names i ∨ Taken s i) : Inv (s.regroup t f) := by
  refine { h with named := fun u hu i hi => ?_ }
  simp only [State.regroup] at hi ⊢
  by_cases hg : u.group = t.group
  · rw [hg, update_self] at hi
    rcases hf i hi with hn | hn
    · exact h.named u hu i (hg ▸ hn)
    · exact ⟨hn.1, fun t ht hr _ => hn.2 t ht hr⟩
  · rw [update_of_ne hg] at hi
    exact h.named u hu i hi

theorem Inv.remove (ht : t ∈ s.tasks) (h0 : t.psid ≠ 0)
    (hnone : ∀ u ∈ s.tasks, u ≠ t → ¬(s.groups u.group).names t.psid) : Inv (s.remove t) := by
  have hmem : ∀ u ∈ s.tasks.erase t, u ∈ s.tasks ∧ u ≠ t ∧ u.psid ≠ t.psid := by
    intro u hu
    obtain ⟨hne, hu⟩ := h.mem_erase.1 hu
    exact ⟨hu, hne, fun he => hne (h.eq_of_psid hu ht he)⟩
  refine ⟨h.last, h.mem_erase.2 ⟨fun he => h0 (he ▸ rfl), h.idle⟩, ?_, ?_, ?_, ?_⟩
  · exact h.nodup.sublist (erase_sublist.map _)
  · intro u hu
    obtain ⟨hu, -, hp⟩ := hmem u hu
    simpa [State.remove, update_of_ne hp] using h.psid u hu
  · exact fun u hu => h.group u (hmem u hu).1
  · intro u hu i hi
    obtain ⟨hu, hne, -⟩ := hmem u hu
    obtain ⟨h1, h2⟩ := h.named u hu i hi
    have hit : i ≠ t.psid := fun he => hnone u hu hne (he ▸ hi)
    exact ⟨by simpa [State.remove, update_of_ne hit] using h1, fun v hv => h2 v (hmem v hv).1⟩

theorem Inv.publish (ht : t ∈ s.tasks) (hf : t.runnable = false) :
    Inv { s with tasks := { t with runnable := true } :: s.tasks.erase t } := by
  have hmem : ∀ {P : Task → Prop}, (∀ u ∈ s.tasks, u ≠ t → P u) → P { t with runnable := true } →
      ∀ u ∈ ({ t with runnable := true } : Task) :: s.tasks.erase t, P u := by
    intro P hP ht' u hu
    rcases mem_cons.1 hu with rfl | hu
    · exact ht'
    · exact hP u (h.mem_erase.1 hu).2 (h.mem_erase.1 hu).1
  refine ⟨h.last, mem_cons_of_mem _ (h.mem_erase.2 ⟨?_, h.idle⟩), ?_, ?_, ?_, ?_⟩
  · rintro rfl
    cases hf
  · exact ((perm_cons_erase ht).map Task.psid).nodup_iff.1 h.nodup
  · exact hmem (fun u hu _ => h.psid u hu) (h.psid t ht)
  · exact hmem (fun u hu _ => h.group u hu) (h.group t ht)
  · refine hmem (fun u hu hne i hi => ?_) fun i hi => ?_
    · obtain ⟨h1, h2⟩ := h.named u hu i hi
      exact ⟨h1, hmem (fun v hv _ => h2 v hv) nofun⟩
    · obtain ⟨h1, h2⟩ := h.named t ht i hi
      exact ⟨h1, hmem (fun v hv hne hr _ => h2 v hv hr hne) nofun⟩

theorem Inv.distinct (ht : t ∈ s.tasks) (hf : t.runnable = false) : Distinct s t := by
  refine ⟨(h.psid t ht).1, fun u hu hne => ⟨fun he => hne (h.eq_of_psid hu ht he), fun _ hn => ?_⟩⟩
  exact (h.named u hu _ hn).2 t ht hf hne.symm rfl

theorem Inv.exec {op : Op} (ha : Allowed s op) (hx : exec s op = some s') : Inv s' := by
  have h0 : Taken s 0 := h.taken h.idle rfl (.inl rfl)
  cases op with simp only [Pid.exec, ite_none_right_eq_some, some.injEq, Bool.not_eq_true'] at hx
  | kernel =>
    subst hx
    exact h.create ha (.inr ⟨rfl, fun id => ⟨_, rfl, by rintro i (rfl | rfl | rfl) <;> simp [h0]⟩⟩)
  | fork p =>
    obtain ⟨⟨hp, hr⟩, rfl⟩ := hx
    have hn : ∀ i, (s.groups p.group).names i → Taken s i := fun i hi => h.taken hp hr (.inr hi)
    refine h.create ha (.inr ⟨rfl, fun id => ⟨_, rfl, ?_⟩⟩)
    rintro i (rfl | rfl | rfl)
    exacts [.inl rfl, .inr (hn _ (.inr (.inl rfl))), .inr (hn _ (.inr (.inr rfl)))]
  | thread p =>
    obtain ⟨⟨hp, hr⟩, rfl⟩ := hx
    exact h.create ha (.inl ⟨fun _ => rfl, p, hp, hr, rfl⟩)
  | publish t =>
    obtain ⟨⟨ht, hr⟩, rfl⟩ := hx
    exact h.publish ht hr
  | abort t =>
    obtain ⟨⟨ht, hr⟩, rfl⟩ := hx
    refine h.remove ht (h0.2 t ht hr) fun u hu hne hn => ?_
    exact (h.named u hu _ hn).2 t ht hr hne.symm rfl
  | reap t =>
    obtain ⟨⟨ht, -⟩, rfl⟩ := hx
    exact h.remove ht ha.1 ha.2
  | setpgid t pgid =>
    obtain ⟨-, rfl⟩ := hx
    refine h.regroup fun i hi => ?_
    rcases hi with rfl | rfl | rfl
    · exact .inl (.inl rfl)
    · split_ifs with hz
      · exact .inl (.inl rfl)
      · obtain ⟨u, hu, hr, hn⟩ := ha.resolve_left hz
        exact .inr (h.taken hu hr hn)
    · exact .inl (.inr (.inr rfl))
  | setsid t =>
    obtain ⟨-, rfl⟩ := hx
    exact h.regroup fun i hi => .inl (.inl (by rcases hi with hi | hi | hi <;> exact hi))

end

/-- In every run whose steps are allowed, the task that becomes runnable next has an ID of its own, and `ps_id_gen`
finds a free ID whenever it looks at one. -/
theorem ids_distinct_runs {tr : List Op}
    (hrun : Run (fun s op s' => Pid.exec s op = some s' ∧ Allowed s op) boot tr s) :
    (∀ t s', Pid.exec s (.publish t) = some s' → Distinct s t) ∧
      ((∃ i, Candidate s i ∧ s.used i = false) → psIdGen s ≠ none) := by
  have h : Inv s := hrun.invariant_state Inv .boot fun _ _ _ hi hs => hi.exec hs.2 hs.1
  constructor
  · intro t s' hx
    simp only [Pid.exec, ite_none_right_eq_some, Bool.not_eq_true'] at hx
    exact h.distinct hx.1.1 hx.1.2
  · rintro ⟨i, hc, hi⟩
    exact psIdGen_ne_none h.last hc hi

/-- A process makes a group of its own and a second one is forked. -/
theorem ids_distinct_runs_fork : ∃ s, Run (fun s op s' => Pid.exec s op = some s' ∧ Allowed s op) boot
    [.fork ⟨0, 0, true⟩, .publish ⟨1, 1, false⟩, .setpgid ⟨1, 1, true⟩ 0, .fork ⟨1, 1, true⟩] s ∧
      Distinct s ⟨2, 2, false⟩ := by
  have r1 : Run (fun s op s' => Pid.exec s op = some s' ∧ Allowed s op) boot [.fork ⟨0, 0, true⟩] _ :=
    .single ⟨rfl, 1, ⟨by decide, by decide, by decide⟩, rfl⟩
  have r2 := ((r1.snoc ⟨(rfl : Pid.exec _ (.publish ⟨1, 1, false⟩) = _), trivial⟩).snoc
    ⟨(rfl : Pid.exec _ (.setpgid ⟨1, 1, true⟩ 0) = _), .inl rfl⟩).snoc
    ⟨(rfl : Pid.exec _ (.fork ⟨1, 1, true⟩) = _), 2, ⟨by decide, by decide, by decide⟩, rfl⟩
  exact ⟨_, r2, (ids_distinct_runs r2).1 ⟨2, 2, false⟩ _ rfl⟩

/-- A process joins group 2, which no process has, and the next task gets the ID 2. -/
theorem joined_id_given_away : ∃ s, Run (fun s op s' => Pid.exec s op = some s') boot [.fork ⟨0, 0, true⟩,
    .publish ⟨1, 1, false⟩, .setpgid ⟨1, 1, true⟩ 2, .fork ⟨0, 0, true⟩] s ∧
      (Pid.exec s (.publish ⟨2, 2, false⟩)).isSome = true ∧ ¬Distinct s ⟨2, 2, false⟩ := by
  refine ⟨_, (((Run.single rfl).snoc rfl).snoc rfl).snoc rfl, rfl, fun h => ?_⟩
  exact (h.2 ⟨1, 1, true⟩ (by decide) (by decide)).2 (by decide) (.inr (.inl rfl))

end Mos.Pid
