import Mos.Flock.Counters
import Mos.Lib.Run
import Mathlib.Data.BitVec

/-!
# Locks on open files

`sys_flock`, and what opening, duplicating and closing a file do to its locks (`fs_put_file` and `fs_flock_release` of
`src/fs/impl/fs.c`), by any number of tasks.  A description is known by its address; after the last reference is
dropped it is released and then freed, and its address may be used again.  `sys_flock` takes no reference on the
description.

Which inode object a new description gets is up to the filesystem.  `ext4_alloc_file` and `tmpfs_make_file` embed a
new, zeroed inode in every description (`openFresh`); the counters are written for objects that several descriptions
share (`openShared`).

A step is a check outside the inode's lock, the taking of that lock, or what is done under it, with the test at
`retry` and the acquisition as two steps.  The lock is initialised by the first caller, without synchronisation.  A
task that sleeps may be made ready at any time.
-/

namespace Mos.Flock

open Lib Function

def lockSh : BitVec 32 := 1

def lockEx : BitVec 32 := 2

def lockNb : BitVec 32 := 4

def lockUn : BitVec 32 := 8

def einval : Int := -22

def eintr : Int := -4

def ewouldblock : Int := -11

def opType (operation : BitVec 32) : BitVec 32 := operation &&& ~~~lockNb

def nonblock (operation : BitVec 32) : Bool := operation &&& lockNb ≠ 0

/-- What an operation asks for, if it asks for a lock. -/
def wanted (operation : BitVec 32) : Option Mode :=
  if opType operation = lockSh then some .sh
  else if opType operation = lockEx then some .ex
  else none

/-- What is modelled of a `file`. -/
structure File (F I : Type) where
  file : F
  inode : I
  count : Nat
  flock : Mode
  freed : Bool

/-- Where a task stands: in `sys_flock`, or in `fs_put_file` after it has dropped the last reference. -/
inductive Pc (D : Type)
  | idle
  | entry (d : D) (operation : BitVec 32)
  | init (d : D) (operation : BitVec 32)
  | lock (d : D) (operation : BitVec 32)
  | test (d : D) (operation : BitVec 32)
  | take (d : D) (m : Mode)
  | asleep (d : D) (operation : BitVec 32)
  | relock (d : D) (operation : BitVec 32)
  | closing (d : D)
  | release (d : D)

section

variable {D : Type}

/-- The description of a `sys_flock` in progress. -/
def Pc.flocks : Pc D → Option D
  | .entry d _ | .init d _ | .lock d _ | .test d _ | .take d _ | .asleep d _ | .relock d _ => some d
  | _ => none

def Pc.closes : Pc D → Option D
  | .closing d | .release d => some d
  | _ => none

/-- The description under whose inode lock the task is. -/
def Pc.inside : Pc D → Option D
  | .test d _ | .take d _ | .release d => some d
  | _ => none

end

structure State (T D F I : Type) where
  files : D → File F I
  inodes : I → FlockInode D
  pc : T → Pc D

def State.init (T D : Type) {F I : Type} (f : F) (i : I) : State T D F I :=
  ⟨fun _ => ⟨f, i, 0, .none, true⟩, fun _ => FlockInode.zero D, fun _ => .idle⟩

inductive Event (T D F I : Type)
  | opened (t : T) (d : D) (f : F) (i : I)
  | dup (t : T) (d : D)
  | close (t : T) (d : D)
  | closeLast (t : T) (d : D)
  | closed (t : T) (d : D)
  | call (t : T) (d : D) (operation : BitVec 32)
  | init (t : T) (d : D)
  | internal (t : T)
  | ready (t : T)
  | ret (t : T) (d : D) (r : Int)

section

variable {T D F I : Type} [DecidableEq T] [DecidableEq D] [DecidableEq I]

def State.go (s : State T D F I) (t : T) (p : Pc D) : State T D F I := { s with pc := update s.pc t p }

def State.setFile (s : State T D F I) (d : D) (f : File F I) : State T D F I :=
  { s with files := update s.files d f }

def State.setInode (s : State T D F I) (i : I) (n : FlockInode D) : State T D F I :=
  { s with inodes := update s.inodes i n }

def State.inodeOf (s : State T D F I) (d : D) : FlockInode D := s.inodes (s.files d).inode

def State.setLocked (s : State T D F I) (d : D) (b : Bool) : State T D F I :=
  s.setInode (s.files d).inode { s.inodeOf d with locked := b }

def State.dropFlock (s : State T D F I) (d : D) : State T D F I :=
  (s.setInode (s.files d).inode ((s.inodeOf d).drop (s.files d).flock)).setFile d { s.files d with flock := .none }

def State.takeFlock (s : State T D F I) (d : D) (m : Mode) : State T D F I :=
  (s.setInode (s.files d).inode ((s.inodeOf d).acquire d m)).setFile d { s.files d with flock := m }

def State.conflict (s : State T D F I) (d : D) (m : Mode) : Bool := (s.inodeOf d).conflict (s.files d).flock d m

def State.free (s : State T D F I) (d : D) : State T D F I := s.setFile d { s.files d with freed := true }

inductive Step : State T D F I → Event T D F I → State T D F I → Prop
  | openFresh {s t d} (f i) : s.pc t = .idle → (s.files d).freed = true →
      (∀ d', (s.files d').freed = false → (s.files d').inode ≠ i) →
      Step s (.opened t d f i) ((s.setInode i (FlockInode.zero D)).setFile d ⟨f, i, 1, .none, false⟩)
  | openShared {s t d e} (f) : s.pc t = .idle → (s.files d).freed = true → (s.files e).freed = false →
      Step s (.opened t d f (s.files e).inode) (s.setFile d ⟨f, (s.files e).inode, 1, .none, false⟩)
  | dup {s t d} : s.pc t = .idle → 0 < (s.files d).count →
      Step s (.dup t d) (s.setFile d { s.files d with count := (s.files d).count + 1 })
  -- `fs_put_file`
  | close {s t d} : s.pc t = .idle → 1 < (s.files d).count →
      Step s (.close t d) (s.setFile d { s.files d with count := (s.files d).count - 1 })
  | closeLast {s t d} : s.pc t = .idle → (s.files d).count = 1 →
      Step s (.closeLast t d) ((s.setFile d { s.files d with count := 0 }).go t (.closing d))
  | closeFree {s t d} : s.pc t = .closing d → (s.files d).flock = .none → Step s (.closed t d) ((s.free d).go t .idle)
  | closeLock {s t d} : s.pc t = .closing d → (s.files d).flock ≠ .none → (s.inodeOf d).locked = false →
      Step s (.internal t) ((s.setLocked d true).go t (.release d))
  | release {s t d} : s.pc t = .release d →
      Step s (.closed t d) ((((s.dropFlock d).setLocked d false).free d).go t .idle)
  -- `sys_flock`
  | call {s t d} (operation) : s.pc t = .idle → 0 < (s.files d).count →
      Step s (.call t d operation) (s.go t (.entry d operation))
  | inited {s t d o} : s.pc t = .entry d o → (s.inodeOf d).inited = true → Step s (.internal t) (s.go t (.lock d o))
  | uninited {s t d o} : s.pc t = .entry d o → (s.inodeOf d).inited = false →
      Step s (.internal t) (s.go t (.init d o))
  | init {s t d o} : s.pc t = .init d o →
      Step s (.init t d)
        ((s.setInode (s.files d).inode { s.inodeOf d with inited := true, locked := false }).go t (.lock d o))
  | lock {s t d o} : s.pc t = .lock d o → (s.inodeOf d).locked = false →
      Step s (.internal t) ((s.setLocked d true).go t (.test d o))
  | unlock {s t d o} : s.pc t = .test d o → opType o = lockUn →
      Step s (.ret t d 0) (((s.dropFlock d).setLocked d false).go t .idle)
  | invalid {s t d o} : s.pc t = .test d o → opType o ≠ lockUn → wanted o = none →
      Step s (.ret t d einval) ((s.setLocked d false).go t .idle)
  | wouldBlock {s t d o m} : s.pc t = .test d o → wanted o = some m → s.conflict d m = true → nonblock o = true →
      Step s (.ret t d ewouldblock) ((s.setLocked d false).go t .idle)
  | signal {s t d o m} : s.pc t = .test d o → wanted o = some m → s.conflict d m = true → nonblock o = false →
      Step s (.ret t d eintr) ((s.setLocked d false).go t .idle)
  | sleep {s t d o m} : s.pc t = .test d o → wanted o = some m → s.conflict d m = true → nonblock o = false →
      Step s (.internal t) ((s.setLocked d false).go t (.asleep d o))
  | pass {s t d o m} : s.pc t = .test d o → wanted o = some m → s.conflict d m = false →
      Step s (.internal t) (s.go t (.take d m))
  | take {s t d m} : s.pc t = .take d m →
      Step s (.ret t d 0) ((((s.dropFlock d).takeFlock d m).setLocked d false).go t .idle)
  | ready {s t d o} : s.pc t = .asleep d o → Step s (.ready t) (s.go t (.relock d o))
  | relockSignal {s t d o} : s.pc t = .relock d o → (s.inodeOf d).locked = false →
      Step s (.ret t d eintr) (s.go t .idle)
  | relock {s t d o} : s.pc t = .relock d o → (s.inodeOf d).locked = false →
      Step s (.internal t) ((s.setLocked d true).go t (.test d o))

/-! ### The account of every inode -/

variable {s s' : State T D F I} {t : T} {d : D} {p : Pc D} {n : FlockInode D} {m : Mode} {s₁ : State T D F I} {i : I}

/-- What a description holds on the inode `i`; one that is freed or attached elsewhere holds nothing. -/
def State.held (s : State T D F I) (i : I) (d : D) : Mode :=
  if (s.files d).freed = false ∧ (s.files d).inode = i then (s.files d).flock else .none

def Core (s : State T D F I) : Prop := ∀ i, Agrees (s.inodes i) (s.held i)

open State

section

omit [DecidableEq T]

private theorem held_setFile (f : File F I) (i : I) : (s.setFile d f).held i =
      update (s.held i) d (if f.freed = false ∧ f.inode = i then f.flock else .none) := by
  funext e
  by_cases he : e = d
  · subst he
    simp [held, setFile]
  · simp [held, setFile, he]

theorem Core.setFile (h : Core s) {f : File F I}
    (hf : ∀ i, (if f.freed = false ∧ f.inode = i then f.flock else .none) = s.held i d) : Core (s.setFile d f) := by
  intro i
  rw [held_setFile, hf i, update_eq_self]
  exact h i

omit [DecidableEq D] in
private theorem held_inode (hd : (s.files d).freed = false) : s.held (s.files d).inode d = (s.files d).flock := by
  simp [held, hd]

/-- A description changes its lock and the counters of its inode together; on other inodes it holds nothing. -/
theorem Core.setFlock (h : Core s) (hd : (s.files d).freed = false)
    (hn : Agrees n (update (s.held (s.files d).inode) d m)) :
    Core ((s.setInode (s.files d).inode n).setFile d { s.files d with flock := m }) := by
  intro i
  rw [held_setFile]
  by_cases hi : i = (s.files d).inode
  · subst hi
    rw [if_pos ⟨hd, rfl⟩]
    change Agrees (update s.inodes (s.files d).inode n _) _
    rw [update_self]
    exact hn
  · have hnone : s.held i d = .none := if_neg (by simp [Ne.symm hi])
    rw [if_neg fun hno => hi hno.2.symm]
    change Agrees (update s.inodes (s.files d).inode n i) (update (s.held i) d .none)
    rw [update_of_ne hi, ← hnone, update_eq_self]
    exact h i

theorem Core.dropFlock (h : Core s) (hd : (s.files d).freed = false) : Core (s.dropFlock d) :=
  h.setFlock hd (held_inode hd ▸ (h _).drop d)

theorem Core.takeFlock (h : Core s) (hd : (s.files d).freed = false) (hnone : (s.files d).flock = .none)
    (hm : m ≠ .none) (hfree : (s.inodeOf d).exOwner = none) (hsh : m ≠ .sh → (s.inodeOf d).sh = 0) :
    Core (s.takeFlock d m) :=
  h.setFlock hd ((h _).acquire (by rw [held_inode hd, hnone]) hm hfree hsh)

theorem Core.exchange (h : Core s) (hd : (s.files d).freed = false) (hm : m ≠ .none)
    (hc : s.conflict d m = false) : Core ((s.dropFlock d).takeFlock d m) := by
  have hself : (s.dropFlock d).files d = { s.files d with flock := .none } := update_self _ _ _
  have hof : (s.dropFlock d).inodeOf d = (s.inodeOf d).drop (s.held (s.files d).inode d) := by
    unfold inodeOf
    rw [hself, held_inode hd]
    exact update_self _ _ _
  have hfree := (h (s.files d).inode).free_of_no_conflict (by rw [held_inode hd]; exact hc)
  refine (h.dropFlock hd).takeFlock (by rw [hself]; exact hd) (by rw [hself]) hm ?_ ?_
  · rw [hof]
    exact hfree.1
  · rw [hof]
    exact hfree.2

omit [DecidableEq D] in
theorem Core.setInode (h : Core s) (ho : n.exOwner = (s.inodes i).exOwner)
    (hs : n.sh = (s.inodes i).sh) : Core (s.setInode i n) := by
  exact (forall_update_iff s.inodes fun j n => Agrees n (s.held j)).mpr ⟨(h i).congr ho hs, fun j _ => h j⟩

/-! ### The invariant -/

/-- What holds of a task alone, by where it stands. -/
structure Local (s : State T D F I) (p : Pc D) : Prop where
  locked : ∀ d, p.inside = some d → (s.inodeOf d).locked = true
  granted : ∀ d m, p = .take d m → m ≠ .none ∧ s.conflict d m = false
  counted : ∀ d, p.flocks = some d → 0 < (s.files d).count
  closing : ∀ d, p.closes = some d → (s.files d).count = 0 ∧ (s.files d).freed = false

/-- Two tasks are not inside the lock of one inode, and do not close one description. -/
structure Apart (s : State T D F I) (p q : Pc D) : Prop where
  inside : ∀ d e, p.inside = some d → q.inside = some e → (s.files d).inode ≠ (s.files e).inode
  closes : ∀ d, p.closes = some d → q.closes ≠ some d

structure Inv (s : State T D F I) : Prop where
  core : Core s
  task : ∀ u, Local s (s.pc u)
  apart : ∀ u v, u ≠ v → Apart s (s.pc u) (s.pc v)
  live : ∀ d, 0 < (s.files d).count → (s.files d).freed = false
  same : ∀ d e, (s.files d).freed = false → (s.files e).freed = false → (s.files d).file = (s.files e).file →
    (s.files d).inode = (s.files e).inode

/-- Between `s` and `s₁` only what `d` holds has changed, and the account of its inode. -/
structure Touches (s s₁ : State T D F I) (d : D) : Prop where
  pc : s₁.pc = s.pc
  own : ∃ m, s₁.files d = { s.files d with flock := m }
  files : ∀ e, e ≠ d → s₁.files e = s.files e
  inodes : ∀ i, i ≠ (s.files d).inode → s₁.inodes i = s.inodes i

omit [DecidableEq D] [DecidableEq I] in
theorem Apart.symm {p q : Pc D} (h : Apart s p q) : Apart s q p :=
  ⟨fun d e hd he heq => h.inside e d he hd heq.symm, fun d hd he => h.closes d he hd⟩

omit [DecidableEq D] in
theorem Pc.inside_cases (h : p.inside = some d) : p.flocks = some d ∨ p.closes = some d := by
  cases p <;> simp_all [Pc.inside, Pc.flocks, Pc.closes]

omit [DecidableEq I] in
theorem Local.outside (hin : p.inside = none) (hfl : ∀ e, p.flocks = some e → 0 < (s.files e).count)
    (hcl : ∀ e, p.closes = some e → (s.files e).count = 0 ∧ (s.files e).freed = false) : Local s p := by
  refine ⟨by simp [hin], ?_, hfl, hcl⟩
  rintro e m rfl
  cases hin

theorem Inv.open_of_inside (hi : Inv s) (ht : s.pc t = p) (h : p.inside = some d) :
    (s.files d).freed = false := by
  subst ht
  rcases Pc.inside_cases h with h | h
  · exact hi.live d ((hi.task t).counted d h)
  · exact ((hi.task t).closing d h).2

theorem Inv.closes_ne (hi : Inv s) (u : T) (hpos : 0 < (s.files d).count) : (s.pc u).closes ≠ some d := by
  intro hu
  have := ((hi.task u).closing d hu).1
  omega

omit [DecidableEq D] [DecidableEq I] in
theorem Touches.refl : Touches s s d := ⟨rfl, ⟨_, rfl⟩, fun _ _ => rfl, fun _ _ => rfl⟩

theorem Touches.dropFlock : Touches s (s.dropFlock d) d :=
  ⟨rfl, ⟨.none, update_self _ _ _⟩, fun _ he => update_of_ne he _ _, fun _ hi => update_of_ne hi _ _⟩

theorem Touches.takeFlock (h : Touches s s₁ d) (m : Mode) : Touches s (s₁.takeFlock d m) d := by
  obtain ⟨m1, hown⟩ := h.own
  have hinode : (s₁.files d).inode = (s.files d).inode := by rw [hown]
  refine ⟨h.pc, ⟨m, ?_⟩, fun e he => ?_, fun i hi => ?_⟩
  · refine (update_self _ _ _).trans ?_
    rw [hown]
  · exact (update_of_ne he _ _).trans (h.files e he)
  · rw [← hinode] at hi
    refine (update_of_ne hi _ _).trans (h.inodes i ?_)
    rwa [← hinode]

theorem Inv.opened (hi : Inv s) (hfreed : (s.files d).freed = true) (f : F) (i : I)
    (hok : ∀ e, (s.files e).freed = false → (s.files e).file = f → (s.files e).inode = i) :
    Inv (s.setFile d ⟨f, i, 1, .none, false⟩) := by
  have hfile : ∀ e, e ≠ d → (s.setFile d ⟨f, i, 1, .none, false⟩).files e = s.files e :=
    fun e he => update_of_ne he _ _
  have hself : (s.setFile d ⟨f, i, 1, .none, false⟩).files d = ⟨f, i, 1, .none, false⟩ := update_self _ _ _
  have hne : ∀ {e}, (s.files e).freed = false → e ≠ d := by
    rintro e he rfl
    rw [hfreed] at he
    cases he
  -- nobody is busy with a description that is not open
  have hfl : ∀ {u e}, (s.pc u).flocks = some e → e ≠ d := fun he => hne (hi.live _ ((hi.task _).counted _ he))
  have hcl : ∀ {u e}, (s.pc u).closes = some e → e ≠ d := fun he => hne ((hi.task _).closing _ he).2
  have hin : ∀ {u e}, (s.pc u).inside = some e → e ≠ d := fun he => hne (hi.open_of_inside rfl he)
  refine ⟨?_, fun u => ?_, fun u v huv => ?_, fun e => ?_, fun e e' => ?_⟩
  · refine Core.setFile hi.core fun j => ?_
    simp [held, hfreed]
  · have hloc := hi.task u
    refine ⟨fun e he => ?_, fun e m hp => ?_, fun e he => ?_, fun e he => ?_⟩
    · unfold inodeOf
      rw [hfile e (hin he)]
      exact hloc.locked e he
    · unfold conflict inodeOf
      rw [hfile e (hin (by rw [show s.pc u = .take e m from hp]; rfl))]
      exact hloc.granted e m hp
    · rw [hfile e (hfl he)]
      exact hloc.counted e he
    · rw [hfile e (hcl he)]
      exact hloc.closing e he
  · have hap := hi.apart u v huv
    refine ⟨fun e e' he he' => ?_, hap.closes⟩
    rw [hfile e (hin he), hfile e' (hin he')]
    exact hap.inside e e' he he'
  · by_cases he : e = d
    · rw [he, hself]
      exact fun _ => rfl
    · rw [hfile e he]
      exact hi.live e
  · by_cases he : e = d
    · by_cases he' : e' = d
      · exact fun _ _ _ => by rw [he, he']
      · rw [he, hself, hfile e' he']
        exact fun _ hl heq => (hok e' hl heq.symm).symm
    · by_cases he' : e' = d
      · rw [he', hself, hfile e he]
        exact fun hl _ heq => hok e hl heq
      · rw [hfile e he, hfile e' he']
        exact hi.same e e'

/-- The account of an inode object that no description uses may be reset. -/
theorem Inv.resetInode (hi : Inv s) (i : I) (hun : ∀ e, (s.files e).freed = false → (s.files e).inode ≠ i) :
    Inv (s.setInode i (FlockInode.zero D)) := by
  have hn : ∀ j, j ≠ i → (s.setInode i (FlockInode.zero D)).inodes j = s.inodes j := fun j hj => update_of_ne hj _ _
  have hof : ∀ {u e}, (s.pc u).inside = some e → (s.setInode i (FlockInode.zero D)).inodeOf e = s.inodeOf e :=
    fun he => hn _ (hun _ (hi.open_of_inside rfl he))
  refine ⟨fun j => ?_, fun u => ?_, fun u v huv => ?_, hi.live, hi.same⟩
  · by_cases hj : j = i
    · subst hj
      have hnone : (s.setInode j (FlockInode.zero D)).held j = fun _ => .none := by
        funext e
        exact if_neg fun h => hun e h.1 h.2
      have hz : (s.setInode j (FlockInode.zero D)).inodes j = FlockInode.zero D := update_self _ _ _
      rw [hnone, hz]
      exact Agrees.zero
    · rw [hn j hj]
      exact hi.core j
  · have hloc := hi.task u
    refine ⟨fun e he => ?_, fun e m hp => ?_, hloc.counted, hloc.closing⟩
    · rw [hof he]
      exact hloc.locked e he
    · have hin : (s.pc u).inside = some e := by
        rw [show s.pc u = .take e m from hp]
        rfl
      unfold conflict
      rw [hof hin]
      exact hloc.granted e m hp
  · have hap := hi.apart u v huv
    exact { hap with }

theorem Inv.init (f : F) (i : I) : Inv (State.init T D f i) := by
  have hheld : ∀ j, (State.init T D f i).held j = fun _ => .none := by
    intro j
    funext d
    exact if_neg (by rintro ⟨⟨⟩, -⟩)
  refine ⟨fun j => ?_, fun u => ⟨?_, ?_, ?_, ?_⟩, fun u v _ => ⟨?_, ?_⟩, ?_, ?_⟩
  · exact Agrees.zero
  · rintro d ⟨⟩
  · rintro d m ⟨⟩
  · rintro d ⟨⟩
  · rintro d ⟨⟩
  · rintro d e ⟨⟩
  · rintro d ⟨⟩
  · rintro d h
    cases h
  · rintro d e ⟨⟩

end

section

variable (hi : Inv s)

include hi

/-- The part of the invariant about the tasks, after a step of `t` that leaves the descriptions attached as they
were. -/
theorem Inv.apart_update (hinode : ∀ e, (s'.files e).inode = (s.files e).inode)
    (hin : ∀ e u e', u ≠ t → p.inside = some e → (s.pc u).inside = some e' → (s.files e).inode ≠ (s.files e').inode)
    (hcl : ∀ e, p.closes = some e → ∀ u, u ≠ t → (s.pc u).closes ≠ some e) (u v : T) (huv : u ≠ v) :
    Apart s' (update s.pc t p u) (update s.pc t p v) := by
  have hold : ∀ {q r : Pc D}, Apart s q r → Apart s' q r := fun h =>
    ⟨fun d e hd he => by rw [hinode, hinode]; exact h.inside d e hd he, h.closes⟩
  have hnew : ∀ u, u ≠ t → Apart s p (s.pc u) := fun u hu => ⟨fun d e => hin d u e hu, fun d hd => hcl d hd u hu⟩
  by_cases hu : u = t
  · subst hu
    rw [update_self, update_of_ne huv.symm]
    exact hold (hnew v huv.symm)
  rw [update_of_ne hu]
  by_cases hv : v = t
  · subst hv
    rw [update_self]
    exact hold (hnew u hu).symm
  · rw [update_of_ne hv]
    exact hold (hi.apart u v huv)

/-- A step of `t` that changes the descriptions at most in what they hold. -/
theorem Inv.of_step (hpc : s'.pc = update s.pc t p)
    (hfiles : ∀ e, ∃ m, s'.files e = { s.files e with flock := m }) (hcore : Core s') (hown : Local s' p)
    (hothers : ∀ u e, u ≠ t → (s.pc u).inside = some e →
      (s'.inodeOf e).locked = true ∧ ∀ m, s'.conflict e m = s.conflict e m)
    (hin : ∀ e u e', u ≠ t → p.inside = some e → (s.pc u).inside = some e' → (s.files e).inode ≠ (s.files e').inode)
    (hcl : ∀ e, p.closes = some e → (s.pc t).closes = some e) : Inv s' := by
  have hfile : ∀ e, (s'.files e).count = (s.files e).count ∧ (s'.files e).freed = (s.files e).freed ∧
      (s'.files e).file = (s.files e).file ∧ (s'.files e).inode = (s.files e).inode := by
    intro e
    obtain ⟨m, hm⟩ := hfiles e
    simp [hm]
  refine ⟨hcore, fun u => ?_, fun u v huv => ?_, fun d => ?_, fun d e => ?_⟩
  · rw [hpc]
    by_cases hu : u = t
    · subst hu
      rwa [update_self]
    rw [update_of_ne hu]
    have hloc := hi.task u
    refine ⟨fun d hd => (hothers u d hu hd).1, fun d m hp => ?_, fun d hd => ?_, fun d hd => ?_⟩
    · rw [(hothers u d hu (by rw [hp]; rfl)).2]
      exact hloc.granted d m hp
    · rw [(hfile d).1]
      exact hloc.counted d hd
    · rw [(hfile d).1, (hfile d).2.1]
      exact hloc.closing d hd
  · rw [hpc]
    exact hi.apart_update (fun e => (hfile e).2.2.2) hin (fun e he v hv => (hi.apart t v hv.symm).closes e (hcl e he))
      u v huv
  · rw [(hfile d).1, (hfile d).2.1]
    exact hi.live d
  · rw [(hfile d).2.1, (hfile e).2.1, (hfile d).2.2.1, (hfile e).2.2.1, (hfile d).2.2.2, (hfile e).2.2.2]
    exact hi.same d e

theorem Inv.go {a : Pc D} (ht : s.pc t = a) (hown : Local s p) (hin : ∀ e, p.inside = some e → a.inside = some e)
    (hcl : ∀ e, p.closes = some e → a.closes = some e) : Inv (s.go t p) := by
  subst ht
  exact hi.of_step rfl (fun _ => ⟨_, rfl⟩) hi.core { hown with }
    (fun u e _ he => ⟨(hi.task u).locked e he, fun _ => rfl⟩)
    (fun e u e' hu he he' => (hi.apart t u hu.symm).inside e e' (hin e he) he') hcl

theorem Inv.move (hin : p.inside = none) (hcl : p.closes = none)
    (hfl : ∀ e, p.flocks = some e → 0 < (s.files e).count) : Inv (s.go t p) :=
  hi.go rfl (.outside hin hfl (by simp [hcl])) (by simp [hin]) (by simp [hcl])

end

theorem Inv.lock {a : Pc D} (hi : Inv s) (ht : s.pc t = a) (hfree : (s.inodeOf d).locked = false)
    (ho : n.exOwner = (s.inodeOf d).exOwner) (hs : n.sh = (s.inodeOf d).sh)
    (hin : ∀ e, p.inside = some e → e = d ∧ n.locked = true) (htake : ∀ d m, p ≠ .take d m)
    (hfl : ∀ e, p.flocks = some e → a.flocks = some e)
    (hcl : ∀ e, p.closes = some e → a.closes = some e) : Inv ((s.setInode (s.files d).inode n).go t p) := by
  subst ht
  -- whoever is inside a lock is inside another one
  have hne : ∀ u e, (s.pc u).inside = some e → (s.files e).inode ≠ (s.files d).inode := by
    intro u e he heq
    have hl := (hi.task u).locked e he
    rw [inodeOf, heq] at hl
    rw [inodeOf, hl] at hfree
    cases hfree
  have hframe : ∀ e, (s.files e).inode ≠ (s.files d).inode →
      ((s.setInode (s.files d).inode n).go t p).inodeOf e = s.inodeOf e := fun e he => update_of_ne he _ _
  refine hi.of_step rfl (fun _ => ⟨_, rfl⟩) (Core.setInode hi.core ho hs) ?_ ?_ ?_ hcl
  · refine ⟨fun e he => ?_, fun e m hp => absurd hp (htake e m), fun e he => (hi.task t).counted e (hfl e he),
      fun e he => (hi.task t).closing e (hcl e he)⟩
    obtain ⟨rfl, hl⟩ := hin e he
    have hn : ((s.setInode (s.files e).inode n).go t p).inodeOf e = n := update_self _ _ _
    rw [hn]
    exact hl
  · intro u e _ he
    have hsame := hframe e (hne u e he)
    refine ⟨by rw [hsame]; exact (hi.task u).locked e he, fun m => ?_⟩
    simp only [conflict, hsame]
    rfl
  · intro e u e' _ he he'
    obtain ⟨rfl, -⟩ := hin e he
    exact (hne u e' he').symm

/-- The task leaves the lock of an inode, after it has changed the account. -/
theorem Inv.unlock {a : Pc D} (hi : Inv s) (ht : s.pc t = a) (hd : a.inside = some d) (hT : Touches s s₁ d)
    (hcore : Core s₁) (hin : p.inside = none) (hfl : ∀ e, p.flocks = some e → a.flocks = some e)
    (hcl : ∀ e, p.closes = some e → a.closes = some e) : Inv ((s₁.setLocked d false).go t p) := by
  subst ht
  have hfiles : ∀ e, ∃ m, s₁.files e = { s.files e with flock := m } := by
    intro e
    by_cases he : e = d
    · subst he
      exact hT.own
    · exact ⟨_, hT.files e he⟩
  have hinode : (s₁.files d).inode = (s.files d).inode := by
    obtain ⟨m, hm⟩ := hT.own
    rw [hm]
  have hpc : ((s₁.setLocked d false).go t p).pc = update s.pc t p := by
    rw [← hT.pc]
    rfl
  refine hi.of_step hpc hfiles (Core.setInode hcore rfl rfl) ?_ ?_ (fun e u e' _ he => by rw [hin] at he; cases he)
    hcl
  · refine .outside hin (fun e he => ?_) fun e he => ?_
    · obtain ⟨m, hm⟩ := hfiles e
      have := (hi.task t).counted e (hfl e he)
      simpa [State.go, State.setLocked, State.setInode, hm] using this
    · obtain ⟨m, hm⟩ := hfiles e
      have := (hi.task t).closing e (hcl e he)
      simpa [State.go, State.setLocked, State.setInode, hm] using this
  · intro u e hu he
    have hne := (hi.apart u t hu).inside e d he hd
    have hed : e ≠ d := fun h => hne (by rw [h])
    have hn : ((s₁.setLocked d false).go t p).inodeOf e = s.inodeOf e := by
      unfold State.inodeOf
      have h1 : (((s₁.setLocked d false).go t p).files e) = s.files e := hT.files e hed
      rw [h1]
      refine (update_of_ne ?_ _ _).trans (hT.inodes _ hne)
      rwa [hinode]
    refine ⟨by rw [hn]; exact (hi.task u).locked e he, fun m => ?_⟩
    have h1 : (((s₁.setLocked d false).go t p).files e) = s.files e := hT.files e hed
    simp only [State.conflict, hn, h1]

theorem Inv.setFile (hi : Inv s) (c : Nat) (b : Bool) (hb : b = true → (s.files d).flock = .none)
    (hlive : 0 < c → b = false) (hopen : b = false → (s.files d).freed = false)
    (hothers : ∀ u, u ≠ t → ((s.pc u).flocks = some d → 0 < c) ∧ ((s.pc u).closes = some d → c = 0 ∧ b = false))
    (hin : p.inside = none) (hfl : p.flocks = none) (hcl : ∀ e, p.closes = some e → e = d ∧ c = 0 ∧ b = false)
    (halone : ∀ u, u ≠ t → p.closes = some d → (s.pc u).closes ≠ some d) :
    Inv ((s.setFile d { s.files d with count := c, freed := b }).go t p) := by
  have hcore : Core (s.setFile d { s.files d with count := c, freed := b }) := by
    refine Core.setFile hi.core fun i => ?_
    unfold held
    cases b with
    | true => simp [hb rfl]
    | false => simp [hopen rfl]
  obtain ⟨s', hs'⟩ : ∃ s', s' = (s.setFile d { s.files d with count := c, freed := b }).go t p := ⟨_, rfl⟩
  rw [← hs']
  have hfile : ∀ e, s'.files e = if e = d then { s.files d with count := c, freed := b } else s.files e := fun e =>
    hs' ▸ update_apply _ _ _ _
  have hnodes : s'.inodes = s.inodes := hs' ▸ rfl
  have hpc : s'.pc = update s.pc t p := hs' ▸ rfl
  have hinode : ∀ e, (s'.files e).inode = (s.files e).inode := by
    intro e
    rw [hfile]
    split_ifs with he
    · rw [he]
    · rfl
  have hconf : ∀ e m, s'.conflict e m = s.conflict e m := by
    intro e m
    unfold conflict inodeOf
    rw [hinode, hfile, hnodes]
    split_ifs with he
    · rw [he]
    · rfl
  refine ⟨hs' ▸ hcore, fun u => ?_, fun u v huv => ?_, fun e => ?_, fun e e' => ?_⟩
  · rw [hpc]
    by_cases hu : u = t
    · rw [hu, update_self]
      refine .outside hin (by simp [hfl]) fun e he => ?_
      obtain ⟨rfl, hc, hb⟩ := hcl e he
      rw [hfile, if_pos rfl]
      exact ⟨hc, hb⟩
    · rw [update_of_ne hu]
      have hloc := hi.task u
      refine ⟨fun e he => ?_, fun e m hp => ?_, fun e he => ?_, fun e he => ?_⟩
      · unfold inodeOf
        rw [hinode, hnodes]
        exact hloc.locked e he
      · rw [hconf]
        exact hloc.granted e m hp
      · rw [hfile]
        split_ifs with hed
        · exact (hothers u hu).1 (hed ▸ he)
        · exact hloc.counted e he
      · rw [hfile]
        split_ifs with hed
        · exact (hothers u hu).2 (hed ▸ he)
        · exact hloc.closing e he
  · rw [hpc]
    refine hi.apart_update hinode (fun e u e' _ he => ?_) (fun e he v hv => ?_) u v huv
    · rw [hin] at he
      cases he
    · obtain ⟨rfl, -, -⟩ := hcl e he
      exact halone v hv he
  · rw [hfile]
    split_ifs
    · exact hlive
    · exact hi.live e
  · rw [hfile, hfile]
    split_ifs with h1 h2 h2
    · exact fun _ _ _ => rfl
    · exact fun hd => hi.same d e' (hopen hd)
    · exact fun he hd => hi.same e d he (hopen hd)
    · exact hi.same e e'

/-! ### Runs -/

/-- The steps under which the locks do what they promise: an open attaches the inode object that the open descriptions
of the file have, the last reference is not dropped during a `sys_flock` on the description, and the lock of an inode
is not initialised while it is held. -/
def Event.Ok (s : State T D F I) : Event T D F I → Prop
  | .opened _ _ f i => ∀ e, (s.files e).freed = false → (s.files e).file = f → (s.files e).inode = i
  | .closeLast _ d => ∀ u, (s.pc u).flocks ≠ some d
  | .init _ d => (s.inodeOf d).locked = false
  | _ => True

def OkStep (s : State T D F I) (e : Event T D F I) (s' : State T D F I) : Prop := Step s e s' ∧ e.Ok s

omit [DecidableEq D] [DecidableEq I] in
private theorem go_self (h : s.pc t = p) : s.go t p = s := by
  rw [go, ← h, update_eq_self]

theorem Inv.closed (hi : Inv s) (ht : s.pc t = .closing d) (hnone : (s.files d).flock = .none) :
    Inv ((s.free d).go t .idle) := by
  have hclose : (s.pc t).closes = some d := by rw [ht]; rfl
  have hcount := ((hi.task t).closing d hclose).1
  refine hi.setFile (s.files d).count true (fun _ => hnone) (fun h => by omega) nofun (fun u hu => ⟨?_, ?_⟩)
    rfl rfl nofun nofun
  · intro hf
    exact (hi.task u).counted d hf
  · intro hc
    exact absurd hc ((hi.apart t u hu.symm).closes d hclose)

private theorem wanted_ne_none {o : BitVec 32} (h : wanted o = some m) : m ≠ .none := by
  unfold wanted at h
  split_ifs at h <;> (cases h; decide)

theorem Step.inv {e : Event T D F I} (h : Step s e s') (hok : e.Ok s) (hi : Inv s) : Inv s' := by
  cases h with
  | @openFresh t d f i ht hd hun =>
    refine (hi.resetInode i hun).opened hd f i ?_
    exact hok
  | openShared f ht hd he => exact hi.opened hd f _ hok
  | @dup t d ht hpos | @close t d ht hpos =>
    have hopen := hi.live d (by omega)
    have hcl := fun u => hi.closes_ne u (d := d) (by omega)
    rw [← go_self (s := s.setFile d _) ht]
    refine hi.setFile _ _ (by simp [hopen])
      (fun _ => hopen) id (fun u _ => ⟨fun _ => by omega, fun h => absurd h (hcl u)⟩)
      rfl rfl nofun nofun
  | @closeLast t d ht hone =>
    have hopen := hi.live d (by omega)
    have hcl := fun u => hi.closes_ne u (d := d) (by omega)
    refine hi.setFile 0 _ (by simp [hopen]) (fun _ => hopen) id
      (fun u _ => ⟨fun h => absurd h (hok u), fun h => absurd h (hcl u)⟩) rfl rfl ?_ fun u _ _ => hcl u
    rintro e ⟨⟩
    exact ⟨rfl, rfl, hopen⟩
  | closeFree ht hnone => exact hi.closed ht hnone
  | @closeLock t d ht _ hfree =>
    exact hi.lock ht hfree rfl rfl (by rintro e ⟨⟩; exact ⟨rfl, rfl⟩) nofun nofun fun _ => id
  | @release t d ht =>
    -- the lock is dropped as if the task then stood before the free
    have h1 : Inv (((s.dropFlock d).setLocked d false).go t (.closing d)) :=
      hi.unlock ht rfl .dropFlock (hi.core.dropFlock (hi.open_of_inside ht rfl)) rfl nofun fun _ => id
    have h2 := h1.closed (update_self _ _ _) (congrArg File.flock (update_self d _ s.files))
    simpa only [go, free, setFile, update_idem] using h2
  | call o ht hpos => exact hi.move rfl rfl (by rintro e ⟨⟩; exact hpos)
  | @inited t d o ht _ | @uninited t d o ht _ | @ready t d o ht =>
    have hpos := (hi.task t).counted d (by rw [ht]; rfl)
    exact hi.move rfl rfl (by rintro e ⟨⟩; exact hpos)
  | relockSignal ht _ => exact hi.move rfl rfl nofun
  | @init t d o ht =>
    exact hi.lock ht hok rfl rfl nofun nofun (fun _ => id) nofun
  | @lock t d o ht hfree | @relock t d o ht hfree =>
    exact hi.lock ht hfree rfl rfl (by rintro e ⟨⟩; exact ⟨rfl, rfl⟩) nofun (fun _ => id) nofun
  | @unlock t d o ht _ =>
    exact hi.unlock ht rfl .dropFlock (hi.core.dropFlock (hi.open_of_inside ht rfl)) rfl nofun nofun
  | invalid ht _ _ | wouldBlock ht _ _ _ | signal ht _ _ _ =>
    exact hi.unlock ht rfl .refl hi.core rfl nofun nofun
  | sleep ht _ _ _ =>
    exact hi.unlock ht rfl .refl hi.core rfl (fun _ => id) nofun
  | @pass t d o m ht hw hc =>
    have hloc := hi.task t
    rw [ht] at hloc
    refine hi.go ht { hloc with granted := ?_ } (fun _ => id) nofun
    rintro e m' ⟨⟩
    exact ⟨wanted_ne_none hw, hc⟩
  | @take t d m ht =>
    obtain ⟨hm, hc⟩ := (hi.task t).granted d m ht
    exact hi.unlock ht rfl (Touches.dropFlock.takeFlock m)
      (hi.core.exchange (hi.open_of_inside ht rfl) hm hc) rfl nofun nofun

private theorem run_inv {f : F} {tr : List (Event T D F I)} (h : Run OkStep (init T D f i) tr s) : Inv s :=
  Run.invariant_state Inv h (Inv.init f i) fun _ _ _ hi hs => hs.1.inv hs.2 hi

/-- In every run whose steps are `Ok`, a description that holds `LOCK_EX` is the only one of its file that holds a
lock, and after the close of the last reference no account has a lock of the description any more. -/
theorem flock_runs {f : F} {i : I} {tr : List (Event T D F I)} (h : Run OkStep (State.init T D f i) tr s) :
    (∀ d e, (s.files d).freed = false → (s.files e).freed = false → d ≠ e → (s.files d).file = (s.files e).file →
      (s.files d).flock = .ex → (s.files e).flock = .none) ∧ ∀ tr₁ tr₂ t d, tr = tr₁ ++ .closed t d :: tr₂ →
      ∃ s₁ s₂, Run OkStep (State.init T D f i) tr₁ s₁ ∧ OkStep s₁ (.closed t d) s₂ ∧ Run OkStep s₂ tr₂ s ∧
        (s₂.files d).freed = true ∧ ∀ j, (s₂.inodes j).exOwner ≠ some d ∧
          ∃ l : List D, (∀ e, e ∈ l ↔ s₂.held j e = .sh) ∧ (s₂.inodes j).sh = l.length ∧ l.Nodup ∧ d ∉ l := by
  refine ⟨fun d e hd he hne hfile hex => ?_, ?_⟩
  · have hi := run_inv h
    have hinode := hi.same d e hd he hfile
    have hnone := (hi.core (s.files d).inode).exclusive (by rw [held_inode hd, hex]) hne.symm
    rwa [hinode, held_inode he] at hnone
  · rintro tr₁ tr₂ t d rfl
    obtain ⟨s₁, s₂, h1, hs, h2⟩ := h.split
    have hi := run_inv (h1.snoc hs)
    have hfreed : (s₂.files d).freed = true := by
      cases hs.1 with
      | closeFree | release => simp [go, free, setFile]
    have hnone : ∀ j, s₂.held j d = .none := fun j => if_neg (by simp [hfreed])
    refine ⟨s₁, s₂, h1, hs, h2, hfreed, fun j => ⟨fun ho => ?_, ?_⟩⟩
    · have := (hi.core j |>.owner d).mp ho
      rw [hnone] at this
      cases this
    · obtain ⟨l, hl, hsh⟩ := (hi.core j).readers
      have hmem : ∀ e, e ∈ l ↔ s₂.held j e = .sh := fun e => by simpa using hl.mem_iff e
      refine ⟨l, hmem, hsh, hl.nodup, fun hd => ?_⟩
      have := (hmem d).mp hd
      rw [hnone] at this
      cases this

end

/-- A task opens a file and locks it, exclusively and without waiting; the inode is new. -/
def openAndLock (t : Bool) : List (Event Bool Bool Unit Bool) :=
  [.opened t t () t, .call t t (lockEx ||| lockNb), .internal t, .init t t, .internal t, .internal t, .ret t t 0]

/-- A second description that shares the inode of the first holds nothing beside it; and where each open makes a new
inode, the file is opened again after the lock has gone with its description. -/
theorem flock_runs_shared : (∃ s, Run OkStep (State.init Bool Bool () true)
      (openAndLock true ++ [.opened false false () true, .call false false (lockEx ||| lockNb)]) s ∧
    (s.files true).flock = .ex ∧ (s.files false).freed = false ∧ (s.files false).flock = .none) ∧
    ∃ s₁ s₂ s, Run OkStep (State.init Bool Bool () true)
    (openAndLock true ++ [.closeLast true true, .internal true]) s₁ ∧
      OkStep s₁ (.closed true true) s₂ ∧ Run OkStep s₂ [.opened false false () false] s ∧
      ∀ j, (s₂.inodes j).exOwner ≠ some true := by
  have h0 : Run OkStep (State.init Bool Bool () true) [] _ := .nil
  have h1 := (h0.snoc ⟨.openFresh (t := true) (d := true) () true rfl rfl (by rintro d ⟨⟩), by rintro e ⟨⟩⟩).snoc
    ⟨.call (t := true) (d := true) (lockEx ||| lockNb) rfl (by decide), trivial⟩
  have h2 := ((h1.snoc ⟨.uninited (t := true) rfl rfl, trivial⟩).snoc ⟨.init (t := true) rfl, rfl⟩).snoc
    ⟨.lock (t := true) rfl rfl, trivial⟩
  have h3 := (h2.snoc ⟨.pass (t := true) rfl rfl rfl, trivial⟩).snoc ⟨.take (t := true) rfl, trivial⟩
  have h4 := (h3.snoc ⟨.openShared (t := false) (d := false) () rfl rfl rfl, by
    rintro (_ | _) he _
    · cases he
    · rfl⟩).snoc ⟨.call (t := false) (d := false) (lockEx ||| lockNb) rfl (by decide), trivial⟩
  have h5 := ((h3.snoc ⟨.closeLast (t := true) (d := true) rfl rfl, by rintro (_ | _) <;> decide⟩).snoc
    ⟨.closeLock (t := true) rfl (by decide) rfl, trivial⟩).snoc ⟨.release (t := true) rfl, trivial⟩
  have h6 := h5.snoc ⟨.openFresh (t := false) (d := false) () false rfl rfl (by decide), by
    rintro (_ | _) he _ <;> cases he⟩
  obtain ⟨s₁, s₂, hr, hs, hr', -, ho⟩ :=
    (flock_runs h6).2 (openAndLock true ++ [.closeLast true true, .internal true]) _
    true true rfl
  exact ⟨⟨_, h4, rfl, rfl, (flock_runs h4).1 true false rfl rfl (by decide) rfl rfl⟩, s₁, s₂, _, hr, hs, hr',
    fun j => (ho j).1⟩

/-- Two processes open one file with new inodes, as `ext4_alloc_file` makes them, and both get `LOCK_EX`. -/
theorem two_exclusive_locks : ∃ s, Run Step (State.init Bool Bool () true) (openAndLock true ++ openAndLock false) s ∧
    (∀ d, (s.files d).freed = false ∧ (s.files d).flock = .ex) ∧ (s.files true).file = (s.files false).file := by
  have h0 : Run Step (State.init Bool Bool () true) [] _ := .nil
  have h1 := (h0.snoc (.openFresh (t := true) (d := true) () true rfl rfl (by rintro d ⟨⟩))).snoc
    (.call (t := true) (d := true) (lockEx ||| lockNb) rfl (by decide))
  have h2 := ((h1.snoc (.uninited (t := true) rfl rfl)).snoc (.init (t := true) rfl)).snoc (.lock (t := true) rfl rfl)
  have h3 := (h2.snoc (.pass (t := true) rfl rfl rfl)).snoc (.take (t := true) rfl)
  have h4 := (h3.snoc (.openFresh (t := false) (d := false) () false rfl rfl (by decide))).snoc
    (.call (t := false) (d := false) (lockEx ||| lockNb) rfl (by decide))
  have h5 := ((h4.snoc (.uninited (t := false) rfl rfl)).snoc (.init (t := false) rfl)).snoc
    (.lock (t := false) rfl rfl)
  have h6 := (h5.snoc (.pass (t := false) rfl rfl rfl)).snoc (.take (t := false) rfl)
  exact ⟨_, h6, by decide, rfl⟩

end Mos.Flock
