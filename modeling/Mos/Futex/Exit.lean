import Mos.Futex.Wait
import Mos.Vm.Mmap

/-!
# Futex wakes of an exiting thread

A thread that exits clears the word at `clear_child_tid` and the futexes on its robust list, and wakes a waiter on
each (`ps_clear_child_tid`, `ps_release_robust_list` of `src/ps/impl/ps_futex.c`).  A waiter is queued under the key
that `futex_get_key` computes from the region of its word; the exit path makes a key of its own,
`ps_futex_wake_unsafe`.

The words of memory are named by what backs them (`Backing`), so that two processes that map one object share its
words. The whole is a system of tasks that wait and wake as in `Mos.Futex.Wait`, with keys from `futex_get_key`, and
of tasks that exit; the address spaces are found as they are at each step.
-/

namespace Mos.Futex

open Lib Vm Function List Call State

/-- An inode: the file that it stands for, of which there may be several, and what `futex_get_key` reads of it; null
pointers are 0. -/
structure Inode where
  file : Nat
  pgcacheTag : Nat
  privateData : Nat
  ino : Nat

def Inode.identity (i : Inode) : Nat := if i.pgcacheTag ≠ 0 then i.pgcacheTag else i.privateData

/-- A `task_memory`: its address and its regions. -/
structure Space where
  id : Nat
  mm : MmStruct

def protRead : BitVec 32 := 0x1

def protWrite : BitVec 32 := 0x2

def mapShared : BitVec 32 := 0x1

def hasFlag (v : Int) (bit : BitVec 32) : Bool := BitVec.ofInt 32 v &&& bit ≠ 0

/-- The walk over `vma_index` in `futex_get_key`. -/
def Space.region (sp : Space) (addr : Nat) : Option VmRegion :=
  sp.mm.vmaIndex.find fun r => if addr < r.begin then .lt else if addr ≥ r.stop then .gt else .eq

/-- `vm_find_map_cached`; the cached region is the one a search finds. -/
def Space.findMap (sp : Space) (addr : Nat) : Option VmRegion :=
  match vmFindVma sp.mm addr with
  | some r => if r.begin ≤ pageOf addr ∧ pageOf addr < r.stop then some r else none
  | none => none

/-- What a word of user memory is a word of. -/
inductive Backing
  | page (vm addr : Nat)
  | file (file offset : Nat)
  | anon (id offset : Nat)
  deriving DecidableEq

/-- What a shared mapping shows. -/
inductive Object
  | file (i : Inode)
  | anon (id : Nat)

def Object.key (offset : Nat) : Object → FutexKey
  | .file i => ⟨1, i.identity, i.ino, offset⟩
  | .anon id => ⟨2, 0, id, offset⟩

def Object.word (offset : Nat) : Object → Backing
  | .file i => .file i.file offset
  | .anon id => .anon id offset

/-- One piece of work of the exit path. -/
inductive ExitCall
  | clearTid (tid : Nat)
  | robust (entry : Nat) (offset : Int)

/-- An exiting thread, with its number as `ps_pid_for` gives it. -/
structure Thread where
  space : Option Space
  pid : BitVec 32

/-- Whether the accesses of the exit path to the memory of the thread succeed. -/
structure Access where
  read : Bool
  write : Bool

def futexWaiters : BitVec 32 := 0x80000000

def futexOwnerDied : BitVec 32 := 0x40000000

def futexTidMask : BitVec 32 := 0x3fffffff

def robustListLimit : Nat := 2048

section

variable (arch : Arch) (files : Nat → Option Inode)

/-- The object of a region, if it is a shared one; `files` gives the inode of an open file. -/
def sharedObject (r : VmRegion) : Option Object :=
  if hasFlag r.flag mapShared then
    match r.fp.bind files with
    | some i => some (.file i)
    | none => if r.anonId ≠ 0 then some (.anon r.anonId) else none
  else none

/-- The offset in a key: the offset of the region is cut to 32 bits. -/
def keyOffset (r : VmRegion) (addr : Nat) : Nat := (r.offset.toNat % 2 ^ 32 + addr - r.begin) % 2 ^ arch.vaddrBits

def wordOffset (r : VmRegion) (addr : Nat) : Nat := r.offset.toNat + (addr - r.begin)

def futexGetKey (user : Option Space) (uaddr : Nat) (priv : Bool) : Except Int FutexKey :=
  if priv then .ok ⟨0, user.elim 0 Space.id, 0, uaddr⟩
  else match user with
  | none => .error efault
  | some sp => match sp.region uaddr with
    | none => .error efault
    | some r =>
      if r.stop - uaddr < 4 ∨ ¬hasFlag r.prot protRead then .error efault
      else match sharedObject files r with
        | some o => .ok (o.key (keyOffset arch r uaddr))
        | none => .ok ⟨0, sp.id, 0, uaddr⟩

/-- The word at an address.  A shared mapping of a file or of an anonymous object shows the object; any other word
belongs to its address space alone. -/
def backing (sp : Space) (addr : Nat) : Option Backing :=
  (sp.region addr).map fun r => match sharedObject files r with
    | some o => o.word (wordOffset r addr)
    | none => .page sp.id addr

/-- The word that a call is about; with `FUTEX_PRIVATE_FLAG` it is a word of the address space. -/
def calledWord (user : Option Space) (uaddr : Nat) (priv : Bool) : Option Backing :=
  if priv then some (.page (user.elim 0 Space.id) uaddr) else user.bind fun sp => backing files sp uaddr

/-- The region and the object, if a call is about a word of a shared object. -/
def calledObject (user : Option Space) (uaddr : Nat) (priv : Bool) : Option (VmRegion × Object) :=
  if priv then none
  else user.bind fun sp => (sp.region uaddr).bind fun r => (sharedObject files r).map (r, ·)

def Call.isPrivate (c : Call Backing) : Bool := c.op &&& futexPrivateFlag ≠ 0

/-- The calls that `futex_common` makes: the key is that of the word in the caller's space. -/
def Call.FromCommon (c : Call Backing) : Prop :=
  ∃ user, futexGetKey arch files user c.uaddr c.isPrivate = .ok c.key ∧
    ∀ sp b, user = some sp → backing files sp c.uaddr = some b → c.word = b

def ExitCall.addr : ExitCall → Nat
  | .clearTid tid => tid
  | .robust entry offset => ((entry + offset) % 2 ^ arch.vaddrBits).toNat

/-- `ps_clear_child_tid` and `robust_release_futex` up to their write: the value written and whether a wake
follows. -/
def ExitCall.write (mem : Backing → Int) (th : Thread) (acc : Access) (x : ExitCall) : Option (Int × Bool) :=
  match th.space with
  | none => none
  | some sp =>
    match x with
    | .clearTid tid =>
      match sp.findMap tid with
      | none => none
      | some r =>
        if tid ≠ 0 ∧ r.begin ≤ tid ∧ (tid + 4) % 2 ^ arch.vaddrBits ≤ r.stop ∧ hasFlag r.prot protWrite ∧
          acc.write then
          some (0, true)
        else none
    | .robust entry _ =>
      if entry = 0 ∨ x.addr arch < pageSize then none
      else match backing files sp (x.addr arch) with
      | none => none
      | some l =>
        let value := BitVec.ofInt 32 (mem l)
        if ¬acc.read ∨ value &&& futexTidMask ≠ th.pid ∨ ¬acc.write then none
        else some (((value &&& futexWaiters) ||| futexOwnerDied).toInt, value &&& futexWaiters ≠ 0)

/-- The loop of `ps_release_robust_list`; the reader gives the next pointer of an entry. -/
def robustWalk (reader : Nat → Option Nat) (base pending : Nat) : Nat → Nat → List Nat
  | 0, _ => []
  | count + 1, entry =>
    if entry = 0 ∨ entry = base then []
    else match reader entry with
    | none => []
    | some next =>
      (if entry ≠ pending then [entry] else []) ++ robustWalk reader base pending count (next / 2 * 2)

/-- The entry that the `n`-th pointer behind `entry` leads to, if all entries up to it can be read. -/
def robustEntry (reader : Nat → Option Nat) (base : Nat) : Nat → Nat → Option Nat
  | 0, entry => if entry = 0 ∨ entry = base then none else (reader entry).map fun _ => entry
  | n + 1, entry =>
    if entry = 0 ∨ entry = base then none
    else (reader entry).bind fun next => robustEntry reader base n (next / 2 * 2)

/-- `ps_release_robust_list`: the futexes released, for what the reader finds at the head of the list. -/
def releaseRobustList (reader : Nat → Option Nat) (base : Nat) (head : Option (Nat × Int × Nat)) : List ExitCall :=
  match head with
  | none => []
  | some (entry, offset, pending) =>
    if base = 0 then []
    else (robustWalk reader base (pending / 2 * 2) robustListLimit (entry / 2 * 2) ++
      if pending / 2 * 2 ≠ 0 then [pending / 2 * 2] else []).map (.robust · offset)

end

structure ExitState (T : Type) where
  futex : State T Backing
  todo : T → List ExitCall
  wake : T → Option (Nat × Nat)

def ExitState.init (T : Type) (mem : Backing → Int) : ExitState T := ⟨State.init T mem, fun _ => [], fun _ => none⟩

inductive ExitEvent (T : Type)
  | futex (e : Event T Backing)
  | kill (t : T)
  | exit (t : T) (todo : List ExitCall)
  | write (t : T) (th : Thread) (acc : Access) (x : ExitCall)
  | wake (t : T) (vm addr : Nat) (woken : List T)

variable {L : Type} {key : FutexKey}

section

variable {T : Type} [DecidableEq T] (arch : Arch) (files : Nat → Option Inode) {P : Call L → Prop} {t : T}

/-- The write of an exiting thread; a wake is left to do if one follows. -/
def ExitState.write (s : ExitState T) (t : T) (th : Thread) (acc : Access) (x : ExitCall) (rest : List ExitCall) :
    ExitState T :=
  match th.space, x.write arch files s.futex.mem th acc with
  | some sp, some (v, wakes) =>
    { futex := { s.futex with mem := (backing files sp (x.addr arch)).elim s.futex.mem (update s.futex.mem · v) }
      todo := update s.todo t rest
      wake := if wakes then update s.wake t (some (sp.id, x.addr arch)) else s.wake }
  | _, _ => { s with todo := update s.todo t rest }

/-- `ps_futex_wake_unsafe`. -/
def exitKey (vm addr : Nat) : FutexKey := ⟨0, vm, 0, addr⟩

inductive ExitStep : ExitState T → ExitEvent T → ExitState T → Prop
  | futex {s e f} : Step s.futex e f → (∀ t c, e = .call t c → c.FromCommon arch files) →
      ExitStep s (.futex e) { s with futex := f }
  -- `ps_futex_remove_task_unsafe`, for a thread that its group takes down
  | kill {s} (t) : ExitStep s (.kill t) { s with futex := { s.futex with queue := s.futex.queue.erase t }.go t .idle }
  | exit {s t} (tid reader base head) : s.futex.pc t = .idle → s.todo t = [] → s.wake t = none →
      ExitStep s (.exit t (.clearTid tid :: releaseRobustList reader base head))
        { s with todo := update s.todo t (.clearTid tid :: releaseRobustList reader base head) }
  | write {s t x rest} (th acc) : s.todo t = x :: rest → s.wake t = none →
      ExitStep s (.write t th acc x) (s.write arch files t th acc x rest)
  | wake {s t vm addr} : s.wake t = some (vm, addr) →
      ExitStep s (.wake t vm addr (s.futex.wakeMask (exitKey vm addr) 1 (BitVec.allOnes 32)).1)
        { s with
          futex := (s.futex.wakeMask (exitKey vm addr) 1 (BitVec.allOnes 32)).2
          wake := update s.wake t none }

/-! ### The calls in progress -/

def Pc.call? {L : Type} : Pc L → Option (Call L)
  | .idle => none
  | .entry c | .clock c | .again c | .enter c | .queued c _ | .woken c | .unwoken c => some c

/-- What holds of every call that is made holds of every call in progress. -/
def Calls {L : Type} (P : Call L → Prop) (s : State T L) : Prop := ∀ u c, (s.pc u).call? = some c → P c

omit [DecidableEq T] in
theorem Calls.mono {s s' : State T L} (hc : Calls P s)
    (h : ∀ u, (s'.pc u).call? = none ∨ (s'.pc u).call? = (s.pc u).call?) : Calls P s' := by
  intro u c hu
  rcases h u with h | h
  · rw [h] at hu
    cases hu
  · exact hc u c (h ▸ hu)

theorem Calls.go {s : State T L} (hc : Calls P s) {p : Pc L}
    (hp : p.call? = none ∨ p.call? = (s.pc t).call?) : Calls P (s.go t p) := by
  refine hc.mono fun u => ?_
  by_cases hut : u = t
  · subst hut
    simpa [State.go] using hp
  · simp [State.go, hut]

theorem Calls.wakeMask {s : State T L} (hc : Calls P s) (key : FutexKey) (n : Nat)
    (b : BitVec 32) : Calls P (s.wakeMask key n b).2 := by
  refine hc.mono fun u => .inr ?_
  by_cases hu : u ∈ (s.wakeMask key n b).1
  · obtain ⟨c, a, hpc, hpc'⟩ := wakeMask_mem hu
    rw [hpc, hpc']
    rfl
  · exact congrArg Pc.call? (if_neg hu)

theorem Step.calls [DecidableEq L] {s s' : State T L} {e : Event T L} (h : Step s e s')
    (he : ∀ t c, e = .call t c → P c) (hc : Calls P s) : Calls P s' := by
  cases h with
  | @call t c ht =>
    intro u c' hu
    by_cases hut : u = t
    · subst hut
      simp only [go, update_self] at hu
      cases hu
      exact he u c rfl
    · simp only [go, update_of_ne hut] at hu
      exact hc u c' hu
  | read ht _ _ | clock ht | again ht | ready ht | unwokenAgain ht => exact hc.go (.inr (by rw [ht]; rfl))
  | enqueue ht _ | dequeue ht =>
    exact Calls.go hc (.inr (by simp only [ht]; rfl))
  | wake ht _ => exact (hc.wakeMask _ _ _).go (.inl rfl)
  | store l v => exact hc
  | _ => exact hc.go (.inl rfl)

variable {arch : Arch} {files : Nat → Option Inode} {s s' : ExitState T} {mem : Backing → Int} {c : Call Backing}
  {acc : Access} {x : ExitCall} {th : Thread} {sp : Space}

open ExitState

private theorem write_pc (s : ExitState T) (t : T) (th : Thread) (acc : Access) (x : ExitCall)
    (rest : List ExitCall) : (s.write arch files t th acc x rest).futex.pc = s.futex.pc := by
  unfold write
  split <;> rfl

private theorem write_queue (s : ExitState T) (t : T) (th : Thread) (acc : Access) (x : ExitCall)
    (rest : List ExitCall) : (s.write arch files t th acc x rest).futex.queue = s.futex.queue := by
  unfold write
  split <;> rfl

theorem ExitStep.calls {e : ExitEvent T} (h : ExitStep arch files s e s')
    (hc : Calls (FromCommon arch files) s.futex) : Calls (FromCommon arch files) s'.futex := by
  cases h with
  | futex hs hcall => exact hs.calls hcall hc
  | kill t => exact Calls.go hc (.inl rfl)
  | exit => exact hc
  | write th acc ht hw =>
    exact hc.mono fun u => .inr (by rw [write_pc])
  | wake hw => exact hc.wakeMask _ _ _

/-- A key is that of an object, or that of a word of an address space. -/
theorem futexGetKey_spec {user : Option Space} {uaddr : Nat} {priv : Bool}
    (h : futexGetKey arch files user uaddr priv = .ok key) :
    (∃ r o, calledObject files user uaddr priv = some (r, o) ∧ key = o.key (keyOffset arch r uaddr) ∧
      calledWord files user uaddr priv = some (o.word (wordOffset r uaddr))) ∨
    calledObject files user uaddr priv = none ∧
      ∃ vm, key = exitKey vm uaddr ∧ calledWord files user uaddr priv = some (.page vm uaddr) := by
  unfold futexGetKey at h
  cases priv with
  | true =>
    cases h
    exact .inr ⟨rfl, _, rfl, rfl⟩
  | false =>
    simp only [Bool.false_eq_true, if_false] at h
    cases user with
    | none => cases h
    | some sp =>
      cases hr : sp.region uaddr with
      | none => simp [hr] at h
      | some r =>
        simp only [hr] at h
        rw [if_neg (by intro hbad; rw [if_pos hbad] at h; cases h)] at h
        simp only [calledObject, calledWord, backing, Bool.false_eq_true, if_false, Option.bind_some, hr,
          Option.map_some]
        cases ho : sharedObject files r with
        | some o =>
          rw [ho] at h
          cases h
          exact .inl ⟨r, o, rfl, rfl, rfl⟩
        | none =>
          rw [ho] at h
          cases h
          exact .inr ⟨rfl, sp.id, rfl, rfl⟩

/-- A wait without the private flag has the key of the exit path exactly if its word belongs to an address space
alone. -/
theorem key_eq_exitKey_iff (hc : c.FromCommon arch files) (hp : c.isPrivate = false) (vm addr : Nat) :
    c.key = exitKey vm addr ↔ c.word = .page vm addr := by
  obtain ⟨user, hkey, hword⟩ := hc
  rw [hp] at hkey
  have hcalled : ∀ b, calledWord files user c.uaddr false = some b → c.word = b := by
    intro b hb
    obtain ⟨sp, hsp, hb⟩ := Option.bind_eq_some_iff.1 hb
    exact hword sp b hsp hb
  rcases futexGetKey_spec hkey with ⟨r, o, -, hk, hb⟩ | ⟨-, vm', hk, hb⟩
  · rw [hk, hcalled _ hb]
    cases o <;> simp [exitKey, Object.key, Object.word]
  · rw [hk, hcalled _ hb]
    simp [exitKey]

/-- The waiter that a wake of one task on `key` takes. -/
def FirstWaiter (s : State T Backing) (key : FutexKey) (u : T) : Prop :=
  (s.queue.filter fun v => (s.pc v).matches key (BitVec.allOnes 32)).head? = some u

theorem ExitStep.wake_iff {t u : T} {vm addr : Nat} {w : List T} {a : Bool}
    (h : ExitStep arch files s (.wake t vm addr w) s') (hc : Calls (FromCommon arch files) s.futex)
    (hu : s.futex.pc u = .queued c a) (hp : c.isPrivate = false) :
    u ∈ w ↔ c.word = .page vm addr ∧ FirstWaiter s.futex c.key u := by
  cases h with
  | wake hw =>
    have hkey := key_eq_exitKey_iff (hc u c (by rw [hu]; rfl)) hp vm addr
    have hfst : (s.futex.wakeMask (exitKey vm addr) 1 (BitVec.allOnes 32)).1 =
        (s.futex.queue.filter fun v => (s.futex.pc v).matches (exitKey vm addr) (BitVec.allOnes 32)).take 1 :=
      extract_fst
    rw [hfst, take_one, Option.mem_toList]
    rw [← hkey]
    constructor
    · intro hm
      have hmem := mem_filter.1 (mem_of_head? hm)
      have hk : c.key = exitKey vm addr := by
        have := hmem.2
        rw [hu] at this
        simp only [Pc.matches, decide_eq_true_eq] at this
        exact this.1
      exact ⟨hk, by rw [FirstWaiter, hk]; exact hm⟩
    · rintro ⟨hk, hfirst⟩
      rw [FirstWaiter, hk] at hfirst
      exact hfirst

/-- The checks that the exit path makes before it wakes anybody. -/
def ExitCall.Wakes (arch : Arch) (files : Nat → Option Inode) (mem : Backing → Int) (sp : Space) (pid : BitVec 32)
    (acc : Access) : ExitCall → Prop
  | .clearTid tid => tid ≠ 0 ∧ acc.write = true ∧ ∃ r, sp.findMap tid = some r ∧ r.begin ≤ tid ∧
      (tid + 4) % 2 ^ arch.vaddrBits ≤ r.stop ∧ hasFlag r.prot protWrite = true
  | .robust entry offset => entry ≠ 0 ∧ acc.read = true ∧ acc.write = true ∧
      pageSize ≤ (ExitCall.robust entry offset).addr arch ∧
      ∃ l, backing files sp ((ExitCall.robust entry offset).addr arch) = some l ∧
        BitVec.ofInt 32 (mem l) &&& futexTidMask = pid ∧ BitVec.ofInt 32 (mem l) &&& futexWaiters ≠ 0

private theorem write_wakes_iff (hsp : th.space = some sp) :
    (∃ v, x.write arch files mem th acc = some (v, true)) ↔ x.Wakes arch files mem sp th.pid acc := by
  unfold ExitCall.write
  rw [hsp]
  cases x with
  | clearTid tid =>
    simp only [ExitCall.Wakes]
    cases hr : sp.findMap tid with
    | none => simp
    | some r => simp; tauto
  | robust entry offset =>
    simp only [ExitCall.Wakes]
    cases hl : backing files sp ((ExitCall.robust entry offset).addr arch) with
    | none => simp
    | some l =>
      by_cases h0 : entry = 0 ∨ (ExitCall.robust entry offset).addr arch < pageSize
      · rw [if_pos h0]
        simp only [reduceCtorEq, exists_false, false_iff]
        omega
      · rw [if_neg h0]
        push Not at h0
        simp [h0]
        tauto

/-- The exit path goes on to a wake exactly if its checks pass. -/
theorem write_wake_iff {rest : List ExitCall} (hsp : th.space = some sp) (hw : s.wake t = none) :
    (s.write arch files t th acc x rest).wake t = some (sp.id, x.addr arch) ↔
      x.Wakes arch files s.futex.mem sp th.pid acc := by
  rw [← write_wakes_iff hsp]
  unfold write
  rw [hsp]
  cases hx : x.write arch files s.futex.mem th acc with
  | none => simp [hw]
  | some p =>
    obtain ⟨v, wakes⟩ := p
    cases wakes with
    | false => simp [hw]
    | true => simp

/-! ### The robust list -/

private theorem mem_robustWalk {reader : Nat → Option Nat} {base pending count first entry : Nat} :
    entry ∈ robustWalk reader base pending count first ↔
      entry ≠ pending ∧ ∃ n < count, robustEntry reader base n first = some entry := by
  induction count generalizing first with
  | zero => simp [robustWalk]
  | succ count ih =>
    rw [robustWalk]
    by_cases hend : first = 0 ∨ first = base
    · have hnone : ∀ n, robustEntry reader base n first = none :=
        fun n => by cases n <;> rw [robustEntry, if_pos hend]
      simp [hend, hnone]
    · rw [if_neg hend]
      cases hread : reader first with
      | none =>
        have hnone : ∀ n, robustEntry reader base n first = none := fun n => by
          cases n <;> simp [robustEntry, hend, hread]
        simp [hnone]
      | some next =>
        have hzero : robustEntry reader base 0 first = some first := by simp [robustEntry, hend, hread]
        have hsucc : ∀ n, robustEntry reader base (n + 1) first = robustEntry reader base n (next / 2 * 2) :=
          fun n => by
          simp [robustEntry, hend, hread]
        have hhead : entry ∈ (if first ≠ pending then [first] else []) ↔ entry ≠ pending ∧ first = entry := by
          split_ifs with hp
          · rw [mem_singleton]
            exact ⟨fun he => ⟨he ▸ hp, he.symm⟩, fun he => he.2.symm⟩
          · simp only [not_mem_nil, false_iff]
            exact fun he => he.1 (he.2 ▸ not_not.1 hp)
        rw [mem_append, ih, hhead]
        constructor
        · rintro (⟨hne, rfl⟩ | ⟨hne, n, hn, he⟩)
          · exact ⟨hne, 0, Nat.succ_pos _, hzero⟩
          · exact ⟨hne, n + 1, Nat.succ_lt_succ hn, (hsucc n).trans he⟩
        · rintro ⟨hne, n, hn, he⟩
          cases n with
          | zero => exact .inl ⟨hne, Option.some.inj (hzero.symm.trans he)⟩
          | succ n => exact .inr ⟨hne, n, Nat.lt_of_succ_lt_succ hn, (hsucc n).symm.trans he⟩

/-- The futexes that are released: the one that is pending, and the first ones of the list. -/
def Released (reader : Nat → Option Nat) (base first pending entry : Nat) : Prop :=
  entry ≠ 0 ∧ entry = pending / 2 * 2 ∨ ∃ n < robustListLimit, robustEntry reader base n (first / 2 * 2) = some entry

private theorem robustEntry_ne_zero {reader : Nat → Option Nat} {base n first entry : Nat}
    (h : robustEntry reader base n first = some entry) : entry ≠ 0 := by
  induction n generalizing first with
  | zero =>
    rw [robustEntry] at h
    split_ifs at h with hend
    obtain ⟨_, -, rfl⟩ := Option.map_eq_some_iff.1 h
    exact fun h0 => hend (.inl h0)
  | succ n ih =>
    rw [robustEntry] at h
    split_ifs at h
    obtain ⟨next, -, h⟩ := Option.bind_eq_some_iff.1 h
    exact ih h

private theorem mem_releaseRobustList {reader : Nat → Option Nat} {base first pending : Nat} {offset : Int}
    (hbase : base ≠ 0) : x ∈ releaseRobustList reader base (some (first, offset, pending)) ↔
      ∃ entry, x = .robust entry offset ∧ Released reader base first pending entry := by
  simp only [releaseRobustList, if_neg hbase, mem_map, mem_append, mem_robustWalk]
  constructor
  · rintro ⟨entry, ⟨-, hlist⟩ | hpend, rfl⟩
    · exact ⟨entry, rfl, .inr hlist⟩
    · split_ifs at hpend with h0
      · obtain rfl := mem_singleton.1 hpend
        exact ⟨_, rfl, .inl ⟨h0, rfl⟩⟩
      · exact absurd hpend not_mem_nil
  · rintro ⟨entry, rfl, hrel⟩
    refine ⟨entry, ?_, rfl⟩
    by_cases hp : entry = pending / 2 * 2
    · have hne : entry ≠ 0 := by
        rcases hrel with h | ⟨n, -, h⟩
        · exact h.1
        · exact robustEntry_ne_zero h
      rw [if_pos (hp ▸ hne)]
      exact .inr (mem_singleton.2 hp)
    · exact .inl ⟨hp, hrel.resolve_left fun h => hp h.2⟩

/-- A step of the exit path of `t`, in whose address space the accesses answer so. -/
def ExitEvent.By (t : T) (th : Thread) (acc : Access) : ExitEvent T → Prop
  | .write t' th' acc' _ => t' = t ∧ th' = th ∧ acc' = acc
  | .wake t' _ _ _ => t' = t
  | _ => False

/-- Everything that an exiting thread has to do gets its turn. -/
theorem exit_progress {pre rest : List ExitCall} (th : Thread) (acc : Access) (htodo : s.todo t = pre ++ x :: rest)
    (hwake : s.wake t = none) : ∃ tr s', Run (ExitStep arch files) s tr s' ∧ (∀ e ∈ tr, e.By t th acc) ∧
      s'.todo t = x :: rest ∧ s'.wake t = none := by
  induction pre generalizing s with
  | nil => exact ⟨[], s, .nil, fun e he => absurd he not_mem_nil, htodo, hwake⟩
  | cons y pre ih =>
    obtain ⟨s₁, hs₁⟩ : ∃ s₁, s₁ = s.write arch files t th acc y (pre ++ x :: rest) := ⟨_, rfl⟩
    have hwrite : ExitStep arch files s (.write t th acc y) s₁ := hs₁ ▸ .write th acc htodo hwake
    have htodo' : s₁.todo t = pre ++ x :: rest := by
      rw [hs₁]
      unfold ExitState.write
      split <;> simp
    cases hw : s₁.wake t with
    | none =>
      obtain ⟨tr, s', hrun, hby, hdone⟩ := ih htodo' hw
      exact ⟨_, s', (Run.single hwrite).append hrun, by simpa [ExitEvent.By] using hby, hdone⟩
    | some place =>
      obtain ⟨w, s₂, hstep, htodo₂, hwake₂⟩ : ∃ w s₂, ExitStep arch files s₁ (.wake t place.1 place.2 w) s₂ ∧
          s₂.todo t = pre ++ x :: rest ∧ s₂.wake t = none := ⟨_, _, .wake hw, htodo', update_self ..⟩
      obtain ⟨tr, s', hrun, hby, hdone⟩ := ih htodo₂ hwake₂
      refine ⟨_, s', ((Run.single hwrite).snoc hstep).append hrun, ?_, hdone⟩
      simpa [ExitEvent.By] using hby

/-- In every state that a run reaches: a thread that exits has its `clear_child_tid` and the first entries of its
robust list to release, and each of them gets its turn.  With a task blocked in a wait without the private flag on a
word that has its turn, the exit path makes the task runnable exactly if its checks pass, the word is not one of a
shared object, and the task is the first that waits there. -/
theorem exit_wakes_iff {mem : Backing → Int} {tr : List (ExitEvent T)}
    (h : Run (ExitStep arch files) (ExitState.init T mem) tr s) {t u : T} {c : Call Backing} {a : Bool}
    (hu : s.futex.pc u = .queued c a) (hp : c.isPrivate = false) :
    (s.futex.pc t = .idle → s.todo t = [] → s.wake t = none → ∀ tid reader base first offset pending, base ≠ 0 →
      ∃ todo s₁, ExitStep arch files s (.exit t todo) s₁ ∧
        (∀ x, x ∈ todo ↔ x = .clearTid tid ∨ ∃ entry, x = .robust entry offset ∧
          Released reader base first pending entry) ∧
        ∀ x ∈ todo, ∀ th acc, ∃ tr s₂ rest, Run (ExitStep arch files) s₁ tr s₂ ∧ (∀ e ∈ tr, e.By t th acc) ∧
          s₂.todo t = x :: rest ∧ s₂.wake t = none) ∧
    (∀ x rest th acc sp, s.todo t = x :: rest → s.wake t = none → th.space = some sp →
      backing files sp (x.addr arch) = some c.word → ((∃ s₁ s₂ w, ExitStep arch files s (.write t th acc x) s₁ ∧
          ExitStep arch files s₁ (.wake t sp.id (x.addr arch) w) s₂ ∧ u ∈ w ∧ s₂.futex.pc u = .woken c) ↔
        x.Wakes arch files s.futex.mem sp th.pid acc ∧ c.word = .page sp.id (x.addr arch) ∧
          FirstWaiter s.futex c.key u)) ∧ ∀ vm addr, s.wake t = some (vm, addr) →
        ((∃ s₂ w, ExitStep arch files s (.wake t vm addr w) s₂ ∧ u ∈ w ∧ s₂.futex.pc u = .woken c) ↔
          c.word = .page vm addr ∧ FirstWaiter s.futex c.key u) := by
  -- the wake step itself, from any state in which the task is blocked
  have hwake : ∀ {s : ExitState T}, Calls (FromCommon arch files) s.futex → s.futex.pc u = .queued c a →
      ∀ vm addr, s.wake t = some (vm, addr) →
        ((∃ s₂ w, ExitStep arch files s (.wake t vm addr w) s₂ ∧ u ∈ w ∧ s₂.futex.pc u = .woken c) ↔
          c.word = .page vm addr ∧ FirstWaiter s.futex c.key u) := by
    intro s hc hu vm addr hw
    constructor
    · rintro ⟨s₂, w, hs, hm, -⟩
      exact (hs.wake_iff hc hu hp).mp hm
    · intro hcond
      have hs : ExitStep arch files s (.wake t vm addr _) _ := .wake hw
      have hm := (hs.wake_iff hc hu hp).mpr hcond
      obtain ⟨c', a', hpc, hpc'⟩ := wakeMask_mem hm
      rw [hu] at hpc
      cases hpc
      exact ⟨_, _, hs, hm, hpc'⟩
  have hc := Run.invariant_state (fun s => Calls (FromCommon arch files) s.futex) h nofun fun _ _ _ hc hs =>
    hs.calls hc
  refine ⟨?_, ?_, hwake hc hu⟩
  · intro hidle hnil hw tid reader base first offset pending hbase
    have hexit : ExitStep arch files s (.exit t _) _ :=
      .exit tid reader base (some (first, offset, pending)) hidle hnil hw
    refine ⟨_, _, hexit, fun x => ?_, fun x hx th acc => ?_⟩
    · rw [mem_cons, mem_releaseRobustList hbase]
    · obtain ⟨pre, rest, hsplit⟩ := mem_iff_append.1 hx
      have htodo := (update_self t _ s.todo).trans hsplit
      obtain ⟨tr, s₂, hrun, hby, hdone⟩ := exit_progress (s := { s with todo := update s.todo t _ }) th acc htodo hw
      exact ⟨tr, s₂, rest, hrun, hby, hdone⟩
  intro x rest th acc sp hx hw hsp hb
  have hiff : (s.write arch files t th acc x rest).wake t = some (sp.id, x.addr arch) ↔
      x.Wakes arch files s.futex.mem sp th.pid acc := write_wake_iff hsp hw
  have hc' : Calls (FromCommon arch files) (s.write arch files t th acc x rest).futex :=
    (ExitStep.write th acc hx hw).calls hc
  have hu' : (s.write arch files t th acc x rest).futex.pc u = .queued c a := by rw [write_pc, hu]
  have hfirst : FirstWaiter (s.write arch files t th acc x rest).futex c.key u ↔ FirstWaiter s.futex c.key u := by
    unfold FirstWaiter
    rw [write_pc, write_queue]
  constructor
  · rintro ⟨s₁, s₂, w, hs1, hs2, hm, hpc⟩
    cases hs1 with
    | write _ _ hx' hw' =>
      rw [hx] at hx'
      cases hx'
      have hset : (s.write arch files t th acc x rest).wake t = some (sp.id, x.addr arch) := by
        cases hs2 with
        | wake h => exact h
      obtain ⟨hpage, hf⟩ := (hwake hc' hu' _ _ hset).mp ⟨s₂, w, hs2, hm, hpc⟩
      exact ⟨hiff.1 hset, hpage, hfirst.1 hf⟩
  · rintro ⟨hwk, hpage, hf⟩
    have hset := hiff.2 hwk
    obtain ⟨s₂, w, hs2, hm⟩ := (hwake hc' hu' _ _ hset).mpr ⟨hpage, hfirst.2 hf⟩
    exact ⟨_, s₂, w, .write th acc hx hw, hs2, hm⟩

end

/-- What a key has of an object, and the offset cut to 32 bits, tell whether two words of shared objects are the
same. -/
def Told (arch : Arch) (r r' : VmRegion) (addr addr' : Nat) : Object → Object → Prop
  | .file i, .file i' => (i.identity = i'.identity ∧ i.ino = i'.ino ∧
    keyOffset arch r addr = keyOffset arch r' addr') ↔
      i.file = i'.file ∧ wordOffset r addr = wordOffset r' addr'
  | .anon id, .anon id' => id = id' →
      (keyOffset arch r addr = keyOffset arch r' addr' ↔ wordOffset r addr = wordOffset r' addr')
  | _, _ => True

private theorem told_iff {r r' : VmRegion} {addr addr' : Nat} {o o' : Object} : Told arch r r' addr addr' o o' ↔
    (o.key (keyOffset arch r addr) = o'.key (keyOffset arch r' addr') ↔
      o.word (wordOffset r addr) = o'.word (wordOffset r' addr')) := by
  cases o <;> cases o' <;> simp [Told, Object.key, Object.word]

def oneFile : Nat → Option Inode := fun _ => some ⟨1, 5, 0, 7⟩

/-- Two pages of a file, mapped shared one behind the other; the second from the given offset on. -/
def twoPageSpace (offset : UInt64) : Option Space :=
  some ⟨1, ⟨.node .leaf ⟨0x1000, 0x2000, 3, 1, some 1, 0, 0, 0⟩
    (.node .leaf ⟨0x2000, 0x3000, 3, 1, some 1, offset, 0, 0⟩ .leaf), 0, 0xC0000000⟩⟩

/-- An address space with one page, mapped with these flags. -/
def onePageSpace (flag : Int) (anonId : Nat) : Space :=
  ⟨1, ⟨.node .leaf ⟨0x1000, 0x2000, 3, flag, none, 0, anonId, 0⟩ .leaf, 0, 0xC0000000⟩⟩

/-- The number 7 with `FUTEX_WAITERS`, as an `int`. -/
def ownedWord : Int := -0x7ffffff9

/-- `FUTEX_WAIT` on the first word of the page, by a thread that joins another. -/
def joinCall (key : FutexKey) (word : Backing) : Call Backing := ⟨0x1000, futexWait, ownedWord, false, 0, key, word⟩

private theorem joinCall_decode (key : FutexKey) (word : Backing) : (joinCall key word).decode = .ok .wait := by
  have hcmd : (joinCall key word).cmd = futexWait := by simp [joinCall, cmd, futexWait]
  have hbits : (joinCall key word).bitset = BitVec.allOnes 32 := bitset_of_wait hcmd
  unfold decode
  rw [hcmd, hbits]
  simp [joinCall, futexWait, futexClockRealtime]

/-- The join of `true` goes to sleep. -/
def joinSteps (c : Call Backing) : List (ExitEvent Bool) :=
  [.futex (.call true c), .futex (.internal true), .futex (.internal true), .futex (.internal true),
    .futex (.queue true)]

def joined (c : Call Backing) : ExitState Bool :=
  ⟨{ State.init Bool fun _ => ownedWord with queue := [true] }.go true (.queued c true), fun _ => [], fun _ => none⟩

private theorem joinSteps_run {word : Backing} (hc : (joinCall key word).FromCommon x64 fun _ => none) :
    Run (ExitStep x64 fun _ => none) (ExitState.init Bool fun _ => ownedWord) (joinSteps (joinCall key word))
      (joined (joinCall key word)) := by
  have hcall : ∀ t c, (Event.call true (joinCall key word) : Event Bool Backing) = .call t c →
      c.FromCommon x64 fun _ => none := by
    rintro t c ⟨⟩
    exact hc
  have h0 : Run (ExitStep x64 fun _ => none) (ExitState.init Bool fun _ => ownedWord) [] _ := .nil
  have h1 := h0.snoc (.futex (.call (joinCall key word) rfl) hcall)
  have h2 := h1.snoc (.futex (.read (t := true) rfl (joinCall_decode key word) rfl) (by rintro t c ⟨⟩))
  have h3 := h2.snoc (.futex (.clock (t := true) rfl) (by rintro t c ⟨⟩))
  have h4 := h3.snoc (.futex (.again (t := true) rfl) (by rintro t c ⟨⟩))
  have h5 := h4.snoc (.futex (.enqueue (t := true) rfl rfl) (by rintro t c ⟨⟩))
  simpa [go, ExitState.init, init, joined, joinSteps] using h5

def privateSpace : Space := onePageSpace 0x22 0

def privateJoin : Call Backing := joinCall ⟨0, 1, 0, 0x1000⟩ (.page 1 0x1000)

/-- The second entry of the list of the other thread, which has number 7, is for the word. -/
def twoEntries : Nat → Option Nat := fun entry => some (if entry = 0x1100 then 0x1200 else 0x1f00)

/-- The page of a private mapping: the join is woken by the release of the second entry. -/
theorem exit_wakes_private_join : ∃ s w, Run (ExitStep x64 fun _ => none) (ExitState.init Bool fun _ => ownedWord)
      (joinSteps privateJoin ++ [.exit false (.clearTid 0 :: releaseRobustList twoEntries 0x1f00
          (some (0x1100, -0x200, 0))), .write false ⟨some privateSpace, 7⟩ ⟨true, true⟩ (.clearTid 0),
        .write false ⟨some privateSpace, 7⟩ ⟨true, true⟩ (.robust 0x1100 (-0x200)),
        .write false ⟨some privateSpace, 7⟩ ⟨true, true⟩ (.robust 0x1200 (-0x200)), .wake false 1 0x1000 w]) s ∧
    true ∈ w ∧ s.futex.pc true = .woken privateJoin := by
  have hc : privateJoin.FromCommon x64 fun _ => none := ⟨some privateSpace, rfl, by rintro sp b ⟨⟩ hb; cases hb; rfl⟩
  have h := joinSteps_run hc
  have hs : ExitStep x64 (fun _ => none) (joined privateJoin) (.exit false
      [.clearTid 0, .robust 0x1100 (-0x200), .robust 0x1200 (-0x200)]) _ :=
    .exit 0 twoEntries 0x1f00 (some (0x1100, -0x200, 0)) rfl rfl rfl
  have h1 := (h.snoc hs).snoc (.write (t := false) ⟨some privateSpace, 7⟩ ⟨true, true⟩ rfl rfl)
  have h2 := h1.snoc (.write (t := false) ⟨some privateSpace, 7⟩ ⟨true, true⟩ rfl rfl)
  obtain ⟨s1, s2, w, hs1, hs2, hm, hpc⟩ := ((exit_wakes_iff (t := false) (u := true) h2 rfl rfl).2.1
    (.robust 0x1200 (-0x200)) [] ⟨some privateSpace, 7⟩ ⟨true, true⟩ privateSpace rfl rfl rfl rfl).mpr
    ⟨⟨by decide, rfl, rfl, by decide, _, rfl, by decide, by decide⟩, rfl, rfl⟩
  exact ⟨s2, w, (h2.snoc hs1).snoc hs2, hm, hpc⟩

def sharedSpace : Space := onePageSpace 0x21 1

def sharedJoin : Call Backing := joinCall ⟨2, 0, 1, 0⟩ (.anon 1 0)

/-- The page of a shared anonymous mapping: the exit path is over and the join sleeps on. -/
theorem exit_misses_shared_join : ∃ s, Run (ExitStep x64 fun _ => none) (ExitState.init Bool fun _ => ownedWord)
      (joinSteps sharedJoin ++ [.exit false [.clearTid 0x1000],
        .write false ⟨some sharedSpace, 7⟩ ⟨true, true⟩ (.clearTid 0x1000), .wake false 1 0x1000 []]) s ∧
    sharedJoin.isPrivate = false ∧ backing (fun _ => none) sharedSpace 0x1000 = some sharedJoin.word ∧
    s.futex.pc true = .queued sharedJoin true ∧ s.todo false = [] ∧ s.wake false = none := by
  have hc : sharedJoin.FromCommon x64 fun _ => none := ⟨some sharedSpace, rfl, by rintro sp b ⟨⟩ hb; cases hb; rfl⟩
  have hs : ExitStep x64 (fun _ => none) (joined sharedJoin) (.exit false [.clearTid 0x1000]) _ :=
    .exit 0x1000 (fun _ => none) 0 none rfl rfl rfl
  have h := ((joinSteps_run hc).snoc hs).snoc (.write (t := false) ⟨some sharedSpace, 7⟩ ⟨true, true⟩ rfl rfl)
  exact ⟨_, h.snoc (.wake rfl), rfl, rfl, rfl, rfl, rfl⟩

end Mos.Futex
