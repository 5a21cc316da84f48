import Mos.Lib.Tally

/-!
# The flock counters of an inode

`sys_flock` of `src/syscall/impl/syscall_fs.c` keeps the locks of a file in its in-memory inode: the description that
holds `LOCK_EX`, and the number of those that hold `LOCK_SH`.  Each description remembers what it holds itself.
`Agrees` says that the two accounts are the same, and that an exclusive lock excludes the others; giving up and taking
a lock keep it.
-/

namespace Mos.Flock

open Lib Function List

/-- `f_flock` of a description. -/
inductive Mode
  | none
  | sh
  | ex
  deriving DecidableEq

/-- The `i_flock` fields of an inode; `locked` is the state of `i_flock_lock`. -/
structure FlockInode (D : Type) where
  inited : Bool
  locked : Bool
  exOwner : Option D
  sh : Int

variable {D : Type} [DecidableEq D]

def FlockInode.zero (D : Type) : FlockInode D := ⟨false, false, none, 0⟩

def FlockInode.drop (n : FlockInode D) : Mode → FlockInode D
  | .none => n
  | .sh => { n with sh := n.sh - 1 }
  | .ex => { n with exOwner := none }

def FlockInode.acquire (n : FlockInode D) (d : D) : Mode → FlockInode D
  | .none => n
  | .sh => { n with sh := n.sh + 1 }
  | .ex => { n with exOwner := some d }

/-- The test at `retry`, for a description `d` that holds `held` and asks for `m`. -/
def FlockInode.conflict (n : FlockInode D) (held : Mode) (d : D) (m : Mode) : Bool :=
  let owned := n.exOwner ≠ none ∧ n.exOwner ≠ some d
  if m = .sh then owned
  else owned ∨ n.sh - (if held = .sh then 1 else 0) > 0

/-- The inode accounts for what the descriptions attached to it hold. -/
structure Agrees (n : FlockInode D) (held : D → Mode) : Prop where
  owner : ∀ d, n.exOwner = some d ↔ held d = .ex
  readers : ∃ l, Listed (fun m : Mode => m = .sh) l held ∧ n.sh = l.length
  excl : n.exOwner ≠ none → n.sh = 0

variable {n : FlockInode D} {held : D → Mode} {d : D} {m : Mode}

omit [DecidableEq D] in
theorem Agrees.zero : Agrees (FlockInode.zero D) fun _ => .none :=
  ⟨fun _ => by simp [FlockInode.zero], ⟨[], .nil (by decide), rfl⟩, fun _ => rfl⟩

section

variable (h : Agrees n held)

include h

section

omit [DecidableEq D]

theorem Agrees.congr {n' : FlockInode D} (ho : n'.exOwner = n.exOwner) (hs : n'.sh = n.sh) : Agrees n' held := by
  refine ⟨?_, ?_, ?_⟩
  · rw [ho]
    exact h.owner
  · rw [hs]
    exact h.readers
  · rw [ho, hs]
    exact h.excl

theorem Agrees.sh_pos (hd : held d = .sh) : 0 < n.sh := by
  obtain ⟨l, hl, hsh⟩ := h.readers
  have hmem : d ∈ l := (hl.mem_iff d).mpr (by simp [hd])
  have := length_pos_of_mem hmem
  omega

theorem Agrees.sh_nonneg : 0 ≤ n.sh := by
  obtain ⟨l, -, hsh⟩ := h.readers
  omega

theorem Agrees.exclusive {e : D} (hd : held d = .ex) (hne : e ≠ d) : held e = .none := by
  have howner := (h.owner d).mpr hd
  cases he : held e with
  | none => rfl
  | sh =>
    have hpos := h.sh_pos he
    have hzero := h.excl (by simp [howner])
    omega
  | ex =>
    have := (h.owner e).mpr he
    rw [howner] at this
    exact absurd (Option.some.inj this).symm hne

end

theorem Agrees.drop (d : D) : Agrees (n.drop (held d)) (update held d .none) := by
  obtain ⟨l, hl, hsh⟩ := h.readers
  cases hd : held d with
  | none =>
    rw [update_eq_self_iff.2 hd.symm]
    exact h
  | sh =>
    refine ⟨fun d' => ?_, ⟨l.erase d, hl.erase (by decide), ?_⟩, fun hex => ?_⟩
    · by_cases hdd : d' = d
      · subst hdd
        simpa [FlockInode.drop, hd] using h.owner d'
      · simpa [FlockInode.drop, hdd] using h.owner d'
    · have hmem : d ∈ l := (hl.mem_iff d).mpr (by simp [hd])
      have := length_pos_of_mem hmem
      simp only [FlockInode.drop, length_erase_of_mem hmem]
      omega
    · have := h.excl hex
      have := h.sh_pos hd
      omega
  | ex =>
    refine ⟨fun d' => ?_, ⟨l, hl.keep (by simp [hd]), hsh⟩, fun hex => absurd rfl hex⟩
    by_cases hdd : d' = d
    · simp [FlockInode.drop, hdd]
    · have hne : held d' ≠ .ex := by
        rw [h.exclusive hd hdd]
        decide
      simp [FlockInode.drop, hdd, hne]

/-- After the test at `retry` and after `d` has given up its own lock, the way is free. -/
theorem Agrees.free_of_no_conflict (hc : n.conflict (held d) d m = false) :
    (n.drop (held d)).exOwner = none ∧ (m ≠ .sh → (n.drop (held d)).sh = 0) := by
  have howned : n.exOwner = none ∨ n.exOwner = some d := by
    unfold FlockInode.conflict at hc
    by_contra hno
    push Not at hno
    split_ifs at hc <;> simp_all
  refine ⟨?_, fun hm => ?_⟩
  · rcases howned with ho | ho
    · cases held d <;> simp [FlockInode.drop, ho]
    · rw [(h.owner d).mp ho]
      rfl
  · have hle : n.sh - (if held d = .sh then 1 else 0) ≤ 0 := by
      unfold FlockInode.conflict at hc
      simp only [if_neg hm, decide_eq_false_iff_not, not_or, not_lt] at hc
      exact hc.2
    have hge := h.sh_nonneg
    cases hd : held d with
    | none =>
      simp only [hd, reduceCtorEq, if_false] at hle
      simp only [FlockInode.drop]
      omega
    | sh =>
      have hpos := h.sh_pos hd
      simp only [hd, if_true] at hle
      simp only [FlockInode.drop]
      omega
    | ex =>
      exact h.excl (by simp [(h.owner d).mpr hd])

open FlockInode

theorem Agrees.acquire (hd : held d = .none) (hm : m ≠ .none) (hfree : n.exOwner = none)
    (hsh : m ≠ .sh → n.sh = 0) : Agrees (n.acquire d m) (update held d m) := by
  obtain ⟨l, hl, hlen⟩ := h.readers
  have hno : ∀ d', held d' ≠ .ex := by
    intro d' hex
    rw [(h.owner d').mpr hex] at hfree
    cases hfree
  cases m with
  | none => exact absurd rfl hm
  | sh =>
    refine ⟨fun d' => ?_, ⟨l ++ [d], hl.push (by simp [hd]) rfl, ?_⟩, fun hex => absurd hfree hex⟩
    · by_cases hdd : d' = d
      · simp [acquire, hfree, hdd]
      · simp [acquire, hfree, hdd, hno d']
    · simp only [acquire, length_append, length_singleton]
      omega
  | ex =>
    refine ⟨fun d' => ?_, ⟨l, hl.keep (by simp [hd]), hlen⟩, fun _ => hsh (by decide)⟩
    by_cases hdd : d' = d
    · simp [acquire, hdd]
    · simp [acquire, hdd, Ne.symm hdd, hno d']

end

end Mos.Flock
