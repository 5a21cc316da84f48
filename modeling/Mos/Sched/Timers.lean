import Mos.Lib.SearchTree

/-!
# The timer tree of the scheduler

`timer_arm_unsafe` and `timer_disarm_unsafe` of `src/ps/impl/alg/ps_alg_rr.c`: a red-black tree that holds a node of
every task with a pending deadline, ordered by the deadlines.  A node that is in no tree is marked as empty (`armed`
is false). Rebalancing is a parameter.
-/

namespace Mos.Sched

open Lib Function List

structure Timers (T : Type) where
  tree : Lib.Tree T
  armed : T → Bool
  due : T → Nat

def Timers.empty (T : Type) : Timers T := ⟨.leaf, fun _ => false, fun _ => 0⟩

section

variable {T : Type} [DecidableEq T] (B : Balancing T)

/-- Take the node of a task out of the tree. -/
def Timers.clear (tm : Timers T) (t : T) : Timers T :=
  ⟨B.erase tm.tree t, update tm.armed t false, update tm.due t 0⟩

/-- `timer_disarm_unsafe`. -/
def Timers.disarm (tm : Timers T) (t : T) : Timers T := if tm.armed t then tm.clear B t else tm

/-- `timer_arm_unsafe`, for a deadline; one that is already in the tree stays to the left of an equal new one. -/
def Timers.arm (tm : Timers T) (t : T) (due : Nat) : Timers T :=
  let tm := tm.disarm B t
  let tree := (tm.tree.insert (fun r => if due < tm.due r then .lt else .gt) t).elim tm.tree B.insertColor
  ⟨tree, update tm.armed t true, update tm.due t due⟩

/-- The tree is ordered by the deadlines and has one node of each armed task. -/
structure Timers.Ok (tm : Timers T) : Prop where
  sorted : tm.tree.toList.Pairwise fun a b => tm.due a ≤ tm.due b
  nodup : tm.tree.toList.Nodup
  mem_iff : ∀ t, t ∈ tm.tree.toList ↔ tm.armed t = true

variable {B} {tm : Timers T} {t : T}

omit [DecidableEq T] in
theorem Timers.Ok.empty : (Timers.empty T).Ok := ⟨.nil, nodup_nil, fun t => by simp [Timers.empty, Tree.toList]⟩

private theorem sorted_update {l : List T} {due : T → Nat} (h : l.Pairwise fun a b => due a ≤ due b) (ht : t ∉ l)
    (d : Nat) : l.Pairwise fun a b => update due t d a ≤ update due t d b := by
  refine h.imp_of_mem fun {a b} ha hb hab => ?_
  have hne : ∀ {c}, c ∈ l → c ≠ t := fun hc he => ht (he ▸ hc)
  rwa [update_of_ne (hne ha), update_of_ne (hne hb)]

section

variable (h : tm.Ok)

include h

theorem Timers.clear_toList (ht : tm.armed t = true) :
    (tm.clear B t).tree.toList = tm.tree.toList.erase t := B.erase_toList _ _ ((h.mem_iff t).mpr ht)

theorem Timers.Ok.clear (ht : tm.armed t = true) : (tm.clear B t).Ok := by
  have hlist := clear_toList (B := B) h ht
  refine ⟨?_, ?_, fun u => ?_⟩
  · rw [hlist]
    exact sorted_update (h.sorted.sublist erase_sublist) (fun hm => by simp [h.nodup.mem_erase_iff] at hm) 0
  · rw [hlist]
    exact h.nodup.erase t
  · rw [hlist, h.nodup.mem_erase_iff, h.mem_iff]
    by_cases hu : u = t
    · simp [Timers.clear, hu]
    · simp [Timers.clear, hu]

theorem Timers.Ok.disarm (t : T) : (tm.disarm B t).Ok ∧ (tm.disarm B t).armed t = false := by
  unfold Timers.disarm
  split_ifs with ht
  · exact ⟨h.clear ht, update_self _ _ _⟩
  · exact ⟨h, by simpa using ht⟩

theorem Timers.Ok.insert (ht : tm.armed t = false) (due : Nat) :
    (Timers.mk ((tm.tree.insert (fun r => if due < tm.due r then .lt else .gt) t).elim tm.tree B.insertColor)
      (update tm.armed t true) (update tm.due t due)).Ok := by
  have hno : t ∉ tm.tree.toList := fun hm => by
    rw [h.mem_iff, ht] at hm
    cases hm
  have hcut : Tree.Cut (fun r => if due < tm.due r then .lt else .gt) tm.tree.toList := by
    refine h.sorted.imp fun {a b} hab => ⟨fun ha => ?_, fun hb => ?_⟩
    · have : due < tm.due a := by simpa using ha
      exact if_pos (by omega)
    · have : tm.due b ≤ due := by simpa using hb
      exact if_neg (by omega)
  obtain ⟨tree', l1, l2, hins, hold, hnew, hl1, hl2⟩ := Tree.insert_spec t hcut fun x _ => by split_ifs <;> decide
  have hlist : (B.insertColor tree').toList = l1 ++ t :: l2 := by rw [B.insertColor_toList, hnew]
  have hle : ∀ a ∈ l1, tm.due a ≤ due := fun a ha => by simpa using hl1 a ha
  have hlt : ∀ a ∈ l2, due < tm.due a := fun a ha => by simpa using hl2 a ha
  obtain ⟨hsort, hnd, hmem⟩ := h
  rw [hold] at hno hnd hsort hmem
  obtain ⟨hno1, hno2⟩ : t ∉ l1 ∧ t ∉ l2 := by simpa [not_or] using hno
  have hne : ∀ {l : List T} {a : T}, t ∉ l → a ∈ l → a ≠ t := fun hl ha he => hl (he ▸ ha)
  rw [hins]
  refine ⟨?_, ?_, fun u => ?_⟩
  · obtain ⟨hs1, hs2, hs12⟩ := pairwise_append.1 (sorted_update hsort hno due)
    simp only [Option.elim_some, hlist]
    refine pairwise_append.2 ⟨hs1, pairwise_cons.2 ⟨fun a ha => ?_, hs2⟩, fun a ha b hb => ?_⟩
    · rw [update_self, update_of_ne (hne hno2 ha)]
      exact Nat.le_of_lt (hlt a ha)
    · rcases mem_cons.1 hb with rfl | hb
      · rw [update_self, update_of_ne (hne hno1 ha)]
        exact hle a ha
      · exact hs12 a ha b hb
  · simp only [Option.elim_some, hlist]
    exact perm_middle.nodup_iff.2 (nodup_cons.2 ⟨hno, hnd⟩)
  · simp only [Option.elim_some, hlist]
    rw [perm_middle.mem_iff, mem_cons, hmem]
    by_cases hu : u = t
    · simp [hu]
    · simp [hu]

theorem Timers.Ok.arm (t : T) (due : Nat) : (tm.arm B t due).Ok :=
  (h.disarm t).1.insert (h.disarm t).2 due

end

end

end Mos.Sched
