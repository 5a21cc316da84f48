import Mathlib.Data.List.Nodup

/-!
# Tables of records with a key

A table is a list of records in which no two have the same key.  A record is replaced and removed by its key; either
way the rest of the table stays as it is (`Keyed.split`).
-/

namespace Mos.Lib

open List

variable {β κ : Type*} [DecidableEq κ] {key : β → κ} {l : List β} {x y : β} {k : κ}

def Keyed (key : β → κ) (l : List β) : Prop := (l.map key).Nodup

def replaceKey (key : β → κ) (l : List β) (x : β) : List β := l.map fun y => if key y = key x then x else y

def removeKey (key : β → κ) (l : List β) (k : κ) : List β := l.filter fun y => key y ≠ k

omit [DecidableEq κ] in
theorem Keyed.eq_of_mem (h : Keyed key l) (hx : x ∈ l) (hy : y ∈ l) (hkey : key x = key y) : x = y :=
  inj_on_of_nodup_map h hx hy hkey

theorem replaceKey_of_notMem (h : ∀ y ∈ l, key y ≠ key x) : replaceKey key l x = l := by
  unfold replaceKey
  rw [map_congr_left fun y hy => if_neg (h y hy)]
  exact map_id l

theorem removeKey_of_notMem (h : ∀ y ∈ l, key y ≠ k) : removeKey key l k = l :=
  filter_eq_self.2 fun y hy => decide_eq_true (h y hy)

theorem Keyed.split (h : Keyed key l) (hx : x ∈ l) : ∃ l1 l2, l = l1 ++ x :: l2 ∧
    (∀ y, key y = key x → replaceKey key l y = l1 ++ y :: l2) ∧ removeKey key l (key x) = l1 ++ l2 := by
  obtain ⟨l1, l2, rfl⟩ := append_of_mem hx
  have hne : ∀ y ∈ l1 ++ l2, key y ≠ key x := by
    intro y hy hkey
    unfold Keyed at h
    rw [map_append, map_cons, nodup_middle, nodup_cons, ← map_append] at h
    exact h.1 (hkey ▸ mem_map_of_mem hy)
  have h1 : ∀ y ∈ l1, key y ≠ key x := fun y hy => hne y (mem_append_left _ hy)
  have h2 : ∀ y ∈ l2, key y ≠ key x := fun y hy => hne y (mem_append_right _ hy)
  refine ⟨l1, l2, rfl, ?_, ?_⟩
  · intro y hy
    have hold : replaceKey key (l1 ++ x :: l2) y = replaceKey key l1 y ++ y :: replaceKey key l2 y := by
      simp [replaceKey, hy]
    rw [hold, replaceKey_of_notMem (hy ▸ h1), replaceKey_of_notMem (hy ▸ h2)]
  · have hold : removeKey key (l1 ++ x :: l2) (key x) = removeKey key l1 (key x) ++ removeKey key l2 (key x) := by
      simp [removeKey]
    rw [hold, removeKey_of_notMem h1, removeKey_of_notMem h2]

theorem keys_replaceKey (key : β → κ) (l : List β) (x : β) : (replaceKey key l x).map key = l.map key := by
  simp only [replaceKey, map_map]
  apply map_congr_left
  intro y _
  simp only [Function.comp_apply]
  split
  · exact Eq.symm ‹_›
  · rfl

theorem Keyed.replace (h : Keyed key l) (x : β) : Keyed key (replaceKey key l x) := by
  unfold Keyed
  rw [keys_replaceKey]
  exact h

theorem Keyed.remove (h : Keyed key l) (k : κ) : Keyed key (removeKey key l k) := h.sublist (filter_sublist.map key)

theorem mem_replaceKey (h : ∃ z ∈ l, key z = key x) : y ∈ replaceKey key l x ↔ y = x ∨ y ∈ l ∧ key y ≠ key x := by
  simp only [replaceKey, mem_map]
  constructor
  · intro hy
    obtain ⟨z, hz, rfl⟩ := hy
    split
    · exact .inl rfl
    · exact .inr ⟨hz, ‹_›⟩
  · intro hy
    rcases hy with rfl | ⟨hy, hne⟩
    · obtain ⟨z, hz, hkey⟩ := h
      exact ⟨z, hz, if_pos hkey⟩
    · exact ⟨y, hy, if_neg hne⟩

/-- What holds between a record and the one that replaces it, and between the others and themselves. -/
theorem Keyed.forall_replace {P : β → β → Prop} (h : Keyed key l) (hx : x ∈ l) (hkey : key y = key x) (hP : P x y)
    (hself : ∀ z ∈ l, key z ≠ key x → P z z) : ∀ z ∈ l, ∃ z' ∈ replaceKey key l y, key z' = key z ∧ P z z' := by
  intro z hz
  by_cases hzx : key z = key x
  · rw [h.eq_of_mem hz hx hzx]
    exact ⟨y, (mem_replaceKey ⟨x, hx, hkey.symm⟩).mpr (.inl rfl), hkey, hP⟩
  · exact ⟨z, (mem_replaceKey ⟨x, hx, hkey.symm⟩).mpr (.inr ⟨hz, hkey ▸ hzx⟩), rfl, hself z hz hzx⟩

theorem removeKey_replaceKey (key : β → κ) (l : List β) (x : β) :
    removeKey key (replaceKey key l x) (key x) = removeKey key l (key x) := by
  induction l with
  | nil => rfl
  | cons y l ih =>
    simp only [removeKey, replaceKey, map_cons, filter_cons] at ih ⊢
    by_cases hy : key y = key x
    · simpa [hy] using ih
    · simpa [hy] using ih

theorem mem_removeKey : y ∈ removeKey key l k ↔ y ∈ l ∧ key y ≠ k := by
  simp [removeKey]

end Mos.Lib
