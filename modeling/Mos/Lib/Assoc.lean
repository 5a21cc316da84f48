import Mathlib.Tactic

/-!
# Association lists

Lists of pairs that are searched from the front for a key.  `find` is the value at the first pair with the key,
`remove` takes this pair out.  With every key at most once, `remove` takes out all that the key stands for.
-/

namespace Mos.Lib.Assoc

open List

theorem perm_cons_eraseP {β : Type*} {q : β → Bool} {l : List β} {x : β} (h : l.find? q = some x) :
    l.Perm (x :: l.eraseP q) := by
  obtain ⟨hx, l1, l2, rfl, hno⟩ := find?_eq_some_iff_append.1 h
  rw [eraseP_append_right _ (by simpa using hno), eraseP_cons_of_pos hx]
  exact perm_middle

variable {α β : Type*} [DecidableEq α]

def find (l : List (α × β)) (k : α) : Option β := (l.find? (·.1 = k)).map (·.2)

def remove (l : List (α × β)) (k : α) : List (α × β) := l.eraseP (·.1 = k)

variable {l : List (α × β)} {k k' : α} {v v' : β}

omit [DecidableEq α] in
theorem mem_keys (h : (k, v) ∈ l) : k ∈ l.map Prod.fst := mem_map.2 ⟨(k, v), h, rfl⟩

theorem find_eq_none : find l k = none ↔ k ∉ l.map Prod.fst := by
  simp only [find, Option.map_eq_none_iff, List.find?_eq_none, decide_eq_true_eq, mem_map, not_exists, not_and]

theorem mem_of_find (h : find l k = some v) : (k, v) ∈ l := by
  obtain ⟨e, he, rfl⟩ := Option.map_eq_some_iff.1 h
  have hk : e.1 = k := by simpa using List.find?_some he
  rw [← hk]
  exact List.mem_of_find?_eq_some he

theorem perm_remove (h : find l k = some v) : l.Perm ((k, v) :: remove l k) := by
  obtain ⟨⟨k', v'⟩, he, rfl⟩ := Option.map_eq_some_iff.1 h
  obtain rfl : k' = k := by simpa using List.find?_some he
  exact perm_cons_eraseP he

theorem remove_nodup (hl : (l.map Prod.fst).Nodup) : ((remove l k).map Prod.fst).Nodup :=
  hl.sublist (eraseP_sublist.map Prod.fst)

theorem not_mem_remove (hl : (l.map Prod.fst).Nodup) : (k, v) ∉ remove l k := by
  intro hmem
  cases hf : find l k with
  | none =>
    exact find_eq_none.1 hf (mem_keys (eraseP_sublist.subset hmem))
  | some v' =>
    have hnd := ((perm_remove hf).map Prod.fst).nodup_iff.1 hl
    exact (nodup_cons.1 hnd).1 (mem_keys hmem)

theorem mem_remove_of_ne (hne : k' ≠ k) : (k', v) ∈ remove l k ↔ (k', v) ∈ l :=
  mem_eraseP_of_neg (by simpa using hne)

theorem mem_remove (hl : (l.map Prod.fst).Nodup) : (k', v) ∈ remove l k ↔ (k', v) ∈ l ∧ k' ≠ k := by
  by_cases hk : k' = k
  · subst hk
    simp [not_mem_remove hl]
  · simp [mem_remove_of_ne hk, hk]

theorem find_of_mem (hl : (l.map Prod.fst).Nodup) (h : (k, v) ∈ l) : find l k = some v := by
  cases hf : find l k with
  | none => exact absurd (mem_keys h) (find_eq_none.1 hf)
  | some v' =>
    rcases mem_cons.1 ((perm_remove hf).mem_iff.1 h) with heq | hmem
    · cases heq
      rfl
    · exact absurd hmem (not_mem_remove hl)

end Mos.Lib.Assoc
