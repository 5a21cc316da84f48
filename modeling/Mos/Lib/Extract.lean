import Mathlib.Data.List.Nodup

/-!
# Taking the first matches out of a list

`extract p n l` walks over `l` and takes out the elements that satisfy `p`, until it has taken `n` of them or reached
the end: the loop of a scan over a queue that removes what it finds.
-/

namespace Mos.Lib

open List

variable {α : Type*}

/-- The elements taken and the list that is left. -/
def extract (p : α → Bool) : Nat → List α → List α × List α
  | 0, l => ([], l)
  | _ + 1, [] => ([], [])
  | n + 1, a :: l =>
    if p a then (a :: (extract p n l).1, (extract p n l).2)
    else ((extract p (n + 1) l).1, a :: (extract p (n + 1) l).2)

variable {p : α → Bool} {n : Nat} {l : List α} {a : α}

theorem extract_fst : (extract p n l).1 = (l.filter p).take n := by
  induction l generalizing n with
  | nil => cases n <;> rfl
  | cons a l ih =>
    cases n with
    | zero => simp [extract]
    | succ n =>
      by_cases ha : p a = true
      · simp [extract, ha, ih]
      · simp [extract, ha, ih]

theorem extract_perm : ((extract p n l).1 ++ (extract p n l).2).Perm l := by
  induction l generalizing n with
  | nil => cases n <;> exact .refl _
  | cons a l ih =>
    cases n with
    | zero => exact .refl _
    | succ n =>
      by_cases ha : p a = true
      · simpa [extract, ha] using ih
      · simp only [extract, ha, if_false, Bool.false_eq_true]
        exact perm_middle.trans (ih.cons a)

theorem extract_snd_sublist : (extract p n l).2.Sublist l := by
  induction l generalizing n with
  | nil => cases n <;> exact .slnil
  | cons a l ih =>
    cases n with
    | zero => exact .refl _
    | succ n =>
      by_cases ha : p a = true
      · simpa [extract, ha] using ih.cons a
      · simpa [extract, ha] using ih

theorem mem_extract_fst (h : a ∈ (extract p n l).1) : a ∈ l ∧ p a = true := by
  rw [extract_fst] at h
  exact mem_filter.1 (mem_of_mem_take h)

theorem mem_extract_snd (hl : l.Nodup) : a ∈ (extract p n l).2 ↔ a ∈ l ∧ a ∉ (extract p n l).1 := by
  have hperm : ((extract p n l).1 ++ (extract p n l).2).Perm l := extract_perm
  have hnd := hperm.nodup_iff.2 hl
  have hmem : a ∈ (extract p n l).1 ∨ a ∈ (extract p n l).2 ↔ a ∈ l := by
    rw [← mem_append]
    exact hperm.mem_iff
  constructor
  · intro h
    exact ⟨hmem.1 (.inr h), fun h' => (disjoint_of_nodup_append hnd) h' h⟩
  · rintro ⟨h, hno⟩
    exact (hmem.2 h).resolve_left hno

theorem extract_snd [DecidableEq α] (hl : l.Nodup) :
    (extract p n l).2 = l.filter fun a => decide (a ∉ (extract p n l).1) := by
  induction l generalizing n with
  | nil => cases n <;> rfl
  | cons b l ih =>
    obtain ⟨hb, hl⟩ := nodup_cons.1 hl
    cases n with
    | zero => simp [extract]
    | succ n =>
      by_cases hp : p b = true
      · simp only [extract, hp, if_true, filter_cons, mem_cons, true_or, not_true_eq_false, decide_false,
          Bool.false_eq_true, if_false]
        rw [ih hl]
        refine filter_congr fun a ha => ?_
        have hab : a ≠ b := fun h => hb (h ▸ ha)
        simp [hab]
      · have hno : b ∉ (extract p (n + 1) l).1 := fun h => hb (mem_extract_fst h).1
        simp only [extract, hp, if_false, Bool.false_eq_true, filter_cons, hno, not_false_eq_true, decide_true,
          if_true]
        rw [ih hl]

theorem extract_all (hn : (l.filter p).length ≤ n) (h : a ∈ (extract p n l).2) : p a = false := by
  have hfst : (extract p n l).1 = l.filter p := by rw [extract_fst, take_of_length_le hn]
  -- all that satisfies the predicate is in the first part, so the second part has none of it
  have hlen := (extract_perm (p := p) (n := n) (l := l) |>.filter p).length_eq
  rw [filter_append, hfst, filter_filter] at hlen
  have hnil : (extract p n l).2.filter p = [] := by simpa using hlen
  simpa using filter_eq_nil_iff.1 hnil a h

end Mos.Lib
