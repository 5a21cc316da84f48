import Mathlib.Data.List.Perm.Basic
import Mathlib.Data.List.Pairwise

/-!
# Lists of pieces as partial functions

A piece `a` covers some keys and gives each of them a value.  A list of pieces then describes a partial function on
the keys (`lookup`).  It is well defined when the pieces are pairwise apart, which is to say that no key has more than
one value (`pairwise_apart_iff`).  Operations that cut, drop and add pieces are specified by what they do to
`valuesAt`, the list of the values at a key.
-/

namespace Mos.Lib

open List

variable {α κ β : Type*} (covers : α → κ → Prop) [∀ a k, Decidable (covers a k)] (val : α → κ → β)

/-- The values at key `k`, one for each piece that covers it, in the order of the list. -/
def valuesAt (l : List α) (k : κ) : List β := (l.filter (fun a => covers a k)).map (fun a => val a k)

/-- The value at key `k`: that of the first piece that covers it. -/
def lookup (l : List α) (k : κ) : Option β := (valuesAt covers val l k).head?

/-- No key is covered by both pieces. -/
def Apart (a b : α) : Prop := ∀ k, covers a k → ¬covers b k

variable {covers val}

@[simp] theorem valuesAt_nil (k : κ) : valuesAt covers val [] k = [] := rfl

theorem valuesAt_cons (a : α) (l : List α) (k : κ) :
    valuesAt covers val (a :: l) k = if covers a k then val a k ::
    valuesAt covers val l k else valuesAt covers val l k := by
  unfold valuesAt
  by_cases h : covers a k <;> simp [h]

variable {l l' : List α} {k : κ} {a : α}

theorem valuesAt_eq_nil_iff : valuesAt covers val l k = [] ↔ ∀ a ∈ l, ¬covers a k := by
  simp [valuesAt]

theorem valuesAt_filter {p : α → Bool} (h : ∀ a ∈ l, covers a k → p a) :
    valuesAt covers val (l.filter p) k = valuesAt covers val l k := by
  have hf : (l.filter p).filter (fun a => covers a k) = l.filter (fun a => covers a k) := by
    rw [filter_filter]
    refine filter_congr fun a ha => ?_
    by_cases hk : covers a k
    · simp [hk, h a ha hk]
    · simp [hk]
  rw [valuesAt, hf, valuesAt]

omit [∀ a k, Decidable (covers a k)] in
theorem Apart.symm {b : α} (h : Apart covers a b) : Apart covers b a := fun k hb ha => h k ha hb

theorem pairwise_apart_iff (val : α → κ → β) :
    l.Pairwise (Apart covers) ↔ ∀ k, (valuesAt covers val l k).length ≤ 1 := by
  induction l with
  | nil => simp
  | cons a l ih =>
    rw [pairwise_cons, ih]
    constructor
    · rintro ⟨ha, hl⟩ k
      rw [valuesAt_cons]
      by_cases hk : covers a k
      · have hnil : valuesAt covers val l k = [] := valuesAt_eq_nil_iff.2 fun b hb => ha b hb k hk
        simp [hk, hnil]
      · rw [if_neg hk]
        exact hl k
    · intro h
      refine ⟨fun b hb k hk hbk => ?_, fun k => ?_⟩
      · have h1 := h k
        rw [valuesAt_cons, if_pos hk, length_cons] at h1
        have hnil : valuesAt covers val l k = [] := length_eq_zero_iff.1 (by omega)
        exact valuesAt_eq_nil_iff.1 hnil b hb hbk
      · have h1 := h k
        rw [valuesAt_cons] at h1
        split at h1
        · rw [length_cons] at h1
          omega
        · exact h1

theorem valuesAt_of_mem (h : l.Pairwise (Apart covers)) (ha : a ∈ l) (hk : covers a k) :
    valuesAt covers val l k = [val a k] := by
  induction l with
  | nil => simp at ha
  | cons b l ih =>
    rw [pairwise_cons] at h
    rw [valuesAt_cons]
    rcases mem_cons.1 ha with rfl | ha'
    · have hnil : valuesAt covers val l k = [] := valuesAt_eq_nil_iff.2 fun c hc => h.1 c hc k hk
      rw [if_pos hk, hnil]
    · have hb : ¬covers b k := (h.1 a ha').symm k hk
      rw [if_neg hb, ih h.2 ha']

theorem lookup_of_mem (h : l.Pairwise (Apart covers)) (ha : a ∈ l) (hk : covers a k) :
    lookup covers val l k = some (val a k) := by
  rw [lookup, valuesAt_of_mem h ha hk, List.head?_cons]

theorem lookup_eq_none_iff : lookup covers val l k = none ↔ ∀ a ∈ l, ¬covers a k := by
  rw [lookup, List.head?_eq_none_iff, valuesAt_eq_nil_iff]

omit [∀ a k, Decidable (covers a k)] in
theorem pairwise_apart_perm (h : l.Perm l') : l.Pairwise (Apart covers) ↔ l'.Pairwise (Apart covers) :=
  h.pairwise_iff fun {_ _} hab => hab.symm

theorem lookup_perm (h : l.Perm l') (hp : l.Pairwise (Apart covers)) (k : κ) :
    lookup covers val l k = lookup covers val l' k := by
  by_cases hk : ∃ a ∈ l, covers a k
  · obtain ⟨a, ha, hak⟩ := hk
    rw [lookup_of_mem hp ha hak, lookup_of_mem ((pairwise_apart_perm h).mp hp) (h.mem_iff.1 ha) hak]
  · have h1 : ∀ a ∈ l, ¬covers a k := fun a ha hak => hk ⟨a, ha, hak⟩
    have h2 : ∀ a ∈ l', ¬covers a k := fun a ha => h1 a (h.mem_iff.2 ha)
    rw [lookup_eq_none_iff.2 h1, lookup_eq_none_iff.2 h2]

theorem lookup_append (l l' : List α) (k : κ) :
    lookup covers val (l ++ l') k = (lookup covers val l k).or (lookup covers val l' k) := by
  simp [lookup, valuesAt]

/-- Replacing one piece `o` by pieces that lie inside it changes the function inside `o` only. -/
theorem lookup_recut {pieces rest : List α} {o : α} (h : l.Perm (o :: rest)) (h' : l'.Perm (pieces ++ rest))
    (hp : l.Pairwise (Apart covers)) (hp' : l'.Pairwise (Apart covers)) (k : κ)
    (hin : ∀ p ∈ pieces, covers p k → covers o k) :
    lookup covers val l' k = if covers o k then lookup covers val pieces k else lookup covers val l k := by
  have ho := (pairwise_apart_perm h).mp hp
  rw [lookup_perm h hp, lookup_perm h' hp', lookup_append]
  by_cases hk : covers o k
  · have hrest : lookup covers val rest k = none :=
      lookup_eq_none_iff.2 fun b hb => (pairwise_cons.1 ho).1 b hb k hk
    rw [if_pos hk, hrest, Option.or_none]
  · have hpieces : lookup covers val pieces k = none := lookup_eq_none_iff.2 fun p hpp hpk => hk (hin p hpp hpk)
    rw [if_neg hk, hpieces, Option.none_or]
    unfold lookup
    rw [valuesAt_cons, if_neg hk]

end Mos.Lib
