import Mathlib.Data.List.Basic

/-!
# Pools of counted objects

A pool keeps a reference count for each of its objects and a set of free ones.  An object is free, or in use without
being referenced (`idle`: allocated and not referenced yet, or kept by an owner that does not count), or referenced.
`Sound` ties the counts to the list of all references and the free set to the two lists; the lemmas below say how the
lists change with each operation.
-/

namespace Mos.Lib

open Function List

structure Pool (P : Type*) where
  count : P → Nat
  free : P → Bool
  /-- The objects that belong to the pool. -/
  owns : P → Bool

namespace Pool

variable {P : Type*} [DecidableEq P]

def get (m : Pool P) (p : P) : Pool P := { m with count := update m.count p (m.count p + 1) }

def take (m : Pool P) (p : P) : Pool P := { m with free := update m.free p false }

def give (m : Pool P) (p : P) : Pool P := if m.owns p then { m with free := update m.free p true } else m

/-- Drop a reference; the object becomes free with the last one. -/
def put (m : Pool P) (p : P) : Pool P :=
  let m' := { m with count := update m.count p (m.count p - 1) }
  if m'.count p = 0 then m'.give p else m'

structure Sound (m : Pool P) (refs idle : List P) : Prop where
  count_eq : ∀ p, m.count p = refs.count p
  free_iff : ∀ p, m.free p = true ↔ m.owns p = true ∧ p ∉ refs ∧ p ∉ idle
  owned : ∀ p, p ∈ refs ∨ p ∈ idle → m.owns p = true
  nodup : idle.Nodup
  apart : ∀ p ∈ idle, p ∉ refs

namespace Sound

variable {m : Pool P} {refs refs' idle idle' : List P} {p : P}

section

variable (h : m.Sound refs idle)

include h

theorem perm (hr : refs.Perm refs') (hi : idle.Perm idle') : m.Sound refs' idle' where
  count_eq q := by rw [h.count_eq, hr.count_eq]
  free_iff q := by rw [h.free_iff, hr.mem_iff, hi.mem_iff]
  owned q hq := h.owned q (by rwa [hr.mem_iff, hi.mem_iff])
  nodup := hi.nodup_iff.1 h.nodup
  apart q hq := by
    rw [← hr.mem_iff]
    exact h.apart q (hi.mem_iff.2 hq)

theorem count_pos : 0 < m.count p ↔ p ∈ refs := by
  rw [h.count_eq, count_pos_iff]

theorem not_free (hp : p ∈ refs ∨ p ∈ idle) : m.free p = false := by
  cases hf : m.free p with
  | false => rfl
  | true =>
    obtain ⟨-, h1, h2⟩ := (h.free_iff p).mp hf
    rcases hp with hp | hp
    · exact absurd hp h1
    · exact absurd hp h2

private theorem count_update (q : P) : update m.count p (m.count p + 1) q = (p :: refs).count q := by
  rw [count_cons]
  by_cases hq : q = p
  · subst hq
    rw [update_self, h.count_eq]
    simp
  · rw [update_of_ne hq, h.count_eq]
    simp [Ne.symm hq]

theorem get (hp : p ∈ refs) : (m.get p).Sound (p :: refs) idle where
  count_eq := h.count_update
  free_iff q := by
    rw [mem_cons, not_or]
    refine (h.free_iff q).trans (and_congr_right fun _ => and_congr_left fun _ => ⟨fun hq => ⟨?_, hq⟩, And.right⟩)
    rintro rfl
    exact hq hp
  owned q hq := by
    rcases hq with hq | hq
    · rcases mem_cons.1 hq with rfl | hq
      · exact h.owned _ (.inl hp)
      · exact h.owned q (.inl hq)
    · exact h.owned q (.inr hq)
  nodup := h.nodup
  apart q hq hq' := by
    rcases mem_cons.1 hq' with rfl | hq'
    · exact h.apart _ hq hp
    · exact h.apart q hq hq'

end

theorem get_idle (h : m.Sound refs (p :: idle)) : (m.get p).Sound (p :: refs) idle where
  count_eq := h.count_update
  free_iff q := by
    refine (h.free_iff q).trans ?_
    rw [mem_cons, mem_cons, not_or, not_or]
    tauto
  owned q hq := h.owned q (by
    rw [mem_cons] at hq ⊢
    tauto)
  nodup := (nodup_cons.1 h.nodup).2
  apart q hq hq' := by
    rcases mem_cons.1 hq' with rfl | hq'
    · exact (nodup_cons.1 h.nodup).1 hq
    · exact h.apart q (mem_cons_of_mem _ hq) hq'

theorem put (h : m.Sound (p :: refs) idle) : (m.put p).Sound refs idle := by
  have hown := h.owned p (.inl mem_cons_self)
  have hidle : p ∉ idle := fun hi => h.apart p hi mem_cons_self
  have hcount : ∀ q, update m.count p (m.count p - 1) q = refs.count q := by
    intro q
    have hq := h.count_eq q
    rw [count_cons] at hq
    by_cases hqp : q = p
    · subst hqp
      rw [update_self, hq]
      simp
    · rw [update_of_ne hqp, hq]
      simp [Ne.symm hqp]
  have howned : ∀ q, q ∈ refs ∨ q ∈ idle → m.owns q = true := fun q hq =>
    h.owned q (hq.imp_left (mem_cons_of_mem _))
  have hapart : ∀ q ∈ idle, q ∉ refs := fun q hq hr => h.apart q hq (mem_cons_of_mem _ hr)
  have hzero : m.count p - 1 = 0 ↔ p ∉ refs := by
    have := hcount p
    rw [update_self] at this
    rw [this, List.count_eq_zero]
  have hother : ∀ q, q ≠ p → (m.free q = true ↔ m.owns q = true ∧ q ∉ refs ∧ q ∉ idle) := by
    intro q hq
    rw [h.free_iff, mem_cons, not_or]
    tauto
  unfold Pool.put Pool.give
  simp only [update_self, hown, if_true]
  by_cases hz : m.count p - 1 = 0
  · rw [if_pos hz]
    refine ⟨hcount, fun q => ?_, howned, h.nodup, hapart⟩
    by_cases hq : q = p
    · subst hq
      simp [hown, hzero.1 hz, hidle]
    · simpa only [update_of_ne hq] using hother q hq
  rw [if_neg hz]
  refine ⟨hcount, fun q => ?_, howned, h.nodup, hapart⟩
  by_cases hq : q = p
  · subst hq
    have hmem : q ∈ refs := not_not.1 (mt hzero.2 hz)
    simp [h.not_free (.inl mem_cons_self), hmem]
  · exact hother q hq

theorem take (h : m.Sound refs idle) (hf : m.free p = true) : (m.take p).Sound refs (p :: idle) := by
  obtain ⟨h1, h2, h3⟩ := (h.free_iff p).mp hf
  refine ⟨h.count_eq, fun q => ?_, fun q hq => ?_, nodup_cons.2 ⟨h3, h.nodup⟩, fun q hq => ?_⟩
  · rw [mem_cons, not_or]
    by_cases hq : q = p
    · subst hq
      simp [Pool.take]
    · simp only [Pool.take, update_of_ne hq, h.free_iff]
      tauto
  · rw [mem_cons] at hq
    rcases hq with hq | rfl | hq
    · exact h.owned q (.inl hq)
    · exact h1
    · exact h.owned q (.inr hq)
  · rcases mem_cons.1 hq with rfl | hq
    · exact h2
    · exact h.apart q hq

theorem give (h : m.Sound refs (p :: idle)) : (m.give p).Sound refs idle := by
  have hown := h.owned p (.inr mem_cons_self)
  obtain ⟨hp, hnd⟩ := nodup_cons.1 h.nodup
  unfold Pool.give
  rw [if_pos hown]
  refine ⟨h.count_eq, fun q => ?_, fun q hq => h.owned q (hq.imp_right (mem_cons_of_mem _)), hnd,
    fun q hq => h.apart q (mem_cons_of_mem _ hq)⟩
  by_cases hq : q = p
  · subst hq
    simp [hown, hp, h.apart q mem_cons_self]
  · simp only [update_of_ne hq, h.free_iff, mem_cons, not_or]
    tauto

end Sound

end Pool

end Mos.Lib
