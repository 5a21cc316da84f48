import Mathlib.Data.Fintype.Card

/-!
# Families of tasks

A system of tasks is a family `pc : T → α` of local states.  Over a finite type of tasks `tally p pc` is the number of
tasks whose local state satisfies `p`; a step of one task changes a tally by at most one (`tally_update`), so that an
invariant about tallies is kept by arithmetic.  `Listed p l pc` says that the queue `l` holds exactly the tasks whose
local state satisfies `p`, each once.
-/

namespace Mos.Lib

open List Function

variable {T α : Type*} [Fintype T]

def tally (p : α → Bool) (f : T → α) : Nat := (Finset.univ.filter fun t => p (f t) = true).card

variable {p : α → Bool} {f : T → α} {t u : T} {a : α}

theorem tally_pos : 0 < tally p f ↔ ∃ t, p (f t) = true := by
  simp [tally, Finset.card_pos, Finset.Nonempty]

theorem tally_pos_of (h : p (f t) = true) : 0 < tally p f := tally_pos.2 ⟨t, h⟩

theorem tally_pos_at (ht : f t = a) (h : p a = true) : 0 < tally p f :=
  tally_pos_of (ht ▸ h)

theorem tally_eq_zero : tally p f = 0 ↔ ∀ t, p (f t) = false := by
  simp [tally, Finset.filter_eq_empty_iff]

theorem tally_const (h : p a = false) : tally p (fun _ : T => a) = 0 :=
  tally_eq_zero.2 fun _ => h

theorem eq_of_tally_le_one (h : tally p f ≤ 1) (ht : p (f t) = true) (hu : p (f u) = true) : t = u := by
  refine Finset.card_le_one.1 h t ?_ u ?_
  · simpa using ht
  · simpa using hu

theorem tally_le_card (p : α → Bool) (f : T → α) : tally p f ≤ Fintype.card T :=
  Finset.card_le_univ _

variable [DecidableEq T]

theorem tally_update (p : α → Bool) (f : T → α) (t : T) (a : α) :
    tally p (update f t a) + (p (f t)).toNat = tally p f + (p a).toNat := by
  have hsplit : ∀ g : T → α, (∀ u, u ≠ t → g u = f u) →
      tally p g = ((Finset.univ.erase t).filter fun u => p (f u) = true).card + (p (g t)).toNat := by
    intro g hg
    unfold tally
    rw [← Finset.insert_erase (Finset.mem_univ t), Finset.filter_insert]
    have hrest : ((Finset.univ.erase t).filter fun u => p (g u) = true) =
        (Finset.univ.erase t).filter fun u => p (f u) = true := by
      refine Finset.filter_congr fun u hu => ?_
      rw [hg u (Finset.ne_of_mem_erase hu)]
    cases hp : p (g t) with
    | false | true => simp [hrest]
  have h1 := hsplit f fun _ _ => rfl
  have h2 := hsplit (update f t a) fun u hu => update_of_ne hu _ _
  rw [update_self] at h2
  omega

theorem eq_tally_update {m k : Nat} (h : m = tally p f) (hk : k + (p (f t)).toNat = m + (p a).toNat) :
    k = tally p (update f t a) := by
  have := tally_update p f t a
  omega

theorem tally_pos_update (h : p a = true) : 0 < tally p (update f t a) := tally_pos_at (update_self t a f) h

theorem tally_update_of_eq (h : p a = p (f t)) : tally p (update f t a) = tally p f := by
  have := tally_update p f t a
  rw [h] at this
  omega

variable {n : α → Bool}

/-- Where the presence of an `n` calls for an `a`: a step must not drop an `a`, and may add an `n` only in the
presence of either. -/
theorem covered_update {a : α → Bool} (h : 0 < tally n f → 0 < tally a f) {x : α}
    (hn : n x = true → n (f t) = true ∨ a x = true) (ha : a (f t) = true → a x = true) :
    0 < tally n (update f t x) → 0 < tally a (update f t x) := by
  intro hpos
  cases hax : a x with
  | true => exact tally_pos_of (by rw [update_self]; exact hax)
  | false =>
    have hft : a (f t) = false := by
      rw [← Bool.not_eq_true]
      intro hc
      rw [ha hc] at hax
      cases hax
    have hold : 0 < tally n f := by
      cases hnx : n x with
      | true =>
        rcases hn hnx with hn' | hn'
        · exact tally_pos_of hn'
        · rw [hax] at hn'
          cases hn'
      | false =>
        have h1 := tally_update n f t x
        rw [hnx, Bool.toNat_false] at h1
        omega
    rw [tally_update_of_eq (by rw [hax, hft])]
    exact h hold

omit [DecidableEq T]

/-- The lock word `k` is set exactly while some task is in a section `p`, and then only one is. -/
def Guards (k : Bool) (p : α → Bool) (f : T → α) : Prop := k.toNat = tally p f

namespace Guards

variable {k : Bool} {p : α → Bool} {f : T → α}

theorem free (h : p a = false) : Guards false p (fun _ : T => a) := (tally_const h).symm

theorem locked (h : Guards k p f) (ht : p (f t) = true) : k = true := by
  have hpos := tally_pos_of ht
  rw [← show k.toNat = tally p f from h] at hpos
  cases k with
  | true => rfl
  | false => exact absurd hpos (lt_irrefl 0)

theorem locked_at (h : Guards k p f) (ht : f t = a) (ha : p a = true) : k = true := h.locked (ht ▸ ha)

theorem outside (h : Guards false p f) (t : T) : p (f t) = false := by
  rw [← Bool.not_eq_true]
  intro ht
  cases h.locked ht

theorem holder (h : Guards true p f) : ∃ t, p (f t) = true := tally_pos.1 (Nat.lt_of_lt_of_eq Nat.one_pos h)

theorem unique (h : Guards k p f) (ht : p (f t) = true) (hu : p (f u) = true) : t = u := by
  refine eq_of_tally_le_one ?_ ht hu
  rw [← show k.toNat = tally p f from h]
  exact Bool.toNat_le k

theorem update [DecidableEq T] (h : Guards k p f) {k' : Bool}
    (hk : k'.toNat + (p (f t)).toNat = k.toNat + (p a).toNat) : Guards k' p (update f t a) :=
  eq_tally_update h hk

end Guards

omit [Fintype T]

structure Listed (p : α → Bool) (l : List T) (f : T → α) : Prop where
  mem_iff : ∀ t, t ∈ l ↔ p (f t) = true
  nodup : l.Nodup

namespace Listed

variable {p : α → Bool} {l : List T} {f : T → α}

theorem nil (h : p a = false) : Listed p [] (fun _ : T => a) :=
  ⟨fun t => by simp [h], nodup_nil⟩

theorem outside (h : Listed p l f) (ht : t ∉ l) : p (f t) = false := by
  rw [← Bool.not_eq_true, ← h.mem_iff]
  exact ht

theorem eq_nil (h : Listed p l f) (h0 : ∀ t, p (f t) = false) : l = [] := by
  rw [eq_nil_iff_forall_not_mem]
  intro t ht
  have := (h.mem_iff t).mp ht
  rw [h0 t] at this
  cases this

/-- A task in its section that finds the queue empty sees nobody about to join it: such a task would be in the
section. -/
theorem none_needy [Fintype T] {k : Bool} {c : α → Bool} (h : Listed p l f) (hl : l = []) (hg : Guards k c f)
    (hcn : ∀ a, n a = true → p a = false → c a = true) (hc : c (f t) = true) (hn : n (f t) = false) :
    tally n f = 0 := by
  rw [tally_eq_zero]
  intro u
  by_contra hu
  have hcu := hcn _ (by simpa using hu) (h.outside (hl ▸ not_mem_nil))
  exact hu (hg.unique hcu hc ▸ hn)

variable [DecidableEq T] {t : T} {a : α}

section

variable (h : Listed p l f)

include h

theorem keep (ha : p a = p (f t)) : Listed p l (update f t a) := by
  refine ⟨(forall_update_iff f fun u x => u ∈ l ↔ p x = true).mpr ⟨?_, fun u _ => h.mem_iff u⟩, h.nodup⟩
  rw [ha]
  exact h.mem_iff t

theorem cons (ht : p (f t) = false) (ha : p a = true) : Listed p (t :: l) (update f t a) := by
  have hnot : t ∉ l := fun hm => by
    have := (h.mem_iff t).mp hm
    rw [ht] at this
    cases this
  constructor
  · intro u
    by_cases hu : u = t
    · subst hu
      simp [ha]
    · simp only [update_of_ne hu, mem_cons, hu, false_or]
      exact h.mem_iff u
  · exact nodup_cons.2 ⟨hnot, h.nodup⟩

theorem push (ht : p (f t) = false) (ha : p a = true) : Listed p (l ++ [t]) (update f t a) := by
  have hperm := (perm_append_singleton t l).symm
  obtain ⟨hmem, hnodup⟩ := h.cons ht ha
  exact ⟨fun u => by rw [← hmem u, hperm.mem_iff], hperm.nodup_iff.1 hnodup⟩

theorem erase (ha : p a = false) : Listed p (l.erase t) (update f t a) := by
  refine ⟨fun u => ?_, h.nodup.erase t⟩
  by_cases hu : u = t
  · subst hu
    simp [ha, h.nodup.mem_erase_iff]
  · simp only [update_of_ne hu, h.nodup.mem_erase_iff, ne_eq, hu, not_false_eq_true, true_and]
    exact h.mem_iff u

end

end Listed

end Mos.Lib
