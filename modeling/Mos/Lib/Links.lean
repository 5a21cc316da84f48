import Mathlib.Data.List.Nodup

/-!
# Intrusive lists

A family of lists `f : Q → List T` whose elements each have a single link, so that an element stands in at most one of
the lists: it is taken out without naming the list, and put in at the head or the tail of one.  `Linked f place` says
that `place` is where each element stands.
-/

namespace Mos.Lib

open Function List

variable {T Q : Type*} [DecidableEq T] [DecidableEq Q]

/-- Take the element out of the list in which it stands. -/
def unlink (f : Q → List T) (t : T) : Q → List T := fun q => (f q).erase t

def linkTail (f : Q → List T) (q : Q) (t : T) : Q → List T := update f q (f q ++ [t])

def linkHead (f : Q → List T) (q : Q) (t : T) : Q → List T := update f q (t :: f q)

structure Linked (f : Q → List T) (place : T → Option Q) : Prop where
  mem_iff : ∀ t q, t ∈ f q ↔ place t = some q
  nodup : ∀ q, (f q).Nodup

namespace Linked

variable {f : Q → List T} {place : T → Option Q} {t : T} {q : Q} {l : List T}

omit [DecidableEq T] [DecidableEq Q] in
theorem empty : Linked (fun _ : Q => ([] : List T)) fun _ => none := ⟨fun _ _ => by simp, fun _ => nodup_nil⟩

section

variable (h : Linked f place)

include h

omit [DecidableEq Q] in
theorem unlink (t : T) : Linked (unlink f t) (update place t none) := by
  refine ⟨fun u q => ?_, fun q => (h.nodup q).erase t⟩
  rw [Lib.unlink, (h.nodup q).mem_erase_iff, h.mem_iff]
  by_cases hu : u = t
  · simp [hu]
  · simp [hu]

theorem link (ht : place t = none) (hl : l.Perm (t :: f q)) : Linked (update f q l) (update place t (some q)) := by
  have hno : ∀ q, t ∉ f q := by
    intro q hm
    rw [h.mem_iff, ht] at hm
    cases hm
  refine ⟨fun u q' => ?_, fun q' => ?_⟩
  · by_cases hq : q' = q
    · subst hq
      rw [update_self, hl.mem_iff, mem_cons, h.mem_iff]
      by_cases hu : u = t
      · simp [hu]
      · simp [hu]
    · rw [update_of_ne hq, h.mem_iff]
      by_cases hu : u = t
      · simp [hu, ht, Ne.symm hq]
      · simp [hu]
  · by_cases hq : q' = q
    · subst hq
      rw [update_self, hl.nodup_iff]
      exact nodup_cons.2 ⟨hno q', h.nodup q'⟩
    · rw [update_of_ne hq]
      exact h.nodup q'

theorem linkTail (ht : place t = none) : Linked (linkTail f q t) (update place t (some q)) :=
  h.link ht (perm_append_singleton _ _)

theorem linkHead (ht : place t = none) : Linked (linkHead f q t) (update place t (some q)) :=
  h.link ht (.refl _)

theorem move (t : T) (q : Q) : Linked (Lib.linkTail (Lib.unlink f t) q t) (update place t (some q)) := by
  have := (h.unlink t).linkTail (q := q) (update_self _ _ _)
  rwa [update_idem] at this

omit [DecidableEq T] in
theorem reorder (hl : l.Perm (f q)) : Linked (update f q l) place := by
  refine ⟨fun u q' => ?_, fun q' => ?_⟩
  · by_cases hq : q' = q
    · subst hq
      rw [update_self, hl.mem_iff, h.mem_iff]
    · rw [update_of_ne hq, h.mem_iff]
  · by_cases hq : q' = q
    · subst hq
      rw [update_self, hl.nodup_iff]
      exact h.nodup q'
    · rw [update_of_ne hq]
      exact h.nodup q'

end

end Linked

variable {f : Q → List T} {p : T → Bool} {t : T}

omit [DecidableEq Q] in
theorem unlink_filter (ht : p t = false) (q : Q) : (unlink f t q).filter p = (f q).filter p := by
  rw [unlink]
  induction f q with
  | nil => rfl
  | cons a l ih =>
    by_cases ha : a = t
    · subst ha
      simp [ht]
    · rw [erase_cons_tail (by simpa using ha), filter_cons, filter_cons, ih]

section

omit [DecidableEq T]

theorem linkTail_filter (ht : p t = false) (q q' : Q) : (linkTail f q t q').filter p = (f q').filter p := by
  rw [linkTail]
  by_cases hq : q' = q
  · subst hq
    simp [ht]
  · rw [update_of_ne hq]

theorem linkHead_filter (ht : p t = false) (q q' : Q) : (linkHead f q t q').filter p = (f q').filter p := by
  rw [linkHead]
  by_cases hq : q' = q
  · subst hq
    simp [ht]
  · rw [update_of_ne hq]

/-- The first element that satisfies `p` goes to the tail: among those that satisfy `p` the list turns by one
place. -/
theorem filter_turn {l1 : List T} (ht : p t = true) (hno : ∀ a ∈ l1, p a = false) (l2 : List T) :
    (l1 ++ t :: l2).filter p = t :: l2.filter p ∧ (l1 ++ l2 ++ [t]).filter p = l2.filter p ++ [t] := by
  have h1 : l1.filter p = [] := filter_eq_nil_iff.2 fun a ha => by simpa using hno a ha
  simp [h1, ht]

end

end Mos.Lib
