import Mathlib.Tactic

/-!
# Work lists

A loop over a list that grows at its end while the loop runs (`scan`), and collecting candidates without duplicates
(`gather`).  A loop that only adds candidates with new keys comes to an end, and what it collects is closed.
-/

namespace Mos.Lib

open List

variable {fuel i : Nat} {β τ : Type}

section

variable {α σ : Type} (items : σ → List α) (stop : σ → Bool) (visit : α → σ → σ)

/-- The elements from the `i`-th on are visited, one after another, until there is a reason to stop. -/
def scan : Nat → Nat → σ → Option σ
  | 0, _, _ => none
  | fuel + 1, i, s =>
    match (items s)[i]? with
    | none => some s
    | some a => if stop s then some s else scan fuel (i + 1) (visit a s)

variable {items stop visit} {s s' : σ}

/-- The rule for the loop: what holds of the number of elements visited. -/
theorem scan_rule (P : Nat → σ → Prop)
    (hstep : ∀ i s a, P i s → (items s)[i]? = some a → stop s = false → P (i + 1) (visit a s))
    (hP : P i s) (h : scan items stop visit fuel i s = some s') :
    ∃ j, P j s' ∧ (stop s' = true ∨ (items s').length ≤ j) := by
  induction fuel generalizing i s with
  | zero => cases h
  | succ fuel ih =>
    rw [scan] at h
    cases ha : (items s)[i]? with
    | none =>
      rw [ha] at h
      cases h
      exact ⟨i, hP, .inr (List.getElem?_eq_none_iff.1 ha)⟩
    | some a =>
      simp only [ha] at h
      cases hstop : stop s with
      | true =>
        simp only [hstop, if_true] at h
        cases h
        exact ⟨i, hP, .inl hstop⟩
      | false =>
        simp only [hstop] at h
        exact ih (hstep i s a hP ha hstop) h

/-- The loop ends if the list cannot become longer than a bound. -/
theorem scan_terminates (Inv : σ → Prop) (bound : Nat) (hInv : ∀ s a, Inv s → a ∈ items s → Inv (visit a s))
    (hbound : ∀ s, Inv s → (items s).length ≤ bound) (hs : Inv s) (hpos : 0 < fuel) (hfuel : bound < fuel + i) :
    ∃ s', scan items stop visit fuel i s = some s' := by
  induction fuel generalizing i s with
  | zero => exact absurd hpos (Nat.lt_irrefl 0)
  | succ fuel ih =>
    rw [scan]
    cases ha : (items s)[i]? with
    | none => exact ⟨s, rfl⟩
    | some a =>
      have hlt : i < (items s).length := (List.getElem?_eq_some_iff.1 ha).1
      have hle := hbound s hs
      cases stop s with
      | true => exact ⟨s, rfl⟩
      | false => exact ih (hInv s a hs (mem_of_getElem? ha)) (by omega) (by omega)

/-- A loop that did not stop early, seen through a function: the loop over the images. -/
theorem scan_map (items' : τ → List β) (visit' : β → τ → τ) (f : σ → τ) (g : α → β) (Inv : σ → Prop)
    (hitems : ∀ s, items' (f s) = (items s).map g) (hInv : ∀ s a, Inv s → a ∈ items s → Inv (visit a s))
    (hvisit : ∀ s a, Inv s → a ∈ items s → stop (visit a s) = false → stop s = false ∧ f (visit a s) =
    visit' (g a) (f s)) (hs : Inv s) (h : scan items stop visit fuel i s = some s') (hstop : stop s' = false) :
    stop s = false ∧ scan items' (fun _ => false) visit' fuel i (f s) = some (f s') := by
  induction fuel generalizing i s with
  | zero => cases h
  | succ fuel ih =>
    rw [scan] at h
    rw [scan, hitems, List.getElem?_map]
    cases ha : (items s)[i]? with
    | none =>
      rw [ha] at h
      cases h
      exact ⟨hstop, rfl⟩
    | some a =>
      have hmem := mem_of_getElem? ha
      simp only [ha] at h
      cases hs0 : stop s with
      | true =>
        simp only [hs0, if_true] at h
        cases h
        rw [hs0] at hstop
        cases hstop
      | false =>
        simp only [hs0] at h
        obtain ⟨hnext, hscan⟩ := ih (hInv s a hs hmem) h
        refine ⟨rfl, ?_⟩
        rw [(hvisit s a hs hmem hnext).2] at hscan
        exact hscan

end

section

variable {α κ : Type} [DecidableEq κ] (key : α → κ)

/-- A candidate that is wanted is added, unless there is one with the same key. -/
def offer (wanted : α → Bool) (items : List α) (a : α) : List α :=
  if wanted a ∧ key a ∉ items.map key then items ++ [a] else items

def gather (wanted : α → Bool) (candidates items : List α) : List α := candidates.foldl (offer key wanted) items

variable {key} {wanted : α → Bool} {candidates items : List α} {b : α}

theorem prefix_offer (a : α) : items <+: offer key wanted items a := by
  unfold offer
  split_ifs
  · exact prefix_append _ _
  · exact prefix_rfl

theorem prefix_gather : items <+: gather key wanted candidates items :=
  foldlRecOn candidates _ prefix_rfl fun _ h a _ => h.trans (prefix_offer a)

theorem mem_gather (h : b ∈ gather key wanted candidates items) : b ∈ items ∨ b ∈ candidates ∧ wanted b = true := by
  revert h
  refine foldlRecOn (motive := fun found => b ∈ found → _) candidates _ .inl fun found ih a ha h => ?_
  unfold offer at h
  split_ifs at h with hc
  · rcases mem_append.1 h with h | h
    · exact ih h
    · obtain rfl := mem_singleton.1 h
      exact .inr ⟨ha, hc.1⟩
  · exact ih h

theorem key_mem_gather (hb : b ∈ candidates) (hw : wanted b = true) :
    key b ∈ (gather key wanted candidates items).map key := by
  induction candidates generalizing items with
  | nil => cases hb
  | cons a candidates ih =>
    rcases mem_cons.1 hb with rfl | hb
    · have hmem : key b ∈ (offer key wanted items b).map key := by
        unfold offer
        split_ifs with hc
        · simp
        · simpa [hw] using hc
      obtain ⟨c, hc, he⟩ := mem_map.1 hmem
      have hsub : c ∈ gather key wanted candidates (offer key wanted items b) :=
        prefix_gather.subset hc
      exact he ▸ mem_map_of_mem hsub
    · exact ih hb

omit [DecidableEq κ] in
theorem length_le_of_nodup (key : α → κ) (l : List α) {ks : List κ} (hnodup : ks.Nodup)
    (h : ∀ k ∈ ks, ∃ a ∈ l, key a = k) : ks.length ≤ l.length := by
  have hsub : ks ⊆ l.map key := fun k hk => by
    obtain ⟨a, ha, rfl⟩ := h k hk
    exact mem_map_of_mem ha
  have hle := (subperm_of_subset hnodup hsub).length_le
  rwa [length_map] at hle

end

end Mos.Lib
