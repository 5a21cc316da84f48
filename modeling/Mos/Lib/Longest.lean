import Mos.Lib.Strcmp
import Mathlib.Tactic

/-!
# The longest key that covers a path

Keys are kept in a list that descends by `strcmp`.  The keys that cover a path are all prefixes of it, so the longest
one is the greatest one: the first in the list (`best_eq_some`).
-/

namespace Mos.Lib

open List

theorem Covers.refl (key : Str) : Covers key key := ⟨[], by simp, .inl rfl⟩

variable {key path a b c s t : Str}

section

variable (h : Covers key path)

include h

theorem Covers.length_le : key.length ≤ path.length := by
  obtain ⟨rest, rfl, -⟩ := h
  rw [length_append]
  omega

theorem Covers.eq_append : path = key ++ path.drop key.length := by
  obtain ⟨rest, rfl, -⟩ := h
  rw [drop_left]

theorem Covers.rest : path.drop key.length = [] ∨ (path.drop key.length).head? = some '/' := by
  obtain ⟨rest, rfl, hrest⟩ := h
  rwa [drop_left]

end

theorem covers_iff : Covers key path ↔
    path.take key.length = key ∧ (path.drop key.length = [] ∨ (path.drop key.length).head? = some '/') := by
  constructor
  · intro h
    refine ⟨?_, h.rest⟩
    obtain ⟨rest, rfl, -⟩ := h
    exact take_left
  · intro ⟨htake, hrest⟩
    refine ⟨path.drop key.length, ?_, hrest⟩
    conv_lhs => rw [← take_append_drop key.length path, htake]

instance (key path : Str) : Decidable (Covers key path) := decidable_of_iff _ covers_iff.symm

theorem Covers.of_length_le (hac : Covers a c) (hbc : Covers b c) (hle : a.length ≤ b.length) : Covers a b := by
  obtain ⟨r, rfl, hr⟩ := hac
  obtain ⟨s, hs, -⟩ := hbc
  obtain ⟨t, rfl⟩ : a <+: b := prefix_of_prefix_length_le ⟨r, rfl⟩ ⟨s, hs.symm⟩ hle
  refine ⟨t, rfl, ?_⟩
  rw [append_assoc, append_cancel_left_eq] at hs
  cases t with
  | nil => exact .inl rfl
  | cons d t =>
    subst hs
    simpa using hr

theorem Covers.eq_of_length (hac : Covers a c) (hbc : Covers b c) (he : a.length = b.length) : a = b := by
  rw [← (covers_iff.1 hac).1, ← (covers_iff.1 hbc).1, he]

theorem strcmp_append_gt (ht : t ≠ []) : strcmp (s ++ t) s = .gt := by
  induction s with
  | nil =>
    cases t with
    | nil => exact absurd rfl ht
    | cons c t => rfl
  | cons a s ih => rw [cons_append, strcmp, if_pos rfl, ih]

theorem strcmp_gt_irrefl (s : Str) : ¬strcmp s s = .gt := by
  rw [strcmp_eq_iff.2 rfl]
  decide

theorem strcmp_gt_asymm (h : strcmp s t = .gt) : ¬strcmp t s = .gt := fun h' => by
  rw [strcmp_gt_iff, h] at h'
  cases h'

theorem strcmp_gt_of_ne (hne : s ≠ t) (h : ¬strcmp s t = .gt) : strcmp t s = .gt := by
  rw [strcmp_gt_iff]
  cases hc : strcmp s t with
  | lt => rfl
  | eq => exact absurd (strcmp_eq_iff.1 hc) hne
  | gt => exact absurd hc h

def Descending (keys : List Str) : Prop := keys.Pairwise fun a b => strcmp a b = .gt

variable {keys : List Str}

theorem Descending.nodup (h : Descending keys) : keys.Nodup := by
  refine Pairwise.imp (fun {a b} (hab : strcmp a b = .gt) => ?_) h
  rintro rfl
  exact strcmp_gt_irrefl a hab

def insertKey (key : Str) (keys : List Str) : List Str := keys.orderedInsert (fun a b => strcmp a b = .gt) key

variable {k : Str}

@[simp] theorem mem_insertKey : k ∈ insertKey key keys ↔ k = key ∨ k ∈ keys :=
  mem_orderedInsert _

theorem insertKey_append {l1 l2 : List Str} (h₁ : ∀ k ∈ l1, ¬strcmp key k = .gt)
    (h₂ : ∀ k ∈ l2, strcmp key k = .gt) : insertKey key (l1 ++ l2) = l1 ++ key :: l2 := by
  induction l1 with
  | nil =>
    cases l2 with
    | nil => rfl
    | cons a l2 => exact if_pos (h₂ a mem_cons_self)
  | cons a l1 ih =>
    rw [cons_append, insertKey, orderedInsert, if_neg (h₁ a mem_cons_self)]
    exact congrArg (a :: ·) (ih fun k hk => h₁ k (mem_cons_of_mem a hk))

theorem Descending.insertKey (h : Descending keys) (hno : key ∉ keys) : Descending (insertKey key keys) := by
  induction keys with
  | nil => exact pairwise_singleton _ _
  | cons a keys ih =>
    obtain ⟨ha, hkeys⟩ := pairwise_cons.1 h
    have hne : a ≠ key := fun he => hno (he ▸ mem_cons_self)
    unfold Lib.insertKey
    rw [orderedInsert]
    split_ifs with hgt
    · refine pairwise_cons.2 ⟨fun b hb => ?_, h⟩
      rcases mem_cons.1 hb with rfl | hb
      · exact hgt
      · exact strcmp_gt_trans hgt (ha b hb)
    · refine pairwise_cons.2 ⟨fun b hb => ?_, ih hkeys fun hm => hno (mem_cons_of_mem a hm)⟩
      rcases mem_insertKey.1 hb with rfl | hb
      · exact strcmp_gt_of_ne (Ne.symm hne) hgt
      · exact ha b hb

theorem erase_insertKey (hno : key ∉ keys) : (insertKey key keys).erase key = keys := by
  induction keys with
  | nil => simp [insertKey]
  | cons a keys ih =>
    have hne : a ≠ key := fun he => hno (he ▸ mem_cons_self)
    unfold insertKey
    rw [orderedInsert]
    split_ifs
    · exact erase_cons_head _ _
    · rw [erase_cons_tail (by simpa using hne)]
      exact congrArg (a :: ·) (ih fun hm => hno (mem_cons_of_mem a hm))

def best (keys : List Str) (path : Str) : Option Str := keys.find? fun k => Covers k path

structure Longest (keys : List Str) (path key : Str) : Prop where
  mem : key ∈ keys
  covers : Covers key path
  max : ∀ k ∈ keys, Covers k path → k.length ≤ key.length

theorem Longest.unique {k' : Str} (h : Longest keys path k) (h' : Longest keys path k') : k = k' :=
  h.covers.eq_of_length h'.covers (Nat.le_antisymm (h'.max k h.mem h.covers) (h.max k' h'.mem h'.covers))

theorem longest_self (h : path ∈ keys) : Longest keys path path :=
  ⟨h, .refl path, fun _ _ hk => hk.length_le⟩

theorem best_eq_none : best keys path = none ↔ ∀ k ∈ keys, ¬Covers k path := by
  simp [best, find?_eq_none]

theorem Descending.longest_of_best (h : Descending keys) (hb : best keys path = some key) :
    Longest keys path key := by
  induction keys with
  | nil => cases hb
  | cons a keys ih =>
    obtain ⟨ha, hkeys⟩ := pairwise_cons.1 h
    by_cases hc : Covers a path
    · have : a = key := by simpa [best, hc] using hb
      subst this
      refine ⟨mem_cons_self, hc, fun k hk hkc => ?_⟩
      rcases mem_cons.1 hk with rfl | hk
      · exact le_rfl
      -- a longer key would be greater than the first one
      by_contra hlt
      have hgt := ha k hk
      obtain ⟨r, rfl, -⟩ := hc.of_length_le hkc (by omega)
      have hne : r ≠ [] := by
        intro he
        simp [he] at hlt
      exact strcmp_gt_asymm hgt (strcmp_append_gt hne)
    · have hb' : best keys path = some key := by simpa [best, hc] using hb
      obtain ⟨hm, hcov, hmax⟩ := ih hkeys hb'
      refine ⟨mem_cons_of_mem a hm, hcov, fun k hk hkc => ?_⟩
      rcases mem_cons.1 hk with rfl | hk
      · exact absurd hkc hc
      · exact hmax k hk hkc

theorem Descending.best_eq_some (h : Descending keys) : best keys path = some key ↔ Longest keys path key := by
  constructor
  · exact h.longest_of_best
  · intro hl
    cases hb : best keys path with
    | none => exact absurd hl.covers (best_eq_none.1 hb key hl.mem)
    | some k => rw [(h.longest_of_best hb).unique hl]

end Mos.Lib
