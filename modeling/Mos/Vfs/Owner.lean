import Mos.Vfs.Propagation

/-!
# The owner of a path

`owner_of` returns a reported superblock with the longest mount point at or above the path.
-/

namespace Mos.Vfs

open Lib List

private theorem foldl_findOwner (path : Str) (l : List Info) (found : Option Info × Nat) :
    (l.foldl (findOwner path) found = found ∧ ∀ y ∈ l, Under y.point path → y.point.length < found.2) ∨
    ∃ x ∈ l, l.foldl (findOwner path) found = (some x, x.point.length) ∧ Under x.point path ∧
      found.2 ≤ x.point.length ∧ ∀ y ∈ l, Under y.point path → y.point.length ≤ x.point.length := by
  induction l generalizing found with
  | nil => exact .inl ⟨rfl, fun y hy => nomatch hy⟩
  | cons a l ih =>
    rw [foldl_cons]
    by_cases hc : a.point.length ≥ found.2 ∧ Under a.point path
    · -- the new one is the best so far
      have hstep : findOwner path found a = (some a, a.point.length) := if_pos hc
      rw [hstep]
      refine .inr ?_
      rcases ih (some a, a.point.length) with ⟨hsame, hlt⟩ | ⟨x, hx, heq, hunder, hle, hmax⟩
      · refine ⟨a, mem_cons_self, hsame, hc.2, hc.1, fun y hy hu => ?_⟩
        rcases mem_cons.1 hy with rfl | hy
        · exact le_rfl
        · exact Nat.le_of_lt (hlt y hy hu)
      · refine ⟨x, mem_cons_of_mem a hx, heq, hunder, hc.1.trans hle, fun y hy hu => ?_⟩
        rcases mem_cons.1 hy with rfl | hy
        · exact hle
        · exact hmax y hy hu
    · have hstep : findOwner path found a = found := if_neg hc
      rw [hstep]
      have ha : Under a.point path → a.point.length < found.2 := fun hu => by
        by_contra hlt
        exact hc ⟨by omega, hu⟩
      rcases ih found with ⟨hsame, hlt⟩ | ⟨x, hx, heq, hunder, hle, hmax⟩
      · refine .inl ⟨hsame, fun y hy hu => ?_⟩
        rcases mem_cons.1 hy with rfl | hy
        · exact ha hu
        · exact hlt y hy hu
      · refine .inr ⟨x, mem_cons_of_mem a hx, heq, hunder, hle, fun y hy hu => ?_⟩
        rcases mem_cons.1 hy with rfl | hy
        · exact Nat.le_trans (Nat.le_of_lt (ha hu)) hle
        · exact hmax y hy hu

variable {sb : Super} {path p : Str} {l : List Info}

theorem ownerOf_some {x : Info} (h : ownerOf sb path = some x) :
    x ∈ walk sb ∧ Under x.point path ∧ ∀ y ∈ walk sb, Under y.point path → y.point.length ≤ x.point.length := by
  unfold ownerOf at h
  rcases foldl_findOwner path (walk sb) (none, 0) with ⟨hsame, -⟩ | ⟨x', hx, heq, hu, -, hmax⟩
  · rw [hsame] at h
    cases h
  · rw [heq] at h
    cases h
    exact ⟨hx, hu, hmax⟩

theorem itemPath_owner {owner : Info} {target : Str} (h : ownerOf sb target = some owner) :
    itemPath (targetSuffix owner target) owner = target := by
  obtain ⟨-, ⟨hne, hpre, -⟩, -⟩ := ownerOf_some h
  have htarget : target ≠ [] := by
    rintro rfl
    rw [prefix_nil] at hpre
    exact hne (by rw [hpre]; rfl)
  have hpath : receiverPath (targetSuffix owner target) owner = target := by
    unfold receiverPath targetSuffix
    by_cases hroot : owner.point = ['/']
    · rw [if_pos hroot, if_pos hroot]
      rfl
    · rw [if_neg hroot, if_neg hroot]
      obtain ⟨t, rfl⟩ := hpre
      rw [drop_left]
  rw [itemPath, hpath, if_neg htarget]

end Mos.Vfs
