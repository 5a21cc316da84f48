import Mos.Vfs.Lookup

/-!
# Mounting and unmounting refine their views

`vfs_mount`, `vfs_umount` and `vfs_take_mount` do to a sound tree what their counterparts do to its view, and leave it
sound: every change of the mounts of a superblock clears its cache, and no other superblock has pointers to its nodes.
-/

namespace Mos.Vfs

open Lib Function List Super

@[simp] theorem view_null : null.view = .null := by
  rw [view]

@[simp] theorem isNull_view (sb : Super) : sb.view.isNull = sb.isNull := by
  cases sb <;> simp only [view, View.isNull, isNull]

@[simp] theorem fstype_view (sb : Super) : sb.view.fstype = sb.fstype := by
  cases sb <;> simp only [view, View.fstype, fstype]

@[simp] theorem point_view (sb : Super) : sb.view.point = sb.point := by
  cases sb <;> simp only [view, View.point, point]

@[simp] theorem view_setCovered (sb c : Super) : (sb.setCovered c).view = sb.view.setCovered c.view := by
  cases sb <;> simp only [view, View.setCovered, setCovered]

variable {sb : Super}

theorem Super.Ok.setCovered {c : Super} (h : sb.Ok) (hc : c.Ok) : (sb.setCovered c).Ok := by
  cases h with
  | mk hsound hchild _ => exact .mk hsound hchild fun _ => hc

theorem Super.Ok.rebase (h : sb.Ok) (point : Str) : (rebase sb point).Ok := by
  induction h generalizing point with
  | @mk f mounts key child covered hsound hchild hcov ihchild _ =>
    refine .mk { hsound with } (fun n hn => ?_) hcov
    simp only [if_pos hn]
    cases childPoint point (key n) with
    | none => exact hchild n hn
    | some path => exact ihchild n hn path

private theorem view_rebase (h : sb.Ok) (point : Str) : (rebase sb point).view = sb.view.rebase point := by
  induction h generalizing point with
  | @mk f mounts key child covered hsound hchild hcov ihchild _ =>
    rw [Vfs.rebase, view_mk, view_mk, View.rebase]
    congr 1
    refine subView_eq hsound.sorted (fun n hn => ?_) fun k hk => ?_
    · rw [subView_key hsound.sorted hn]
      simp only [if_pos hn]
      cases childPoint point (key n) with
      | none => rfl
      | some path => exact (ihchild n hn path).symm
    · rw [subView_none hsound.sorted hk]
      cases childPoint point k with
      | none => rfl
      | some path => rfl

private theorem rebaseSafe_view (h : sb.Ok) (point : Str) : sb.view.rebaseSafe point = rebaseSafe sb point := by
  induction h generalizing point with
  | @mk f mounts key child covered hsound hchild hcov ihchild _ =>
    rw [view_mk, View.rebaseSafe, Vfs.rebaseSafe, all_map]
    rw [Bool.eq_iff_iff, all_eq_true, all_eq_true]
    refine forall₂_congr fun n hn => ?_
    simp only [comp_apply, subView_key hsound.sorted hn]
    cases childPoint point (key n) with
    | none => rfl
    | some path => simp only [ihchild n hn path]

/-- Both are undefined, or the answers are related and the tree is sound and has the view. -/
def Refines {α β : Type} (R : α → β → Prop) : Option (α × Super) → Option (β × View) → Prop :=
  Option.Rel fun x y => R x.1 y.1 ∧ x.2.Ok ∧ x.2.view = y.2

variable {α β : Type} {next : Super} {n : Nat} {R : α → β → Prop} {x : Option (α × Super)} {y : Option (β × View)}

theorem Refines.map {γ δ : Type} {S : γ → δ → Prop}
    {g : α × Super → γ × Super} {g' : β × View → δ × View} (h : Refines R x y)
    (hg : ∀ {a b}, R a.1 b.1 → a.2.Ok → a.2.view = b.2 →
      S (g a).1 (g' b).1 ∧ (g a).2.Ok ∧ (g a).2.view = (g' b).2) : Refines S (x.map g) (y.map g') := by
  cases h with
  | none => exact .none
  | some hab => exact .some (hg hab.1 hab.2.1 hab.2.2)

theorem Refines.of_isSome (h : Refines R x y) (hy : ∃ r, y = some r) : ∃ r, x = some r ∧ r.2.Ok := by
  obtain ⟨r, rfl⟩ := hy
  cases h with
  | some hab => exact ⟨_, rfl, hab.2.1⟩

private theorem route_refines {bad : α} {hit : Super → Nat → Option (α × Super)}
    {miss : Super → Str → Option (α × Super)}
    {bad' : β} {hit' : View → Str → Option (β × View)} {miss' : View → Str → Option (β × View)} (hbad : R bad bad')
    (hhit : ∀ {f mounts key child covered n}, Ok (.mk f mounts key child covered) → n ∈ mounts.toList →
      Refines R (hit (.mk f mounts key child covered) n) (hit' (mk f mounts key child covered).view (key n)))
    (hmiss : ∀ {f mounts key child covered path}, Ok (.mk f mounts key child covered) → path.head? = some '/' →
      path ∉ mounts.toList.map key → Refines R (miss (.mk f mounts key child covered) path)
        (miss' (mk f mounts key child covered).view path)) (h : sb.Ok) (path : Str) :
    Refines R (route bad hit miss sb path) (View.route bad' hit' miss' sb.view path) := by
  induction h generalizing path with
  | @mk f mounts key child covered hsound hchild hcov ihchild _ =>
    have hok : Ok (.mk f mounts key child covered) := .mk hsound hchild hcov
    rw [route, view_mk, View.route, ← view_mk]
    by_cases hslash : path.head? ≠ some '/'
    · rw [if_pos hslash, if_pos hslash]
      exact .some ⟨hbad, hok, rfl⟩
    rw [if_neg hslash, if_neg hslash]
    cases hf : sbMountFindN mounts key path with
    | some n =>
      obtain ⟨hn, rfl⟩ := find_some hf
      rw [if_pos (mem_map_of_mem hn)]
      exact hhit hok hn
    | none =>
      have hno := (find_eq_none_iff hsound.sorted).mp hf
      rw [if_neg hno]
      obtain ⟨f', hinfo, hsound', hcase⟩ := sbMountPrefix_best hsound path
      rcases hcase with ⟨hsearch, hbest⟩ | ⟨n, hn, hsearch, hbest⟩
      · rw [hsearch, hbest, view_mk, ← hinfo, ← view_mk]
        exact hmiss (.mk hsound' hchild hcov) (not_not.1 hslash) hno
      rw [hsearch, hbest]
      simp only [if_pos hn, subView_key hsound.sorted hn]
      refine (ihchild n hn (path.drop (key n).length)).map fun {a b} hab hok' hview => ?_
      refine ⟨hab, hok.update hsound' hok', ?_⟩
      rw [← hview]
      exact view_update hsound.sorted hinfo hn a.2

/-! ### The steps at the end of the way -/

section

variable {f : Fields} {mounts : Lib.Tree Nat} {key : Nat → Str} {child : Nat → Super} {covered : Super}

open View

private theorem coverMount_refines (hnext : next.Ok) (compatible : Bool)
    (h : Ok (.mk f mounts key child covered)) (hn : n ∈ mounts.toList) :
    Refines (· = ·) (coverMount next compatible (.mk f mounts key child covered) n)
      (View.cover next.view compatible (mk f mounts key child covered).view (key n)) := by
  have hsound : Sound f mounts key := by
    cases h
    assumption
  have hchild : (child n).Ok := by
    cases h with
    | mk _ hchild _ => exact hchild n hn
  rw [view_mk, View.cover, ← view_mk]
  simp only [subView_key hsound.sorted hn, fstype_view, point_view, rebaseSafe_view hnext]
  rw [coverMount]
  by_cases htype : next.fstype = []
  · rw [if_pos htype, if_pos htype]
    exact .some ⟨rfl, h, rfl⟩
  rw [if_neg htype, if_neg htype]
  by_cases hcomp : (!compatible) = true
  · rw [if_pos hcomp, if_pos hcomp]
    exact .some ⟨rfl, h, rfl⟩
  rw [if_neg hcomp, if_neg hcomp]
  by_cases hsafe : rebaseSafe next (child n).point = true
  · rw [if_pos hsafe, if_pos hsafe]
    refine .some ⟨rfl, h.update hsound.clear ((hnext.rebase _).setCovered hchild), ?_⟩
    rw [← view_rebase hnext, ← view_setCovered]
    exact view_update hsound.sorted rfl hn _
  · rw [if_neg hsafe, if_neg hsafe]
    exact .none

theorem sbMountInsert_spec (M : Mem) (hs : Descending (mounts.toList.map key)) (path : Str) :
    (sbMountInsert M mounts key (M.fresh mounts.toList) path).toList.Perm (M.fresh mounts.toList :: mounts.toList) ∧
    (sbMountInsert M mounts key (M.fresh mounts.toList) path).toList.map (update key (M.fresh mounts.toList) path) =
      insertKey path (mounts.toList.map key) := by
  have hfresh := M.fresh_not_mem mounts.toList
  generalize M.fresh mounts.toList = n at hfresh
  have hcut : Tree.Cut (fun cur => if strcmp path (key cur) = .gt then .lt else .gt) mounts.toList := by
    refine List.Pairwise.imp (fun {a b} (hab : strcmp (key a) (key b) = .gt) => ⟨fun ha => ?_, fun hb => ?_⟩)
      (pairwise_map.1 hs)
    · have : strcmp path (key a) = .gt := by simpa using ha
      exact if_pos (strcmp_gt_trans this hab)
    · have : ¬strcmp path (key b) = .gt := by simpa using hb
      exact if_neg fun hpa => this (strcmp_gt_trans hpa hab)
  obtain ⟨tree, l1, l2, hins, hold, hnew, hl1, hl2⟩ := Tree.insert_spec n hcut fun x _ => by split_ifs <;> decide
  have hlist : (sbMountInsert M mounts key n path).toList = l1 ++ n :: l2 := by
    rw [sbMountInsert, hins, Option.elim_some, M.balancing.insertColor_toList, hnew]
  rw [hlist, hold]
  refine ⟨perm_middle, ?_⟩
  rw [hold] at hfresh
  have hsame : ∀ l : List Nat, n ∉ l → l.map (update key n path) = l.map key := by
    intro l hl
    refine map_congr_left fun a ha => ?_
    have hne : a ≠ n := fun he => hl (he ▸ ha)
    exact update_of_ne hne _ _
  obtain ⟨hn1, hn2⟩ : n ∉ l1 ∧ n ∉ l2 := by simpa [not_or] using hfresh
  rw [map_append, map_append, map_cons, hsame l1 hn1, hsame l2 hn2, update_self]
  refine (insertKey_append (fun k hk => ?_) fun k hk => ?_).symm
  · obtain ⟨a, ha, rfl⟩ := mem_map.1 hk
    simpa using hl1 a ha
  · obtain ⟨a, ha, rfl⟩ := mem_map.1 hk
    simpa using hl2 a ha

private theorem addMount_refines (M : Mem) (hnext : next.Ok) {path : Str}
    (h : Ok (.mk f mounts key child covered)) (hslash : path.head? = some '/') (hno : path ∉ mounts.toList.map key) :
    Refines (· = ·) (addMount M next (.mk f mounts key child covered) path)
      (add next.view (mk f mounts key child covered).view path) := by
  cases h with
  | mk hsound hchild hcov =>
    obtain ⟨hperm, hkeys⟩ := sbMountInsert_spec M hsound.sorted path
    have hfresh := M.fresh_not_mem mounts.toList
    rw [addMount, view_mk, add]
    cases newPoint f.point path with
    | none => exact .none
    | some point =>
      simp only [rebaseSafe_view hnext]
      by_cases hsafe : rebaseSafe next point = true
      swap
      · rw [if_neg hsafe, if_neg hsafe]
        exact .none
      rw [if_pos hsafe, if_pos hsafe]
      generalize M.fresh mounts.toList = n at hperm hkeys hfresh ⊢
      generalize sbMountInsert M mounts key n path = mounts' at hperm hkeys ⊢
      have hne : ∀ m ∈ mounts.toList, m ≠ n := fun m hm he => hfresh (he ▸ hm)
      have hold : ∀ m ∈ mounts.toList, update key n path m = key m := fun m hm =>
        update_of_ne (hne m hm) _ _
      have hsorted : Descending (mounts'.toList.map (update key n path)) :=
        hkeys ▸ hsound.sorted.insertKey hno
      have hmem : ∀ m, m ∈ mounts'.toList ↔ m = n ∨ m ∈ mounts.toList := fun m => by
        rw [hperm.mem_iff, mem_cons]
      refine .some ⟨rfl, .mk ⟨hsorted, fun m hm => ?_, fun _ hv => nomatch hv⟩ (fun m hm => ?_) hcov, ?_⟩
      · rcases (hmem m).mp hm with rfl | hm
        · rw [update_self]
          exact hslash
        · rw [hold m hm]
          exact hsound.slash m hm
      · rcases (hmem m).mp hm with rfl | hm
        · rw [update_self]
          exact hnext.rebase point
        · rw [update_of_ne (hne m hm)]
          exact hchild m hm
      · rw [view_mk, hkeys]
        show mk f.toInfo _ _ _ = _
        congr 1
        refine subView_eq hsorted (fun m hm => ?_) fun k hk => ?_
        · rcases (hmem m).mp hm with rfl | hm
          · rw [update_self, update_self, update_self, view_rebase hnext]
          · have hpath : key m ≠ path := fun he => hno (he ▸ mem_map_of_mem hm)
            rw [hold m hm, update_of_ne hpath, subView_key hsound.sorted hm, update_of_ne (hne m hm)]
        · rw [hkeys, mem_insertKey, not_or] at hk
          rw [update_of_ne hk.1, subView_none hsound.sorted hk.2]

private theorem map_erase_of_nodup {l : List Nat} (h : (l.map key).Nodup) (hn : n ∈ l) :
    (l.erase n).map key = (l.map key).erase (key n) := by
  rw [(h.of_map key).erase_eq_filter, h.erase_eq_filter, filter_map]
  refine congrArg (map key) (filter_congr fun a ha => ?_)
  have hiff : key a = key n ↔ a = n := ⟨fun he => inj_on_of_nodup_map h ha hn he, fun he => he ▸ rfl⟩
  simp [bne, hiff]

def Taken (a : Super) (b : View) : Prop := a.view = b ∧ (a ≠ .null → a.Ok)

theorem Taken.null : Taken .null .null := ⟨view_null, fun hne => absurd rfl hne⟩

private theorem dropMount_refines (M : Mem) (h : Ok (.mk f mounts key child covered)) (hn : n ∈ mounts.toList) :
    Refines Taken (dropMount M (.mk f mounts key child covered) n)
      (View.drop (mk f mounts key child covered).view (key n)) := by
  cases h with
  | mk hsound hchild hcov =>
    have hok : Ok (.mk f mounts key child covered) := .mk hsound hchild hcov
    rw [dropMount, view_mk, View.drop]
    simp only [subView_key hsound.sorted hn]
    cases hc : child n with
    | null =>
      exact absurd hc (hchild n hn).ne_null
    | mk cf cmounts ckey cchild under =>
      have hcn := hchild n hn
      rw [hc] at hcn
      cases hcn with
      | mk hcsound hcchild hcunder =>
        have hresult : Ok (.mk cf cmounts ckey cchild .null) := .mk hcsound hcchild fun hne => absurd rfl hne
        simp only [view_mk, isNull_view]
        refine .some ⟨⟨by rw [view_mk, view_null], fun _ => hresult⟩, ?_⟩
        cases hu : under.isNull with
        | true =>
          simp only [if_true]
          have herase := M.balancing.erase_toList mounts n hn
          have hnodup : mounts.toList.Nodup := List.Nodup.of_map _ hsound.sorted.nodup
          have hmem : ∀ m, m ∈ (M.balancing.erase mounts n).toList ↔ m ≠ n ∧ m ∈ mounts.toList := fun m => by
            rw [herase, hnodup.mem_erase_iff]
          have hkeys := map_erase_of_nodup hsound.sorted.nodup hn
          have hsorted : Descending ((M.balancing.erase mounts n).toList.map key) := by
            rw [herase, hkeys]
            exact List.Pairwise.sublist erase_sublist hsound.sorted
          refine ⟨.mk ⟨hsorted, fun m hm => hsound.slash m ((hmem m).mp hm).2, fun _ hv => nomatch hv⟩
            (fun m hm => hchild m ((hmem m).mp hm).2) hcov, ?_⟩
          rw [view_mk]
          have hkeys' : (M.balancing.erase mounts n).toList.map key = (mounts.toList.map key).erase (key n) := by
            rw [herase, hkeys]
          rw [hkeys']
          show View.mk f.toInfo _ _ _ = _
          congr 1
          refine subView_eq hsorted (fun m hm => ?_) fun k hk => ?_
          · obtain ⟨hne, hm⟩ := (hmem m).mp hm
            rw [update_of_ne fun he => hne (key_inj hsound.sorted hm hn he), subView_key hsound.sorted hm]
          · by_cases he : k = key n
            · rw [he, update_self]
            · rw [hkeys', mem_erase_of_ne he] at hk
              rw [update_of_ne he, subView_none hsound.sorted hk]
        | false =>
          have hne : under ≠ .null := fun he => by
            rw [he] at hu
            cases hu
          exact ⟨hok.update hsound.clear (hcunder hne), view_update hsound.sorted rfl hn under⟩

end

theorem vfsMount_refines (M : Mem) (compatible : Bool) (h : sb.Ok) (hnext : next.Ok) (path : Str) :
    Refines (· = ·) (vfsMount M compatible sb path next) (View.mount compatible sb.view path next.view) := by
  unfold vfsMount View.mount
  rw [isNull_view]
  cases next.isNull with
  | true => exact .some ⟨rfl, h, rfl⟩
  | false =>
    exact route_refines rfl (fun hok hn => coverMount_refines hnext compatible hok hn)
      (fun hok hslash hno => addMount_refines M hnext hok hslash hno) h path

theorem vfsUmount_refines (M : Mem) (h : sb.Ok) (path : Str) :
    Refines (· = ·) (vfsUmount M sb path) (View.umount sb.view path) := by
  refine route_refines rfl (fun hok hn => ?_) (fun hok _ _ => ?_) h path
  · exact Refines.map (dropMount_refines M hok hn) fun _ hok' hview => ⟨rfl, hok', hview⟩
  · exact .some ⟨rfl, hok, rfl⟩

theorem vfsTakeMount_refines (M : Mem) (h : sb.Ok) (path : Str) :
    Refines Taken (vfsTakeMount M sb path) (View.take sb.view path) := by
  refine route_refines Taken.null (fun hok hn => ?_) (fun hok _ _ => ?_) h path
  · exact dropMount_refines M hok hn
  · exact .some ⟨Taken.null, hok, rfl⟩

end Mos.Vfs
