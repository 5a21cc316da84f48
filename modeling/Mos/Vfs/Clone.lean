import Mos.Vfs.LookupRuns
import Mos.Vfs.Propagation

/-!
# Walks and clones

What `vfs_mount_walk` reports is read off the view.  A clone is a sound tree of new superblocks with the same keys,
types and covered layers (`View.shape`) as the original.
-/

namespace Mos.Vfs

open Lib Function List View

variable {v w : View}

namespace View

/-- The tree without addresses and groups. -/
def shape : View → View
  | null => null
  | mk info keys sub covered =>
    mk { info with id := 0, peerGroup := 0, masterGroup := 0 } keys (fun k => (sub k).shape) covered.shape

def setGroups : View → Nat → Nat → View
  | null, _, _ => null
  | mk info keys sub covered, peer, master => mk { info with peerGroup := peer, masterGroup :=
      master } keys sub covered

theorem shape_setGroups (v : View) (peer master : Nat) : (v.setGroups peer master).shape = v.shape := by
  cases v with
  | null => rfl
  | mk => rw [setGroups, shape, shape]

theorem resolve_setGroups (v : View) (peer master : Nat) (path : Str) :
    (v.setGroups peer master).resolve path = v.resolve path := by
  cases v with
  | null => rfl
  | mk info keys sub covered =>
    rw [setGroups, resolve, resolve, owner, owner]
    cases best keys path <;> rfl

private theorem shape_eq_null : v.shape = null ↔ v = null := by
  cases v with
  | null | mk => simp [shape]

/-- The shape tells what is covered, and if keys are short. -/
theorem covered_eq_null_of_shape (h : v.shape = w.shape) (hw : w.covered = null) : v.covered = null := by
  cases v with
  | null => rfl
  | mk info keys sub covered =>
    cases w with
    | null => simp [shape] at h
    | mk info' keys' sub' covered' =>
      rw [shape, shape] at h
      have hcov : covered.shape = covered'.shape := by
        injection h
      rw [View.covered] at hw ⊢
      rw [hw] at hcov
      exact shape_eq_null.1 hcov

theorem short_of_shape (h : v.shape = w.shape) (hw : w.Short) : v.Short := by
  induction v generalizing w with
  | null => trivial
  | mk info keys sub covered ih _ =>
    cases w with
    | null => simp [shape] at h
    | mk info' keys' sub' covered' =>
      rw [shape, shape] at h
      have hkeys : keys = keys' := by
        injection h
      have hsub : (fun k => (sub k).shape) = fun k => (sub' k).shape := by
        injection h
      intro k hk
      obtain ⟨hlen, hshort⟩ : k.length < 256 ∧ (sub' k).Short := hw k (hkeys ▸ hk)
      exact ⟨hlen, ih k (congrFun hsub k) hshort⟩

private theorem owner_shape (v : View) (path : Str) : v.shape.owner path =
    ({ (v.owner path).1 with id := 0, peerGroup := 0, masterGroup := 0 }, (v.owner path).2) := by
  induction v generalizing path with
  | null => rfl
  | mk info keys sub covered ih _ =>
    rw [shape, owner, owner]
    cases best keys path with
    | none => rfl
    | some k => exact ih k _

end View

variable {sb : Super}

theorem view_setGroups (sb : Super) (peer master : Nat) :
    (sb.setGroups peer master).view = sb.view.setGroups peer master := by
  cases sb with
  | null => rw [Super.setGroups, view_null, setGroups]
  | mk => rw [Super.setGroups, view_mk, view_mk, setGroups]

theorem Super.Ok.setGroups (h : sb.Ok) (peer master : Nat) : (sb.setGroups peer master).Ok := by
  cases h with
  | mk hsound hchild hcov => exact .mk { hsound with } hchild hcov

@[simp] theorem id_setGroups (sb : Super) (peer master : Nat) : (sb.setGroups peer master).id = sb.id := by
  cases sb <;> rfl

section

variable (M : Mem)

/-- A copy of the child mounts at the nodes of a list. -/
structure CopyInv (key : Nat → Str) (child : Nat → Super) (start : Nat) (l : List Nat) (copy : Copy) : Prop where
  keys : copy.mounts.toList.map copy.key = l.map key
  ok : ∀ m ∈ copy.mounts.toList, (copy.child m).Ok
  shape : ∀ m ∈ copy.mounts.toList, ∀ n ∈ l, copy.key m = key n → (copy.child m).view.shape = (child n).view.shape
  ids : ∀ m ∈ copy.mounts.toList, ∀ q, start ≤ ((copy.child m).view.resolve q).1
  le : start ≤ copy.nextId

theorem CopyInv.add {key : Nat → Str} {child : Nat → Super} {start : Nat} {l : List Nat} {copy : Copy}
    (h : CopyInv key child start l copy) {n : Nat} (hdesc : Descending ((l ++ [n]).map key)) {sb : Super × Nat}
    (hsb : sb.1.Ok) (hshape : sb.1.view.shape = (child n).view.shape)
    (hids : ∀ q, copy.nextId ≤ (sb.1.view.resolve q).1)
    (hle : copy.nextId ≤ sb.2) : CopyInv key child start (l ++ [n]) (copy.add M (key n) sb) := by
  rw [map_append, map_singleton] at hdesc
  obtain ⟨hl, -, hlast⟩ := pairwise_append.1 hdesc
  have hold : Descending (copy.mounts.toList.map copy.key) := h.keys ▸ hl
  have hgt : ∀ k ∈ l.map key, strcmp k (key n) = .gt := fun k hk => hlast k hk _ mem_cons_self
  obtain ⟨hperm, hkeys⟩ := sbMountInsert_spec M hold (key n)
  have hfresh := M.fresh_not_mem copy.mounts.toList
  unfold Copy.add
  generalize M.fresh copy.mounts.toList = a at hperm hkeys hfresh ⊢
  have hne : ∀ m ∈ copy.mounts.toList, m ≠ a := fun m hm he => hfresh (he ▸ hm)
  have hmem : ∀ m, m ∈ (sbMountInsert M copy.mounts copy.key a (key n)).toList ↔ m = a ∨ m ∈ copy.mounts.toList := by
    intro m
    rw [hperm.mem_iff, mem_cons]
  refine ⟨?_, fun m hm => ?_, fun m hm n' hn' he => ?_, fun m hm q => ?_, h.le.trans hle⟩
  · have hins : insertKey (key n) (l.map key ++ []) = l.map key ++ [key n] :=
      insertKey_append (fun k hk => strcmp_gt_asymm (hgt k hk)) fun k hk => nomatch hk
    rw [append_nil] at hins
    rw [hkeys, h.keys, hins, map_append, map_singleton]
  · rcases (hmem m).mp hm with rfl | hm
    · simpa using hsb
    · simpa [update_of_ne (hne m hm)] using h.ok m hm
  · rcases (hmem m).mp hm with rfl | hm
    · simp only [update_self] at he ⊢
      rcases mem_append.1 hn' with hn' | hn'
      · exact absurd (hgt _ (mem_map_of_mem hn')) (he ▸ strcmp_gt_irrefl _)
      · rw [mem_singleton] at hn'
        rw [hn']
        exact hshape
    simp only [update_of_ne (hne m hm)] at he ⊢
    rcases mem_append.1 hn' with hn' | hn'
    · exact h.shape m hm n' hn' he
    rw [mem_singleton] at hn'
    have hk : key n ∈ l.map key := by
      rw [← h.keys, ← hn', ← he]
      exact mem_map_of_mem hm
    exact absurd (hgt _ hk) (strcmp_gt_irrefl _)
  · rcases (hmem m).mp hm with rfl | hm
    · simpa using h.le.trans (hids q)
    · simpa [update_of_ne (hne m hm)] using h.ids m hm q

/-- The clone of a sound tree: new addresses, and the same shape. -/
theorem cloneMountTree_spec (h : sb.Ok) (nextId : Nat) :
    let r := cloneMountTree M sb nextId
    r.1.Ok ∧ r.1.view.shape = sb.view.shape ∧ r.1.id = nextId ∧ nextId < r.2 ∧ ∀ q,
      nextId ≤ (r.1.view.resolve q).1 := by
  induction h generalizing nextId with
  | @mk f mounts key child covered hsound hchild hcov ihchild ihcov =>
    -- what is covered
    have hunder : ((cloneMountTree M covered (nextId + 1)).1 ≠ .null → (cloneMountTree M covered (nextId + 1)).1.Ok) ∧
        (cloneMountTree M covered (nextId + 1)).1.view.shape = covered.view.shape ∧
        nextId + 1 ≤ (cloneMountTree M covered (nextId + 1)).2 := by
      by_cases hc : covered = .null
      · rw [hc, cloneMountTree]
        exact ⟨fun hne => absurd rfl hne, rfl, le_rfl⟩
      · obtain ⟨hok, hshape, -, hlt, -⟩ := ihcov hc (nextId + 1)
        exact ⟨fun _ => hok, hshape, Nat.le_of_lt hlt⟩
    rw [cloneMountTree]
    generalize cloneMountTree M covered (nextId + 1) = under at hunder
    -- the child mounts, one after another
    have hfold : ∀ l, (∃ rest, mounts.toList = l ++ rest) →
        CopyInv key child (nextId + 1) l (l.foldl (fun (copy : Copy) n =>
          copy.add M (key n) (cloneMountTree M (child n) copy.nextId)) ⟨.leaf, fun _ => [], fun _ => .null,
            under.2⟩) := by
      intro l
      induction l using List.reverseRecOn with
      | nil =>
        intro _
        exact ⟨rfl, fun m hm => (nomatch hm), fun m hm => (nomatch hm), fun m hm => (nomatch hm), hunder.2.2⟩
      | append_singleton l n ih =>
        intro ⟨rest, hrest⟩
        have hn : n ∈ mounts.toList := by simp [hrest]
        have hinv := ih ⟨n :: rest, by simp [hrest]⟩
        rw [foldl_append, foldl_cons, foldl_nil]
        have hdesc : Descending ((l ++ [n]).map key) := by
          have hs := hsound.sorted
          rw [hrest, map_append] at hs
          exact (pairwise_append.1 hs).1
        obtain ⟨hok, hshape, -, hlt, hids⟩ := ihchild n hn (List.foldl (fun (copy : Copy) n =>
          copy.add M (key n) (cloneMountTree M (child n) copy.nextId)) ⟨.leaf, fun _ => [], fun _ => .null,
            under.2⟩ l).nextId
        exact hinv.add M hdesc hok hshape hids (Nat.le_of_lt hlt)
    have hinv := hfold mounts.toList ⟨[], by simp⟩
    generalize mounts.toList.foldl (fun (copy : Copy) n =>
      copy.add M (key n) (cloneMountTree M (child n) copy.nextId)) ⟨.leaf, fun _ => [], fun _ => .null, under.2⟩ =
        copy at hinv
    have hsorted : Descending (copy.mounts.toList.map copy.key) := hinv.keys ▸ hsound.sorted
    refine ⟨.mk ⟨hsorted, fun m hm => ?_, fun _ hv => nomatch hv⟩ hinv.ok hunder.1, ?_, rfl, hinv.le, fun q => ?_⟩
    · have hm' : copy.key m ∈ mounts.toList.map key := hinv.keys ▸ mem_map_of_mem hm
      obtain ⟨n, hn, he⟩ := mem_map.1 hm'
      rw [← he]
      exact hsound.slash n hn
    · rw [view_mk, view_mk, shape, shape, hinv.keys, hunder.2.1]
      congr 1
      funext k
      by_cases hk : k ∈ mounts.toList.map key
      · obtain ⟨n, hn, rfl⟩ := mem_map.1 hk
        obtain ⟨m, hm, he⟩ := mem_map.1 (hinv.keys ▸ hk : key n ∈ copy.mounts.toList.map copy.key)
        have hcopy : subView copy.mounts copy.key copy.child (copy.key m) = (copy.child m).view :=
          subView_key hsorted hm
        rw [he] at hcopy
        rw [hcopy, subView_key hsound.sorted hn]
        exact hinv.shape m hm n hn he
      · rw [subView_none hsound.sorted hk, subView_none hsorted (hinv.keys ▸ hk)]
    · rw [view_mk, resolve, owner]
      cases hb : best (copy.mounts.toList.map copy.key) q with
      | none => exact le_rfl
      | some k =>
        obtain ⟨m, hm, rfl⟩ := mem_map.1 (hsorted.longest_of_best hb).mem
        have hsub : subView copy.mounts copy.key copy.child (copy.key m) = (copy.child m).view :=
          subView_key hsorted hm
        have hle := hinv.ids m hm (q.drop (copy.key m).length)
        rw [← hsub] at hle
        exact (Nat.le_succ nextId).trans hle

end

/-- A clone is sound, and resolves every path as the tree does: with the same rest, and to a superblock of the same
filesystem type and mount point. -/
theorem clone_resolves (M : Mem) {start sb : Super} {ops : List Op} (hstart : start.Ok)
    (hrun : Run (fun s op s' => op.Fits s ∧ op.exec M s = some s') start ops sb) (nextId : Nat) :
    let c := (cloneMountTree M sb nextId).1
    c.Ok ∧ c.view.shape = sb.view.shape ∧ ∀ path, ∃ o o' rest sb' c',
      sb.view.owner path = (o, rest) ∧ sbPathResolve sb path = some ((o.id, rest), sb') ∧
      c.view.owner path = (o', rest) ∧ sbPathResolve c path = some ((o'.id, rest), c') ∧
      o.fstype = o'.fstype ∧ o.point = o'.point := by
  have hok := run_ok M hstart hrun
  obtain ⟨hclone, hshape, -⟩ := cloneMountTree_spec M hok nextId
  refine ⟨hclone, hshape, fun path => ?_⟩
  obtain ⟨sb', h, -⟩ := sbPathResolve_view hok path
  obtain ⟨c', h', -⟩ := sbPathResolve_view hclone path
  have heq := congrArg (owner · path) hshape
  simp only [owner_shape, Prod.mk.injEq, Info.mk.injEq] at heq
  obtain ⟨⟨-, hfs, hpoint, -⟩, hrest⟩ := heq
  rw [resolve, hrest] at h'
  exact ⟨_, _, _, sb', c', rfl, h, Prod.ext rfl hrest, h', hfs.symm, hpoint.symm⟩

theorem clone_resolves_mounted : ∃ sb, (Op.mount ['/', 'm'] procFs true).exec .plain rootFs = some sb ∧
    ∃ o o' rest sb' c', sbPathResolve sb ['/', 'm', '/', 'x'] = some ((o, rest), sb') ∧
      sbPathResolve (cloneMountTree .plain sb 7).1 ['/', 'm', '/', 'x'] = some ((o', rest), c') := by
  have hfits : (Op.mount ['/', 'm'] procFs true).Fits rootFs := ⟨fun k hk => (nomatch hk), .inr (.inr (.inl rfl))⟩
  obtain ⟨o, o', rest, sb', c', -, h, -, h', -⟩ := (clone_resolves .plain (sget_ok _) (.single ⟨hfits, rfl⟩) 7).2.2
    ['/', 'm', '/', 'x']
  exact ⟨_, rfl, _, _, rest, sb', c', h, h'⟩

end Mos.Vfs
