import Mos.Vfs.Refine
import Mos.Vfs.Steps
import Mos.Lib.Run

/-!
# Resolution along runs

Any sequence of `vfs_mount`, `vfs_umount`, `vfs_take_mount` and `sb_path_resolve` keeps a mount tree sound, so
`sb_path_resolve` descends into the child mount with the longest key that covers the rest of the path
(`Super.Resolves`), with the caches as without them.  This needs mount points that fit their buffers: `vfs_mount`
writes the mount point of a nested mount with `sprintf` into `s_mountpoint`, where the other ways to set it stop at
255 bytes.
-/

namespace Mos.Vfs

open Lib List Option

/-- The superblock that owns a path, and the rest of the path: descend into the child mount with the longest key. -/
inductive Super.Resolves : Super → Str → Nat → Str → Prop
  | here {f mounts key child covered path}
      (hnone : ∀ n ∈ mounts.toList, ¬Covers (key n) path) : Resolves (.mk f mounts key child covered) path f.id path
  | down {f mounts key child covered n owner}
      {rest suffix : Str} (hn : n ∈ mounts.toList) (hcovers : Covers (key n) (key n ++ rest))
      (hmax : ∀ m ∈ mounts.toList, Covers (key m) (key n ++ rest) → (key m).length ≤ (key n).length)
      (hchild : Resolves (child n) rest owner suffix) :
      Resolves (.mk f mounts key child covered) (key n ++ rest) owner suffix

/-- A superblock of the tree, visible or covered. -/
inductive Super.Within (t : Super) : Super → Prop
  | self : Within t t
  | child {f mounts key child covered n}
      (hn : n ∈ mounts.toList) (h : Within t (child n)) : Within t (.mk f mounts key child covered)
  | covered {f mounts key child covered} (h : Within t covered) : Within t (.mk f mounts key child covered)

/-- The same tree with all caches empty. -/
def Super.uncached : Super → Super
  | .null => .null
  | .mk f mounts key child covered => .mk f.clear mounts key (fun n => (child n).uncached) covered.uncached

variable {sb : Super}

theorem Super.Ok.resolves_iff (h : sb.Ok) {path suffix : Str} {owner : Nat} :
    sb.Resolves path owner suffix ↔ sb.view.resolve path = (owner, suffix) := by
  induction h generalizing path with
  | @mk f mounts key child covered hsound hchild hcov ihchild _ =>
    rw [view_mk]
    constructor
    · intro hres
      cases hres with
      | here hnone =>
        have hbest : best (mounts.toList.map key) suffix = none := best_eq_none.2 fun k hk => by
          obtain ⟨n, hn, rfl⟩ := mem_map.1 hk
          exact hnone n hn
        simp [View.resolve, View.owner, hbest]
      | @down _ _ _ _ _ n _ rest _ hn hcovers hmax hres =>
        have hbest : best (mounts.toList.map key) (key n ++ rest) = some (key n) := by
          refine hsound.sorted.best_eq_some.2 ⟨mem_map_of_mem hn, hcovers, fun k hk => ?_⟩
          obtain ⟨m, hm, rfl⟩ := mem_map.1 hk
          exact hmax m hm
        have := (ihchild n hn).mp hres
        simpa [View.resolve, View.owner, hbest, subView_key hsound.sorted hn] using this
    · intro hres
      cases hb : best (mounts.toList.map key) path with
      | none =>
        obtain ⟨rfl, rfl⟩ : f.id = owner ∧ path = suffix := by simpa [View.resolve, View.owner, hb] using hres
        exact .here fun n hn => best_eq_none.1 hb _ (mem_map_of_mem hn)
      | some k =>
        obtain ⟨hmem, hcovers, hmax⟩ := hsound.sorted.longest_of_best hb
        obtain ⟨n, hn, rfl⟩ := mem_map.1 hmem
        have he := hcovers.eq_append
        have hchild' : (child n).view.resolve (path.drop (key n).length) = (owner, suffix) := by
          simpa [View.resolve, View.owner, hb, subView_key hsound.sorted hn] using hres
        rw [he] at hcovers hmax ⊢
        exact .down hn hcovers (fun m hm => hmax _ (mem_map_of_mem hm)) ((ihchild n hn).mpr hchild')

theorem Super.Ok.uncached (h : sb.Ok) : sb.uncached.Ok ∧ sb.uncached.view = sb.view := by
  induction h with
  | @mk f mounts key child covered hsound hchild hcov ihchild ihcov =>
    have hcov' : covered.uncached ≠ .null → covered ≠ .null := fun hne he => hne (by rw [he]; rfl)
    rw [Super.uncached]
    refine ⟨.mk hsound.clear (fun n hn => (ihchild n hn).1) fun hne => (ihcov (hcov' hne)).1, ?_⟩
    have hsub : subView mounts key (fun n => (child n).uncached) = subView mounts key child := by
      refine subView_eq hsound.sorted (fun n hn => ?_) fun k hk => subView_none hsound.sorted hk
      rw [subView_key hsound.sorted hn, (ihchild n hn).2]
    rw [view_mk, view_mk, hsub]
    congr 1
    by_cases hc : covered = .null
    · rw [hc]
      rfl
    · exact (ihcov hc).2

theorem Super.Ok.cached_mem (h : sb.Ok) {f : Fields} {mounts : Lib.Tree Nat} {key : Nat → Str}
    {child : Nat → Super} {covered : Super} (hw : Super.Within (.mk f mounts key child covered) sb) {i n : Nat}
    (hvalid : (f.lookup i).valid = true) (hmount : (f.lookup i).mount = some n) : n ∈ mounts.toList := by
  induction hw with
  | self =>
    cases h with
    | mk hsound _ _ =>
      have hcache := hsound.cache i hvalid
      rcases prefixLoop_best hsound (f.lookup i).path with ⟨hloop, -⟩ | ⟨m, hm, hloop, -⟩
      · rw [hloop, Slot.result, hmount] at hcache
        cases hcache
      · rw [hloop, Slot.result, hmount] at hcache
        have he : n = m := congrArg Prod.fst (some.inj hcache)
        rw [he]
        exact hm
  | child hn _ ih =>
    cases h with
    | mk _ hchild _ => exact ih (hchild _ hn)
  | @covered _ _ _ _ c hw ih =>
    cases h with
    | mk _ _ hcov =>
      refine ih (hcov fun he => ?_)
      rw [he] at hw
      cases hw

inductive Op
  | mount (path : Str) (next : { next : Super // next.Ok }) (compatible : Bool)
  | umount (path : Str)
  | take (path : Str)
  | resolve (path : Str)

def Op.exec (M : Mem) : Op → Super → Option Super
  | mount path next compatible, sb => (vfsMount M compatible sb path next).map Prod.snd
  | umount path, sb => (vfsUmount M sb path).map Prod.snd
  | take path, sb => (vfsTakeMount M sb path).map Prod.snd
  | resolve path, sb => (sbPathResolve sb path).map Prod.snd

/-- The keys of a new mount are short, and there is room for its mount point. -/
def Op.Fits (sb : Super) : Op → Prop
  | mount path next _ => next.1.view.Short ∧ sb.view.Room path
  | _ => True

theorem Op.exec_ok (M : Mem) (h : sb.Ok) {op : Op} (hfit : op.Fits sb) : ∃ sb', op.exec M sb = some sb' ∧ sb'.Ok := by
  cases op with
  | mount path next compatible =>
    obtain ⟨r, hr, hok⟩ := (vfsMount_refines M compatible h next.2 path).of_isSome
      (View.mount_isSome h.view_wf hfit.1 compatible hfit.2)
    exact ⟨r.2, by rw [exec, hr, map_some], hok⟩
  | umount path =>
    obtain ⟨r, hr, hok⟩ := (vfsUmount_refines M h path).of_isSome (View.umount_isSome h.view_wf path)
    exact ⟨r.2, by rw [exec, hr, map_some], hok⟩
  | take path =>
    obtain ⟨r, hr, hok⟩ := (vfsTakeMount_refines M h path).of_isSome (View.take_isSome h.view_wf path)
    exact ⟨r.2, by rw [exec, hr, map_some], hok⟩
  | resolve path =>
    obtain ⟨sb', hr, hok, -⟩ := sbPathResolve_view h path
    exact ⟨sb', by rw [exec, hr, map_some], hok⟩

theorem run_ok (M : Mem) {start : Super} {ops : List Op} (hstart : start.Ok)
    (hrun : Run (fun s op s' => op.Fits s ∧ op.exec M s = some s') start ops sb) : sb.Ok := by
  refine hrun.invariant_state Super.Ok hstart fun s op s' hok hstep => ?_
  obtain ⟨t, ht, hok'⟩ := op.exec_ok M hok hstep.1
  rw [hstep.2] at ht
  cases ht
  exact hok'

/-- Along every run of calls whose mount points fit: no call goes wrong, and `sb_path_resolve` descends into the
longest keys, as it does with empty caches.  What is cached names nodes that are mounted. -/
theorem lookup_runs (M : Mem) {start sb : Super} {ops : List Op} (hstart : start.Ok)
    (hrun : Run (fun s op s' => op.Fits s ∧ op.exec M s = some s') start ops sb) :
    (∀ op : Op, op.Fits sb → ∃ sb', op.exec M sb = some sb') ∧
    (∀ path, ∃ owner suffix sb' sb'', sbPathResolve sb path = some ((owner, suffix), sb') ∧
      sbPathResolve sb.uncached path = some ((owner, suffix), sb'') ∧
      ∀ o s, sb.Resolves path o s ↔ o = owner ∧ s = suffix) ∧
    ∀ f mounts key child covered, Super.Within (.mk f mounts key child covered) sb →
      ∀ i n, (f.lookup i).valid = true → (f.lookup i).mount = some n → n ∈ mounts.toList := by
  have hok := run_ok M hstart hrun
  refine ⟨fun op hfit => ?_, fun path => ?_, fun f mounts key child covered hw i n => hok.cached_mem hw⟩
  · obtain ⟨sb', hexec, -⟩ := op.exec_ok M hok hfit
    exact ⟨sb', hexec⟩
  · obtain ⟨sb', hres, -, -⟩ := sbPathResolve_view hok path
    obtain ⟨sb'', hres', -, -⟩ := sbPathResolve_view hok.uncached.1 path
    rw [hok.uncached.2] at hres'
    refine ⟨_, _, sb', sb'', hres, hres', fun o s => ?_⟩
    rw [hok.resolves_iff, Prod.ext_iff]
    exact and_congr eq_comm eq_comm

def procFs : { sb : Super // sb.Ok } := ⟨sget { id := 2, fstype := ['p', 'r', 'o', 'c'] }, sget_ok _⟩

theorem lookup_runs_mounted : ∃ sb, (Op.mount ['/', 'm'] procFs true).exec .plain rootFs = some sb ∧
    ∃ owner suffix sb' sb'', sbPathResolve sb ['/', 'm', '/', 'x'] = some ((owner, suffix), sb') ∧
      sbPathResolve sb.uncached ['/', 'm', '/', 'x'] = some ((owner, suffix), sb'') ∧
      ∀ o s, sb.Resolves ['/', 'm', '/', 'x'] o s ↔ o = owner ∧ s = suffix := by
  have hrun : Run (fun s (op : Op) s' => op.Fits s ∧ op.exec .plain s = some s') rootFs [] rootFs := .nil
  have hfits : (Op.mount ['/', 'm'] procFs true).Fits rootFs :=
    ⟨fun k hk => (nomatch hk), .inr (.inr (.inl rfl))⟩
  have hrun := hrun.snoc ⟨hfits, rfl⟩
  exact ⟨_, rfl, (lookup_runs .plain (sget_ok _) hrun).2.1 _⟩

/-- With a mount at `/m`, a mount at a path of 257 bytes below it writes beyond `s_mountpoint`. -/
theorem long_path_overflows : ∃ sb, Run (fun s op s' => op.exec .plain s = some s') rootFs
    [Op.mount ['/', 'm'] procFs true] sb ∧
    (Op.mount (['/', 'm', '/'] ++ List.replicate 254 'a') procFs true).exec .plain sb = none := by
  have hrun : Run (fun s (op : Op) s' => op.exec .plain s = some s') rootFs [] rootFs := .nil
  have hrun := hrun.snoc (e := Op.mount ['/', 'm'] procFs true) rfl
  refine ⟨_, hrun, ?_⟩
  rw [← isNone_iff_eq_none]
  decide +kernel

end Mos.Vfs
