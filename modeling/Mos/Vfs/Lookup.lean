import Mos.Vfs.View

/-!
# Lookup through the cache

The search through the ends of components finds the longest key that covers a path.  What the cache says is what this
search finds (`Sound`), as long as every change of the mounts clears it.  So `sb_path_resolve` returns what the view
of the tree says (`sbPathResolve_view`), whatever is cached.
-/

namespace Mos.Vfs

open Lib Function List Super View

/-- The nodes are in order, and what is cached is what a search would find. -/
structure Sound (f : Fields) (mounts : Lib.Tree Nat) (key : Nat → Str) : Prop where
  sorted : Descending (mounts.toList.map key)
  slash : ∀ n ∈ mounts.toList, (key n).head? = some '/'
  cache : ∀ i, (f.lookup i).valid = true →
    (f.lookup i).result = prefixLoop mounts key (f.lookup i).path (f.lookup i).path.length

/-- All superblocks of the tree are sound. -/
inductive Super.Ok : Super → Prop
  | mk {f mounts key child covered} (hsound : Sound f mounts key) (hchild : ∀ n ∈ mounts.toList, (child n).Ok)
      (hcov : covered ≠ .null → covered.Ok) : Super.Ok (.mk f mounts key child covered)

/-- The child mounts by their keys. -/
def Super.view : Super → View
  | .null => .null
  | .mk f mounts key child covered =>
    .mk f.toInfo (mounts.toList.map key)
      (fun k => match sbMountFindN mounts key k with
        | some n => (child n).view
        | none => .null) covered.view

def subView (mounts : Lib.Tree Nat) (key : Nat → Str) (child : Nat → Super) (k : Str) : View :=
  match sbMountFindN mounts key k with
  | some n => (child n).view
  | none => .null

variable {path k : Str} {n : Nat} {f' : Fields} {sb : Super}

section

variable {f : Fields} {mounts : Lib.Tree Nat} {key : Nat → Str} {child : Nat → Super} {covered : Super}

private theorem find_cut (h : Descending (mounts.toList.map key)) (path : Str) :
    Tree.Cut (fun n => strcmp (key n) path) mounts.toList := by
  refine List.Pairwise.imp (fun {a b} (hab : strcmp (key a) (key b) = .gt) => ?_) (pairwise_map.1 h)
  constructor
  · intro ha
    exact strcmp_lt_trans (strcmp_gt_iff.1 hab) ha
  · intro hb
    exact strcmp_gt_trans hab hb

theorem find_some (h : sbMountFindN mounts key path = some n) : n ∈ mounts.toList ∧ key n = path :=
  ⟨(Tree.find_mem h).1, strcmp_eq_iff.1 (Tree.find_mem h).2⟩

section

variable (hs : Descending (mounts.toList.map key))

include hs

private theorem find_none (h : sbMountFindN mounts key path = none) : ∀ n ∈ mounts.toList, key n ≠ path :=
  fun n hn he => Tree.find_eq_none (find_cut hs path) h n hn (strcmp_eq_iff.2 he)

theorem key_inj {m : Nat} (hn : n ∈ mounts.toList) (hm : m ∈ mounts.toList) (he : key n = key m) : n = m :=
  inj_on_of_nodup_map hs.nodup hn hm he

theorem find_key (hn : n ∈ mounts.toList) : sbMountFindN mounts key (key n) = some n := by
  cases hf : sbMountFindN mounts key (key n) with
  | none => exact absurd rfl (find_none hs hf n hn)
  | some m =>
    obtain ⟨hm, he⟩ := find_some hf
    rw [key_inj hs hm hn he]

theorem find_eq_none_iff : sbMountFindN mounts key path = none ↔ path ∉ mounts.toList.map key := by
  constructor
  · intro hf hm
    obtain ⟨n, hn, rfl⟩ := mem_map.1 hm
    exact find_none hs hf n hn rfl
  · intro hno
    cases hf : sbMountFindN mounts key path with
    | none => rfl
    | some n =>
      obtain ⟨hn, rfl⟩ := find_some hf
      exact absurd (mem_map_of_mem hn) hno

end

theorem covers_iff_take (hn : k.length = n) (hle : n ≤ path.length) :
    Covers k path ↔ (n = path.length ∨ path[n]? = some '/') ∧ k = path.take n := by
  rw [covers_iff, hn, List.head?_drop, drop_eq_nil_iff]
  constructor
  · intro ⟨htake, hend⟩
    exact ⟨hend.imp_left fun h => by omega, htake.symm⟩
  · intro ⟨hend, htake⟩
    exact ⟨htake.symm, hend.imp_left fun h => by omega⟩

section

variable (h : Sound f mounts key)

include h

/-- Up to every end: the search finds the longest key of at most this length, or there is none. -/
theorem prefixLoop_spec {stop : Nat} (hstop : stop ≤ path.length) :
    (prefixLoop mounts key path stop = none ∧ ∀ n ∈ mounts.toList, Covers (key n) path → stop < (key n).length) ∨
    ∃ n ∈ mounts.toList, prefixLoop mounts key path stop = some (n, (key n).length) ∧ Covers (key n) path ∧
      ∀ m ∈ mounts.toList, Covers (key m) path → (key m).length ≤ stop → (key m).length ≤ (key n).length := by
  induction stop with
  | zero =>
    refine .inl ⟨rfl, fun n hn _ => ?_⟩
    have := h.slash n hn
    cases hk : key n with
    | nil => simp [hk] at this
    | cons c k => simp
  | succ stop ih =>
    -- no key of this length covers the path: the search goes on as it does from the end before
    have hskip : (∀ n ∈ mounts.toList, Covers (key n) path → (key n).length ≠ stop + 1) →
        prefixLoop mounts key path (stop + 1) = prefixLoop mounts key path stop →
        (prefixLoop mounts key path (stop + 1) = none ∧
          ∀ n ∈ mounts.toList, Covers (key n) path → stop + 1 < (key n).length) ∨
        ∃ n ∈ mounts.toList, prefixLoop mounts key path (stop + 1) = some (n, (key n).length) ∧ Covers (key n) path ∧
          ∀ m ∈ mounts.toList, Covers (key m) path → (key m).length ≤ stop + 1 → (key m).length ≤ (key n).length := by
      intro hne heq
      rw [heq]
      rcases ih (by omega) with ⟨hnone, hgt⟩ | ⟨n, hn, hsome, hcov, hmax⟩
      · refine .inl ⟨hnone, fun n hn hc => ?_⟩
        have h1 := hgt n hn hc
        have h2 := hne n hn hc
        omega
      · refine .inr ⟨n, hn, hsome, hcov, fun m hm hc hle => hmax m hm hc ?_⟩
        have := hne m hm hc
        omega
    by_cases hend : stop + 1 = path.length ∨ path[stop + 1]? = some '/'
    swap
    · refine hskip (fun n hn hc hlen => ?_) ?_
      · exact hend ((covers_iff_take hlen hstop).mp hc).1
      · rw [prefixLoop, if_neg hend]
    cases hf : sbMountFindN mounts key (path.take (stop + 1)) with
    | some n =>
      obtain ⟨hn, hk⟩ := find_some hf
      have hlen : (key n).length = stop + 1 := by
        rw [hk, length_take]
        omega
      refine .inr ⟨n, hn, ?_, (covers_iff_take hlen hstop).mpr ⟨hend, hk⟩, fun m _ _ hle => by omega⟩
      rw [prefixLoop, if_pos hend, hf, hlen]
    | none =>
      refine hskip (fun n hn hc hlen => ?_) ?_
      · exact find_none h.sorted hf n hn ((covers_iff_take hlen hstop).mp hc).2
      · rw [prefixLoop, if_pos hend, hf]

theorem prefixLoop_best (path : Str) :
    (prefixLoop mounts key path path.length = none ∧ best (mounts.toList.map key) path = none) ∨
    ∃ n ∈ mounts.toList, prefixLoop mounts key path path.length = some (n, (key n).length) ∧
      best (mounts.toList.map key) path = some (key n) := by
  rcases prefixLoop_spec h (Nat.le_refl path.length) with ⟨hnone, hgt⟩ | ⟨n, hn, hsome, hcov, hmax⟩
  · refine .inl ⟨hnone, best_eq_none.2 fun k hk hc => ?_⟩
    obtain ⟨n, hn, rfl⟩ := mem_map.1 hk
    have := hgt n hn hc
    have := hc.length_le
    omega
  · refine .inr ⟨n, hn, hsome, h.sorted.best_eq_some.2 ⟨mem_map_of_mem hn, hcov, fun k hk hc => ?_⟩⟩
    obtain ⟨m, hm, rfl⟩ := mem_map.1 hk
    exact hmax m hm hc hc.length_le

/-! ### The cache -/

theorem Sound.clear : Sound f.clear mounts key :=
  { h with cache := fun _ hv => nomatch hv }

/-- The answer is that of the search, with any cache; only the cache changes. -/
theorem sbMountPrefix_spec (path : Str) :
    let r := sbMountPrefix f mounts key path
    r.1 = prefixLoop mounts key path path.length ∧ r.2.toInfo = f.toInfo ∧ Sound r.2 mounts key := by
  unfold sbMountPrefix
  by_cases hlast : (f.lookup f.last).valid ∧ (f.lookup f.last).path = path
  · rw [if_pos hlast]
    refine ⟨?_, rfl, h⟩
    rw [h.cache f.last hlast.1, hlast.2]
  rw [if_neg hlast]
  by_cases hslot : path.length < 256 ∧ (f.lookup (slotOf path)).valid ∧ (f.lookup (slotOf path)).path = path
  · simp only [if_pos hslot]
    refine ⟨?_, trivial, { h with }⟩
    rw [h.cache (slotOf path) hslot.2.1, hslot.2.2]
  simp only [if_neg hslot]
  by_cases hlen : path.length < 256
  swap
  · simp only [if_neg hlen]
    exact ⟨trivial, trivial, h⟩
  simp only [if_pos hlen]
  refine ⟨trivial, trivial, h.sorted, h.slash, fun i => ?_⟩
  by_cases hi : i = slotOf path
  · subst hi
    simp only [update_self]
    intro _
    cases prefixLoop mounts key path path.length with
    | none => rfl
    | some r => rfl
  · simp only [update_of_ne hi]
    exact h.cache i

/-- The search with the cache: no key covers the path, or it finds a node with the longest one. -/
theorem sbMountPrefix_best (path : Str) : ∃ f', f'.toInfo = f.toInfo ∧ Sound f' mounts key ∧
      ((sbMountPrefix f mounts key path = (none, f') ∧ best (mounts.toList.map key) path = none) ∨
      ∃ n ∈ mounts.toList, sbMountPrefix f mounts key path = (some (n, (key n).length), f') ∧
        best (mounts.toList.map key) path = some (key n)) := by
  obtain ⟨hres, hinfo, hsound⟩ := sbMountPrefix_spec h path
  refine ⟨(sbMountPrefix f mounts key path).2, hinfo, hsound, ?_⟩
  rcases prefixLoop_best h path with ⟨hloop, hbest⟩ | ⟨n, hn, hloop, hbest⟩
  · exact .inl ⟨Prod.ext (hres.trans hloop) rfl, hbest⟩
  · exact .inr ⟨n, hn, Prod.ext (hres.trans hloop) rfl, hbest⟩

end

theorem view_mk (f : Fields) (mounts : Lib.Tree Nat) (key : Nat → Str) (child : Nat → Super) (covered : Super) :
    (mk f mounts key child covered).view =
      .mk f.toInfo (mounts.toList.map key) (subView mounts key child) covered.view := by
  rw [view]
  rfl

section

variable (hs : Descending (mounts.toList.map key))

include hs

theorem subView_key (hn : n ∈ mounts.toList) : subView mounts key child (key n) = (child n).view := by
  rw [subView, find_key hs hn]

theorem subView_none (hk : k ∉ mounts.toList.map key) : subView mounts key child k = .null := by
  rw [subView, (find_eq_none_iff hs).mpr hk]

theorem subView_eq {sub : Str → View} (hmem : ∀ n ∈ mounts.toList, sub (key n) = (child n).view)
    (hnull : ∀ k, k ∉ mounts.toList.map key → sub k = .null) : subView mounts key child = sub := by
  funext k
  by_cases hk : k ∈ mounts.toList.map key
  · obtain ⟨n, hn, rfl⟩ := mem_map.1 hk
    rw [subView_key hs hn, hmem n hn]
  · rw [subView_none hs hk, hnull k hk]

theorem view_update (hf : f'.toInfo = f.toInfo)
    (hn : n ∈ mounts.toList) (x : Super) : (mk f' mounts key (update child n x) covered).view =
      .mk f.toInfo (mounts.toList.map key) (update (subView mounts key child) (key n) x.view) covered.view := by
  rw [view_mk, hf, subView_eq hs (fun m hm => ?_) fun k hk => ?_]
  · by_cases he : m = n
    · rw [he, update_self, update_self]
    · rw [update_of_ne he, update_of_ne fun hk => he (key_inj hs hm hn hk), subView_key hs hm]
  · have hne : k ≠ key n := fun he => hk (he ▸ mem_map_of_mem hn)
    rw [update_of_ne hne, subView_none hs hk]

end

theorem Super.Ok.update (h : Ok (.mk f mounts key child covered)) (hf : Sound f' mounts key)
    {x : Super} (hx : x.Ok) : Ok (.mk f' mounts key (update child n x) covered) := by
  cases h with
  | mk _ hchild hcov =>
    exact .mk hf ((forall_update_iff child fun m x => m ∈ mounts.toList → x.Ok).mpr
      ⟨fun _ => hx, fun m _ => hchild m⟩) hcov

theorem Super.Ok.ne_null (h : sb.Ok) : sb ≠ .null := by
  cases h
  exact Super.noConfusion

theorem sget_ok (info : Info) : (sget info).Ok :=
  .mk ⟨.nil, fun _ hn => (nomatch hn), fun _ hv => (nomatch hv)⟩ (fun _ hn => nomatch hn) fun hne => absurd rfl hne

theorem view_eq_null : sb.view = .null ↔ sb = .null := by
  cases sb with
  | null | mk => simp [view]

theorem Super.Ok.view_wf (h : sb.Ok) : sb.view.Wf := by
  induction h with
  | @mk f mounts key child covered hsound _ _ ihchild ihcov =>
    rw [view_mk]
    refine .mk hsound.sorted ?_ ?_ ?_ ?_
    · intro k hk
      obtain ⟨n, hn, rfl⟩ := mem_map.1 hk
      exact hsound.slash n hn
    · intro k hk
      exact subView_none hsound.sorted hk
    · intro k hk
      obtain ⟨n, hn, rfl⟩ := mem_map.1 hk
      rw [subView_key hsound.sorted hn]
      exact ihchild n hn
    · intro hne
      exact ihcov fun he => hne (view_eq_null.2 he)

end

/-- `sb_path_resolve` gives what the view says, and keeps the view. -/
theorem sbPathResolve_view (h : sb.Ok) (path : Str) :
    ∃ sb', sbPathResolve sb path = some (sb.view.resolve path, sb') ∧ sb'.Ok ∧ sb'.view = sb.view := by
  induction h generalizing path with
  | @mk f mounts key child covered hsound hchild hcov ihchild _ =>
    have hok : Ok (.mk f mounts key child covered) := .mk hsound hchild hcov
    obtain ⟨f', hinfo, hsound', hcase⟩ := sbMountPrefix_best hsound path
    unfold sbPathResolve
    by_cases hpath : path = []
    · -- no key covers the empty path
      have hbest : best (mounts.toList.map key) path = none := by
        refine best_eq_none.2 fun k hk hc => ?_
        obtain ⟨n, hn, rfl⟩ := mem_map.1 hk
        have hlen := hc.length_le
        have hslash := hsound.slash n hn
        rw [hpath, length_nil, Nat.le_zero, length_eq_zero_iff] at hlen
        simp [hlen] at hslash
      rw [if_pos hpath]
      refine ⟨_, ?_, hok, rfl⟩
      simp [resolve, view_mk, owner, hbest]
    · rw [if_neg hpath]
      rcases hcase with ⟨hsearch, hbest⟩ | ⟨n, hn, hsearch, hbest⟩
      · rw [hsearch]
        refine ⟨_, ?_, .mk hsound' hchild hcov, ?_⟩
        · simp [resolve, view_mk, owner, hbest]
        · rw [view_mk, view_mk, hinfo]
      obtain ⟨x, hres, hx, hview⟩ := ihchild n hn (path.drop (key n).length)
      rw [hsearch]
      simp only [if_pos hn, hres, Option.map_some]
      refine ⟨_, ?_, hok.update (n := n) hsound' hx, ?_⟩
      · simp [resolve, view_mk, owner, hbest, subView_key hsound.sorted hn]
      · rw [view_update hsound.sorted hinfo hn, hview, ← subView_key hsound.sorted hn, update_eq_self, view_mk]

end Mos.Vfs
