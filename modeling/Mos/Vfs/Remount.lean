import Mos.Vfs.Refine
import Mos.Vfs.Steps

/-!
# What a mount changes

A successful `vfs_mount` at `p` changes the resolution of the paths that pass through `p` on their way
(`View.Passes`), and of no others: these lead into the new filesystem.  A path below `p` passes by if an older mount
has a longer key that covers it, since the longest key decides, not the latest one.  `vfs_umount` takes the route of
the mount and brings back the tree before.
-/

namespace Mos.Vfs

open Lib Function List View

variable {info : Info} {keys : List Str} {sub : Str → View} {covered x next v v' : View} {path k rest p : Str}

namespace View

theorem owner_here (h : best keys path = none) : (mk info keys sub covered).owner path = (info, path) := by
  rw [owner, h]

private theorem owner_down
    (h : best keys (k ++ rest) = some k) : (mk info keys sub covered).owner (k ++ rest) = (sub k).owner rest := by
  rw [owner, h]
  simp only [drop_left]

private theorem resolve_down
    (h : best keys (k ++ rest) = some k) : (mk info keys sub covered).resolve (k ++ rest) = (sub k).resolve rest := by
  rw [resolve, owner_down h, resolve]

/-- Paths whose longest keys lead to the same child mounts have the same owner. -/
theorem owner_congr {keys' : List Str} {sub' : Str → View} {covered' : View}
    (hkeys : best keys' path = best keys path)
    (hsub : ∀ k, best keys path = some k → (sub' k).owner (path.drop k.length) = (sub k).owner (path.drop k.length)) :
    (mk info keys' sub' covered').owner path = (mk info keys sub covered).owner path := by
  unfold owner
  rw [hkeys]
  cases hb : best keys path with
  | none => rfl
  | some k => exact hsub k hb

private theorem resolve_rebase (v : View) (point path : Str) : (v.rebase point).resolve path = v.resolve path := by
  induction v generalizing point path with
  | null => rfl
  | mk info keys sub covered ih _ =>
    rw [rebase]
    unfold resolve owner
    cases best keys path with
    | none => rfl
    | some k =>
      cases hc : childPoint point k with
      | none =>
        simp only [hc]
      | some p =>
        simp only [hc]
        exact ih k p _

private theorem resolve_setCovered (v c : View) (path : Str) : (v.setCovered c).resolve path = v.resolve path := by
  cases v with
  | null => rfl
  | mk => simp only [setCovered, resolve, owner]

/-- The way of `p ++ r` goes as that of `p`, and no key at its end covers more of it. -/
inductive Passes : View → Str → Str → Prop
  | here {info keys sub covered p r}
      (hp : p ∈ keys ∨ ∀ k ∈ keys, ¬Covers k p) (hmax : ∀ k ∈ keys, Covers k (p ++ r) → k.length ≤ p.length) :
      Passes (mk info keys sub covered) p r
  | down {info keys sub covered k p r} (hl : Longest keys (k ++ p) k)
      (hno : k ++ p ∉ keys) (hmax : ∀ k' ∈ keys, Covers k' (k ++ p ++ r) → k'.length ≤ k.length)
      (hsub : Passes (sub k) p r) : Passes (mk info keys sub covered) (k ++ p) r

/-- What may follow a component. -/
def Tail (r : Str) : Prop := r = [] ∨ r.head? = some '/'

/-- The change at a mount point: paths that pass are resolved in the new mount, others belong where they did. -/
structure Mounted (v v' next : View) (p : Str) : Prop where
  inside : ∀ r, Tail r → Passes v p r → v'.resolve (p ++ r) = next.resolve r
  outside : ∀ q, (∀ r, q = p ++ r → Tail r → ¬Passes v p r) → v'.owner q = v.owner q
  passes : Passes v p []

section

variable {info : Info} {keys : List Str} {sub : Str → View} {covered next : View}

section

variable (hdesc : Descending keys)

include hdesc

private theorem mounted_hit (hk : k ∈ keys) (hx : ∀ r, x.resolve r = next.resolve r) :
    Mounted (mk info keys sub covered) (mk info keys (update sub k x) covered) next k := by
  refine ⟨fun r hr hp => ?_, fun q hq => ?_, .here (.inl hk) fun k' _ hc => ?_⟩
  · have hmax : ∀ k' ∈ keys, Covers k' (k ++ r) → k'.length ≤ k.length := by
      cases hp with
      | here _ hmax => exact hmax
      | down _ hno => exact absurd hk hno
    have hl : Longest keys (k ++ r) k := ⟨hk, ⟨r, rfl, hr⟩, hmax⟩
    rw [resolve_down (hdesc.best_eq_some.2 hl), update_self, hx]
  · refine owner_congr rfl fun k' hb => ?_
    have hl := hdesc.longest_of_best hb
    by_cases he : k' = k
    · -- the path would pass
      subst he
      exact absurd (.here (.inl hk) (hl.covers.eq_append ▸ hl.max)) (hq _ hl.covers.eq_append hl.covers.rest)
    · rw [update_of_ne he]
  · rw [append_nil] at hc
    exact hc.length_le

private theorem mounted_miss (hno : best keys p = none) (hx : ∀ r, x.resolve r = next.resolve r) :
    Mounted (mk info keys sub covered) (mk info (insertKey p keys) (update sub p x) covered) next p := by
  have hnone := best_eq_none.1 hno
  have hmem : p ∉ keys := fun hm => hnone p hm (.refl p)
  have hdesc' := hdesc.insertKey hmem
  refine ⟨fun r hr hp => ?_, fun q hq => ?_, .here (.inr hnone) fun k' hk' hc => ?_⟩
  · have hmax : ∀ k ∈ keys, Covers k (p ++ r) → k.length ≤ p.length := by
      cases hp with
      | here _ hmax => exact hmax
      | down hl _ => exact absurd hl.covers (hnone _ hl.mem)
    have hl : Longest (insertKey p keys) (p ++ r) p := by
      refine ⟨mem_insertKey.2 (.inl rfl), ⟨r, rfl, hr⟩, fun k hk hc => ?_⟩
      rcases mem_insertKey.1 hk with rfl | hk
      · exact le_rfl
      · exact hmax k hk hc
    rw [resolve_down (hdesc'.best_eq_some.2 hl), update_self, hx]
  · -- the new key is not the longest one
    have hne : ∀ k, best (insertKey p keys) q = some k → k ∈ keys := by
      intro k hb
      have hl := hdesc'.longest_of_best hb
      refine (mem_insertKey.1 hl.mem).resolve_left fun he => ?_
      subst he
      refine hq _ hl.covers.eq_append hl.covers.rest (.here (.inr hnone) fun k' hk' hc => ?_)
      rw [← hl.covers.eq_append] at hc
      exact hl.max k' (mem_insertKey.2 (.inr hk')) hc
    have hbest : best (insertKey p keys) q = best keys q := by
      cases hb : best (insertKey p keys) q with
      | none =>
        exact (best_eq_none.2 fun k hk => best_eq_none.1 hb k (mem_insertKey.2 (.inr hk))).symm
      | some k =>
        have hl := hdesc'.longest_of_best hb
        refine (hdesc.best_eq_some.2 ⟨hne k hb, hl.covers, fun k' hk' hc => ?_⟩).symm
        exact hl.max k' (mem_insertKey.2 (.inr hk')) hc
    refine owner_congr hbest fun k hb => ?_
    have hk : k ≠ p := fun he => hmem (he ▸ hne k (hbest.trans hb))
    rw [update_of_ne hk]
  · rw [append_nil] at hc
    exact absurd hc (hnone k' hk')

private theorem mounted_down (hp : p.head? = some '/') (hno : k ++ p ∉ keys)
    (hl : Longest keys (k ++ p) k) (h : Mounted (sub k) x next p) :
    Mounted (mk info keys sub covered) (mk info keys (update sub k x) covered) next (k ++ p) := by
  refine ⟨fun r hr hpass => ?_, fun q hq => ?_, .down hl hno (fun k' hk' hc => ?_) h.passes⟩
  · generalize hpath : k ++ p = path at hpass
    cases hpass with
    | here hmem =>
      rcases hmem with hmem | hnone
      · exact absurd (hpath ▸ hmem) hno
      · exact absurd hl.covers (hpath ▸ hnone k hl.mem)
    | @down _ _ _ _ k' p' _ hl' _ hmax hsub =>
      rw [hpath] at hl
      obtain rfl := hl.unique hl'
      obtain rfl := append_cancel_left hpath
      have hc : Covers k (k ++ p ++ r) := ⟨p ++ r, append_assoc k p r, .inr (by cases p <;> simp_all)⟩
      have hb := hdesc.best_eq_some.2 ⟨hl.mem, hc, hmax⟩
      rw [append_assoc] at hb ⊢
      rw [resolve_down hb, update_self]
      exact h.inside r hr hsub
  · refine owner_congr rfl fun k' hb => ?_
    have hl' := hdesc.longest_of_best hb
    by_cases he : k' = k
    · subst he
      rw [update_self]
      refine h.outside _ fun r hqr hr hpass => ?_
      have hq' : q = k' ++ p ++ r := by rw [append_assoc, ← hqr, ← hl'.covers.eq_append]
      exact hq r hq' hr (.down hl hno (hq' ▸ hl'.max) hpass)
    · rw [update_of_ne he]
  · rw [append_nil] at hc
    exact hl.max k' hk' hc

end

end

theorem MountsAt.mounted (h : MountsAt next v p v') (hv : v.Wf) : Mounted v v' next p := by
  induction h with
  | cover hk =>
    refine mounted_hit hv.desc hk fun r => ?_
    rw [resolve_setCovered, resolve_rebase]
  | add _ hno _ => exact mounted_miss hv.desc hno fun r => resolve_rebase _ _ _
  | down hrest hno hl _ ih => exact mounted_down hv.desc hrest hno hl (ih (hv.sub_wf hl.mem))

/-! ### Unmounting again -/

theorem MountsAt.head_eq (h : MountsAt next v p v') (hv : v.Wf) : p.head? = some '/' := by
  cases h with
  | cover hk => exact hv.slash hk
  | add hp _ _ => exact hp
  | @down _ _ _ _ _ k rest _ _ hl _ =>
    have hk := hv.slash hl.mem
    cases k with
    | nil => cases hk
    | cons c k => exact hk

theorem Wf.owner_nil (h : v.Wf) : (v.owner []).2 = [] := by
  cases v with
  | null => rfl
  | mk info keys sub covered =>
    rw [owner_here (best_eq_none.2 fun k hk hc => ?_)]
    have hnil : k = [] := length_eq_zero_iff.1 (Nat.le_zero.1 hc.length_le)
    have := h.slash hk
    rw [hnil] at this
    cases this

theorem covered_rebase (v : View) (point : Str) : (v.rebase point).covered = v.covered := by
  cases v with
  | null => rfl
  | mk => rw [rebase, covered, covered]

/-- The way back: to the tree before, or to what the new mount covers itself if it stands on a new mount point. -/
theorem MountsAt.undo (h : MountsAt next v p v') (hv : v.Wf) (hn : next ≠ null) :
    (next.covered = null ∨ (v.owner p).2 = [] → UnmountsAt v' p v) ∧
    (next.covered ≠ null → (v.owner p).2 ≠ [] → ∃ v'', UnmountsAt v' p v'' ∧ Mounted v v'' next.covered p) := by
  induction h with
  | @cover info keys sub covered k hk =>
    have hsub := hv.sub_wf hk
    have hcov : ((next.rebase (sub k).point).setCovered (sub k)).covered = sub k := by
      cases next with
      | null => exact absurd rfl hn
      | mk => rw [View.rebase, View.setCovered, View.covered]
    constructor
    · intro _
      have he : mk info keys sub covered = mk info keys
          (update sub k ((next.rebase (sub k).point).setCovered (sub k)).covered) covered := by
        rw [hcov, update_eq_self]
      rw [he]
      refine .replaced hk ?_
      rw [hcov]
      exact hsub.ne_null
    · intro _ hne
      have hl : best keys (k ++ []) = some k := by
        rw [append_nil]
        exact hv.desc.best_eq_some.2 (longest_self hk)
      rw [← append_nil k, owner_down hl] at hne
      exact absurd hsub.owner_nil hne
  | @add info keys sub covered p point hp hno _ =>
    have hmem : p ∉ keys := fun hm => best_eq_none.1 hno p hm (.refl p)
    have hown : (View.owner (.mk info keys sub covered) p).2 ≠ [] := by
      rw [owner_here hno]
      intro he
      rw [show p = [] from he] at hp
      cases hp
    constructor
    · intro hor
      have hcov := hor.resolve_right hown
      have he : mk info keys sub covered = mk info keys (update sub p null) covered := by
        rw [← hv.sub_null hmem, update_eq_self]
      rw [he]
      exact .added hmem (by rw [covered_rebase, hcov])
    · intro hcov _
      refine ⟨_, .replaced (mem_insertKey.2 (.inl rfl)) ?_, ?_⟩
      · rwa [covered_rebase]
      · rw [covered_rebase]
        exact mounted_miss hv.desc hno fun r => rfl
  | @down info keys sub covered x k rest hrest hno hl _ ih =>
    rw [owner_down (hv.desc.best_eq_some.2 hl)]
    obtain ⟨hback, hother⟩ := ih (hv.sub_wf hl.mem)
    constructor
    · intro hor
      have he : mk info keys sub covered = mk info keys (update sub k (sub k)) covered := by
        rw [update_eq_self]
      rw [he]
      exact .inside hrest hno hl (hback hor)
    · intro hcov hne
      obtain ⟨y, hy, hm⟩ := hother hcov hne
      exact ⟨_, .inside hrest hno hl hy, mounted_down hv.desc hrest hno hl hm⟩

end View

/-! ### The calls -/

def answer (sb : Super) (path : Str) : Option (Nat × Str) := (sbPathResolve sb path).map Prod.fst

variable {sb : Super} {α β : Type} {R : α → β → Prop}

theorem Super.Ok.answer_eq (h : sb.Ok) (path : Str) : answer sb path = some (sb.view.resolve path) := by
  obtain ⟨sb', hres, -, -⟩ := sbPathResolve_view h path
  rw [answer, hres, Option.map_some]

theorem Refines.exists_right {a : α} {y : Option (β × View)}
    (h : Refines R (some (a, sb)) y) : ∃ b, y = some (b, sb.view) ∧ R a b ∧ sb.Ok := by
  cases h with
  | @some _ b hab => exact ⟨b.1, by rw [hab.2.2], hab.1, hab.2.1⟩

theorem Refines.exists_left {b : β} {x : Option (α × Super)}
    (h : Refines R x (some (b, v))) : ∃ a sb, x = some (a, sb) ∧ R a b ∧ sb.Ok ∧ sb.view = v := by
  cases h with
  | @some a _ hab => exact ⟨a.1, a.2, rfl, hab⟩

section

variable {M : Mem} {compatible : Bool} {root root' n : Super} {p : Str} {e : Int}

theorem vfsMount_spec (hroot : root.Ok) (hn : n.Ok) (h : vfsMount M compatible root p n = some (e, root')) :
    root'.Ok ∧ (e = 0 ∧ MountsAt n.view root.view p root'.view ∨ e ≠ 0 ∧ root'.view = root.view) := by
  have hr := vfsMount_refines M compatible hroot hn p
  rw [h] at hr
  obtain ⟨b, hb, rfl, hok⟩ := hr.exists_right
  exact ⟨hok, mount_spec hroot.view_wf hb⟩

theorem vfsUmount_spec (hroot : root.Ok) (h : vfsUmount M root p = some (e, root')) :
    root'.Ok ∧ (e = 0 ∧ UnmountsAt root.view p root'.view ∨ e ≠ 0 ∧ root'.view = root.view) := by
  have hr := vfsUmount_refines M hroot p
  rw [h] at hr
  obtain ⟨b, hb, rfl, hok⟩ := hr.exists_right
  exact ⟨hok, umount_spec hroot.view_wf hb⟩

theorem view_covered (sb : Super) : sb.view.covered = sb.covered.view := by
  cases sb with
  | null => simp only [Super.covered, view_null, covered]
  | mk => rw [view_mk, covered, Super.covered]

/-- After a successful mount the paths that pass through the mount point are resolved in the new filesystem, and all
others as before. -/
theorem mount_resolves (hroot : root.Ok) (hn : n.Ok) (h : vfsMount M compatible root p n = some (0, root')) :
    (∀ r, View.Tail r → root.view.Passes p r → answer root' (p ++ r) = answer n r) ∧
    (∀ q, (∀ r, q = p ++ r → View.Tail r → ¬root.view.Passes p r) → answer root' q = answer root q) ∧
    root.view.Passes p [] := by
  obtain ⟨hok, hspec⟩ := vfsMount_spec hroot hn h
  rcases hspec with ⟨-, hat⟩ | ⟨he, -⟩
  · obtain ⟨hin, hout, hp⟩ := hat.mounted hroot.view_wf
    refine ⟨fun r hr hpass => ?_, fun q hq => ?_, hp⟩
    · rw [hok.answer_eq, hn.answer_eq, hin r hr hpass]
    · rw [hok.answer_eq, hroot.answer_eq, resolve, hout q hq, resolve]
  · exact absurd rfl he

/-- A mount at `/a` beside one at `/ab`. -/
theorem mount_resolves_root : ∃ root root', vfsMount .plain true rootFs ['/', 'a', 'b']
    (sget { id := 3 }) = some (0, root) ∧ vfsMount .plain true root ['/', 'a'] (sget { id := 2 }) = some (0, root') ∧
    answer root' ['/', 'a'] = answer (sget { id := 2 }) [] ∧
    answer root' ['/', 'a', 'b'] = answer root ['/', 'a', 'b'] := by
  obtain ⟨root, root', h, h'⟩ : ∃ root root', vfsMount .plain true rootFs ['/', 'a', 'b'] (sget { id := 3 }) =
      some (0, root) ∧ vfsMount .plain true root ['/', 'a'] (sget { id := 2 }) = some (0, root') := ⟨_, _, rfl, rfl⟩
  obtain ⟨hin, hout, hpass⟩ := mount_resolves (vfsMount_spec (sget_ok _) (sget_ok _) h).1 (sget_ok _) h'
  refine ⟨root, root', h, h', hin [] (.inl rfl) hpass, hout _ fun r hr htail => ?_⟩
  obtain rfl : r = ['b'] := by simpa using hr.symm
  simp [View.Tail] at htail

/-- A mount at `/a` does not hide an older one at `/a/b`. -/
theorem older_key_wins : ∃ root root', vfsMount .plain true rootFs ['/', 'a', '/', 'b']
    (sget { id := 3 }) = some (0, root) ∧ vfsMount .plain true root ['/', 'a'] (sget { id := 2 }) = some (0, root') ∧
    answer root' ['/', 'a', '/', 'b', '/', 'x'] = some (3, ['/', 'x']) :=
  ⟨_, _, rfl, rfl, rfl⟩

/-- A mount and an unmount at the same path: the resolution of all paths is as before, unless the mount point is new
and the filesystem covers another one, which appears then. -/
theorem umount_restores (M : Mem) :
    (∀ compatible root n p root', root.Ok → n.Ok → vfsMount M compatible root p n = some (0, root') →
      ∃ root'', vfsUmount M root' p = some (0, root'') ∧
        ((∀ q, answer root'' q = answer root q) ↔ n.covered = .null ∨ (root.view.owner p).2 = []) ∧
        (n.covered ≠ .null → (root.view.owner p).2 ≠ [] → answer root'' p = answer n.covered [])) ∧
    (∀ compatible root n p e root', root.Ok → n.Ok → vfsMount M compatible root p n = some (e, root') → e ≠ 0 →
      ∀ q, answer root' q = answer root q) ∧
    ∀ root p e root', root.Ok → vfsUmount M root p = some (e, root') → e ≠ 0 → ∀ q,
    answer root' q = answer root q := by
  refine ⟨fun compatible root n p root' hroot hn h => ?_, fun compatible root n p e root' hroot hn h he q => ?_,
    fun root p e root' hroot h he q => ?_⟩
  · obtain ⟨hok, hspec⟩ := vfsMount_spec hroot hn h
    rcases hspec with ⟨-, hat⟩ | ⟨he, -⟩
    swap
    · exact absurd rfl he
    obtain ⟨hback, hother⟩ := hat.undo hroot.view_wf hn.view_wf.ne_null
    rw [view_covered, Ne, view_eq_null] at hother
    rw [view_covered, view_eq_null] at hback
    have hp := hat.head_eq hroot.view_wf
    -- the call finds the way back
    have hcall : ∀ {v}, UnmountsAt root'.view p v →
        ∃ root'', vfsUmount M root' p = some (0, root'') ∧ root''.Ok ∧ root''.view = v := by
      intro v hu
      have hr := vfsUmount_refines M hok p
      rw [hu.umount_eq hok.view_wf hp] at hr
      obtain ⟨a, root'', hcall, rfl, hok'', hview⟩ := hr.exists_left
      exact ⟨root'', hcall, hok'', hview⟩
    by_cases hcond : n.covered = .null ∨ (root.view.owner p).2 = []
    · obtain ⟨root'', hcall, hok'', hview⟩ := hcall (hback hcond)
      refine ⟨root'', hcall, ⟨fun _ => hcond, fun _ q => ?_⟩, fun h1 h2 => absurd hcond (by tauto)⟩
      rw [hok''.answer_eq, hroot.answer_eq, hview]
    obtain ⟨hcov, hsuffix⟩ := not_or.1 hcond
    obtain ⟨v, hu, hm⟩ := hother hcov hsuffix
    obtain ⟨root'', hcall, hok'', hview⟩ := hcall hu
    have hcovok : n.covered.Ok := by
      cases hn with
      | mk _ _ hok => exact hok hcov
    have hat := hm.inside [] (.inl rfl) hm.passes
    rw [append_nil, ← hview] at hat
    refine ⟨root'', hcall, ⟨fun hall => ?_, fun hc => absurd hc hcond⟩, fun _ _ => ?_⟩
    · have hsame := hall p
      rw [hok''.answer_eq, hroot.answer_eq, hat] at hsame
      have hnil := congrArg Prod.snd (Option.some.inj hsame)
      exact absurd (hnil.symm.trans hcovok.view_wf.owner_nil) hsuffix
    · rw [hok''.answer_eq, hcovok.answer_eq, hat]
  · obtain ⟨hok, hspec⟩ := vfsMount_spec hroot hn h
    rw [hok.answer_eq, hroot.answer_eq, (hspec.resolve_left fun h0 => he h0.1).2]
  · obtain ⟨hok, hspec⟩ := vfsUmount_spec hroot h
    rw [hok.answer_eq, hroot.answer_eq, (hspec.resolve_left fun h0 => he h0.1).2]

end

/-- A mount at `/a/b` stands when one at `/a` is made and undone. -/
theorem umount_restores_root : ∃ root₀ root root',
    vfsMount .plain true rootFs ['/', 'a', '/', 'b'] (sget { id := 3 }) = some (0, root₀) ∧
    vfsMount .plain true root₀ ['/', 'a'] (sget { id := 2 }) = some (0, root) ∧
    vfsUmount .plain root ['/', 'a'] = some (0, root') ∧ ∀ q, answer root' q = answer root₀ q := by
  obtain ⟨root₀, root, h, h'⟩ : ∃ root₀ root, vfsMount .plain true rootFs ['/', 'a', '/', 'b'] (sget { id := 3 }) =
      some (0, root₀) ∧ vfsMount .plain true root₀ ['/', 'a'] (sget { id := 2 }) = some (0, root) := ⟨_, _, rfl, rfl⟩
  obtain ⟨root', hu, hq, -⟩ := (umount_restores .plain).1 true _ _ _ _ (vfsMount_spec (sget_ok _) (sget_ok _) h).1
    (sget_ok _) h'
  exact ⟨root₀, root, root', h, h', hu, hq.2 (.inl rfl)⟩

/-- The unmount of a filesystem that came with one that it covers leaves that one. -/
theorem covered_stays : ∃ root root',
    vfsMount .plain true rootFs ['/', 'a'] ((sget { id := 2 }).setCovered (sget { id := 3 })) = some (0, root) ∧
    vfsUmount .plain root ['/', 'a'] = some (0, root') ∧ answer rootFs ['/', 'a'] = some (1, ['/', 'a']) ∧
    answer root' ['/', 'a'] = some (3, []) :=
  ⟨_, _, rfl, rfl, rfl, rfl⟩

end Mos.Vfs
