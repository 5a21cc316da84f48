import Mos.Vfs.View

/-!
# Steps on views

What a successful call does to a view, by the way it takes: `MountsAt` for `mount`, `UnmountsAt` for `umount`.  Calls
that fail change nothing.
-/

namespace Mos.Vfs.View

open Lib List Function

/-- A successful mount: over an existing mount, as a new mount, or in a child mount. -/
inductive MountsAt (next : View) : View → Str → View → Prop
  | cover {info keys sub covered k} (hk : k ∈ keys) : MountsAt next (mk info keys sub covered) k
        (mk info keys (Function.update sub k ((next.rebase (sub k).point).setCovered (sub k))) covered)
  | add {info keys sub covered p point} (hp : p.head? = some '/')
      (hno : best keys p = none) (hpoint : newPoint info.point p = some point) :
      MountsAt next (mk info keys sub covered) p
        (mk info (insertKey p keys) (Function.update sub p (next.rebase point)) covered)
  | down {info keys sub covered x k rest} (hrest : rest.head? = some '/')
      (hno : k ++ rest ∉ keys) (hl : Longest keys (k ++ rest) k) (h : MountsAt next (sub k) rest x) :
      MountsAt next (mk info keys sub covered) (k ++ rest) (mk info keys (Function.update sub k x) covered)

/-- A successful unmount: what was covered comes back, or the mount point goes. -/
inductive UnmountsAt : View → Str → View → Prop
  | uncover {info keys sub covered k} (hk : k ∈ keys) (hcov : (sub k).covered ≠ null) :
      UnmountsAt (mk info keys sub covered) k (mk info keys (Function.update sub k (sub k).covered) covered)
  | remove {info keys sub covered k} (hk : k ∈ keys) (hcov : (sub k).covered = null) :
      UnmountsAt (mk info keys sub covered) k (mk info (keys.erase k) (Function.update sub k null) covered)
  | down {info keys sub covered x k rest} (hrest : rest.head? = some '/')
      (hno : k ++ rest ∉ keys) (hl : Longest keys (k ++ rest) k) (h : UnmountsAt (sub k) rest x) :
      UnmountsAt (mk info keys sub covered) (k ++ rest) (mk info keys (Function.update sub k x) covered)

variable {v v' next x : View} {p k : Str} {e : Int} {sub : Str → View}

theorem MountsAt.unique (h : MountsAt next v p v') (h' : MountsAt next v p x) : v' = x := by
  induction h generalizing x with
  | cover hk =>
    cases h' with
    | cover => rfl
    | add _ hno => exact absurd (longest_self hk).covers (best_eq_none.1 hno _ hk)
    | down _ hno => exact absurd hk hno
  | add _ hno hpoint =>
    cases h' with
    | cover hk => exact absurd (longest_self hk).covers (best_eq_none.1 hno _ hk)
    | add _ _ hpoint' => rw [Option.some.inj (hpoint.symm.trans hpoint')]
    | down _ _ hl => exact absurd hl.covers (best_eq_none.1 hno _ hl.mem)
  | @down _ _ _ _ _ k rest _ hno hl _ ih =>
    generalize hp : k ++ rest = q at h' hno hl
    cases h' with
    | cover hk => exact absurd hk hno
    | add _ hno' => exact absurd hl.covers (best_eq_none.1 hno' _ hl.mem)
    | down _ _ hl' h' =>
      cases hl.unique hl'
      cases append_cancel_left hp
      rw [ih h']

private theorem route_spec {hit miss : View → Str → Option (Int × View)} {S : View → Str → View → Prop}
    (hhit : ∀ {info keys sub covered k e v'}, Wf (mk info keys sub covered) → k ∈ keys →
      hit (mk info keys sub covered) k = some (e, v') → e = 0 ∧ S (mk info keys sub covered) k v' ∨
        e ≠ 0 ∧ v' = mk info keys sub covered)
    (hmiss : ∀ {info keys sub covered p e v'}, p.head? = some '/' → best keys p = none →
      miss (mk info keys sub covered) p = some (e, v') → e = 0 ∧ S (mk info keys sub covered) p v' ∨
        e ≠ 0 ∧ v' = mk info keys sub covered)
    (hdown : ∀ {info keys sub covered x k rest}, rest.head? = some '/' → k ++ rest ∉ keys →
      Longest keys (k ++ rest) k → S (sub k) rest x →
      S (mk info keys sub covered) (k ++ rest) (mk info keys (update sub k x) covered)) (hv : v.Wf)
      (h : route einval hit miss v p = some (e, v')) :
    e = 0 ∧ S v p v' ∨ e ≠ 0 ∧ v' = v := by
  refine route_induct (P := fun v p r => ∀ e v', r = some (e, v') → e = 0 ∧ S v p v' ∨ e ≠ 0 ∧ v' = v)
    ?_ ?_ ?_ ?_ hv p e v' h
  · intro v p _ _ e v' h
    cases h
    exact .inr ⟨by decide, rfl⟩
  · intro info keys sub covered k hwf _ hk e v' h
    exact hhit hwf hk h
  · intro info keys sub covered p _ hp hb e v' h
    exact hmiss hp hb h
  · intro info keys sub covered k rest r _ _ hrest hno hl ih e v' h
    cases r with
    | none => cases h
    | some x =>
      obtain ⟨rfl, rfl⟩ := Prod.mk.inj (Option.some.inj h)
      rcases ih x.1 x.2 rfl with ⟨he, hs⟩ | ⟨he, hx⟩
      · exact .inl ⟨he, hdown hrest hno hl hs⟩
      · exact .inr ⟨he, by rw [hx, update_eq_self]⟩

theorem mount_spec {compatible : Bool} (hv : v.Wf)
    (h : mount compatible v p next = some (e, v')) : e = 0 ∧ MountsAt next v p v' ∨ e ≠ 0 ∧ v' = v := by
  unfold mount at h
  cases hn : next.isNull with
  | true =>
    rw [hn] at h
    cases h
    exact .inr ⟨by decide, rfl⟩
  | false =>
    rw [hn] at h
    refine route_spec (fun _ hk h => ?_) (fun hp hb h => ?_) .down hv h
    · rw [cover] at h
      split_ifs at h
      · cases h
        exact .inr ⟨by decide, rfl⟩
      · cases h
        exact .inr ⟨by decide, rfl⟩
      · cases h
        exact .inl ⟨rfl, .cover hk⟩
    · rename_i info keys sub covered p e v'
      rw [add] at h
      cases hpoint : newPoint info.point p with
      | none =>
        rw [hpoint] at h
        cases h
      | some point =>
        simp only [hpoint] at h
        split_ifs at h
        cases h
        exact .inl ⟨rfl, .add hp hb hpoint⟩

private theorem drop_eq (info : Info) (keys : List Str) (covered : View) (hne : sub k ≠ null) :
    ∃ x, drop (mk info keys sub covered) k = some (x,
      if (sub k).covered.isNull then mk info (keys.erase k) (update sub k null) covered
      else mk info keys (update sub k (sub k).covered) covered) := by
  rw [drop]
  cases hs : sub k with
  | null => exact absurd hs hne
  | mk cinfo ckeys csub under =>
    exact ⟨mk cinfo ckeys csub null, rfl⟩

theorem umount_spec (hv : v.Wf) (h : umount v p = some (e, v')) : e = 0 ∧ UnmountsAt v p v' ∨ e ≠ 0 ∧ v' = v := by
  refine route_spec (fun hwf hk h => ?_) (fun _ _ h => ?_) .down hv h
  · rename_i info keys sub covered k e v'
    obtain ⟨x, hx⟩ := drop_eq info keys covered (hwf.sub_wf hk).ne_null
    rw [hx] at h
    obtain ⟨rfl, rfl⟩ := Prod.mk.inj (Option.some.inj h)
    refine .inl ⟨rfl, ?_⟩
    by_cases hc : (sub k).covered = null
    · rw [if_pos (isNull_iff.2 hc)]
      exact .remove hk hc
    · rw [if_neg (by rwa [isNull_iff])]
      exact .uncover hk hc
  · cases h
    exact .inr ⟨by decide, rfl⟩

theorem UnmountsAt.umount_eq (hv : v.Wf) (hp : p.head? = some '/') (h : UnmountsAt v p v') :
    umount v p = some (0, v') := by
  unfold umount
  induction h with
  | @uncover info keys sub covered k hk hcov =>
    have hne : sub k ≠ null := fun he => hcov (by rw [he]; rfl)
    obtain ⟨x, hx⟩ := drop_eq info keys covered hne
    rw [route, if_neg (not_not.2 hp), if_pos hk, hx, if_neg (by rwa [isNull_iff])]
    rfl
  | @remove info keys sub covered k hk hcov =>
    obtain ⟨x, hx⟩ := drop_eq info keys covered (hv.sub_wf hk).ne_null
    rw [route, if_neg (not_not.2 hp), if_pos hk, hx, if_pos (isNull_iff.2 hcov)]
    rfl
  | @down info keys sub covered x k rest hrest hno hl _ ih =>
    rw [route, if_neg (not_not.2 hp), if_neg hno, hv.desc.best_eq_some.2 hl]
    simp only [drop_left]
    rw [ih (hv.sub_wf hl.mem) hrest]
    rfl

section

variable {info : Info} {keys : List Str} {sub : Str → View} {covered : View}

theorem UnmountsAt.replaced (hk : k ∈ keys) (hcov : x.covered ≠ null) :
    UnmountsAt (mk info keys (update sub k x) covered) k (mk info keys (update sub k x.covered) covered) := by
  have h : UnmountsAt (mk info keys (update sub k x) covered) k
      (mk info keys (update (update sub k x) k (update sub k x k).covered) covered) :=
    .uncover hk (by rwa [update_self])
  rwa [update_self, update_idem] at h

theorem UnmountsAt.added (hno : p ∉ keys) (hcov : x.covered = null) :
    UnmountsAt (mk info (insertKey p keys) (update sub p x) covered) p
    (mk info keys (update sub p null) covered) := by
  have h : UnmountsAt (mk info (insertKey p keys) (update sub p x) covered) p
      (mk info ((insertKey p keys).erase p) (update (update sub p x) p null) covered) :=
    .remove (mem_insertKey.2 (.inl rfl)) (by rwa [update_self])
  rwa [erase_insertKey hno, update_idem] at h

theorem UnmountsAt.inside {rest : Str} (hrest : rest.head? = some '/') (hno : k ++ rest ∉ keys)
    (hl : Longest keys (k ++ rest) k) {y : View} (h : UnmountsAt x rest y) :
    UnmountsAt (mk info keys (update sub k x) covered) (k ++ rest) (mk info keys (update sub k y) covered) := by
  have hu : UnmountsAt (mk info keys (update sub k x) covered) (k ++ rest)
      (mk info keys (update (update sub k x) k y) covered) :=
    .down hrest hno hl (by rwa [update_self])
  rwa [update_idem] at hu

end

/-! ### Well-formedness -/

section

variable {info : Info} {keys : List Str} {sub : Str → View} {covered : View}

theorem Wf.update (h : Wf (.mk info keys sub covered)) (hk : k ∈ keys) (hx : x.Wf) :
    Wf (.mk info keys (update sub k x) covered) := by
  cases h with
  | mk hdesc hslash hnull hsub hcov =>
    refine .mk hdesc hslash (fun k' hk' => ?_) (fun k' hk' => ?_) hcov
    · have hne : k' ≠ k := fun he => hk' (he ▸ hk)
      rw [update_of_ne hne, hnull k' hk']
    · by_cases he : k' = k
      · rw [he, update_self]
        exact hx
      · rw [update_of_ne he]
        exact hsub k' hk'

theorem Wf.insert (h : Wf (.mk info keys sub covered)) (hp : p.head? = some '/') (hno : p ∉ keys)
    (hx : x.Wf) : Wf (.mk info (insertKey p keys) (Function.update sub p x) covered) := by
  cases h with
  | mk hdesc hslash hnull hsub hcov =>
    refine .mk (hdesc.insertKey hno) (fun k hk => ?_) (fun k hk => ?_) (fun k hk => ?_) hcov
    · rcases mem_insertKey.1 hk with rfl | hk
      · exact hp
      · exact hslash k hk
    · rw [mem_insertKey, not_or] at hk
      rw [update_of_ne hk.1, hnull k hk.2]
    · by_cases he : k = p
      · rw [he, update_self]
        exact hx
      · rw [update_of_ne he]
        exact hsub k ((mem_insertKey.1 hk).resolve_left he)

end

theorem Wf.rebase (h : v.Wf) (point : Str) : (v.rebase point).Wf := by
  induction h generalizing point with
  | @mk info keys sub covered hdesc hslash hnull hsub hcov ih _ =>
    refine .mk hdesc hslash (fun k hk => ?_) (fun k hk => ?_) hcov
    · simp only [hnull k hk]
      cases childPoint point k <;> rfl
    · cases hc : childPoint point k with
      | none => simpa only [hc] using hsub k hk
      | some p => simpa only [hc] using ih k hk p

theorem Wf.setCovered {c : View} (h : v.Wf) (hc : c.Wf) : (v.setCovered c).Wf := by
  cases h with
  | mk hdesc hslash hnull hsub hcov => exact .mk hdesc hslash hnull hsub fun _ => hc

theorem MountsAt.wf (hn : next.Wf) (h : MountsAt next v p v') (hv : v.Wf) : v'.Wf := by
  induction h with
  | cover hk => exact hv.update hk ((hn.rebase _).setCovered (hv.sub_wf hk))
  | add hp hno _ => exact hv.insert hp (fun hm => best_eq_none.1 hno _ hm (.refl _)) (hn.rebase _)
  | down _ _ hl _ ih => exact hv.update hl.mem (ih (hv.sub_wf hl.mem))

/-- All keys in the tree fit the buffers for paths. -/
def Short : View → Prop
  | null => True
  | mk _ keys sub _ => ∀ k ∈ keys, k.length < 256 ∧ (sub k).Short

/-- The mount point of a new mount fits its buffer: the path is a mount point already, or it is in the root, or the
mount point of its owner and the rest of the path together are short enough. -/
def Room (v : View) (path : Str) : Prop :=
  (v.owner path).2 = [] ∨ (v.owner path).1.point = [] ∨ (v.owner path).1.point = ['/'] ∨
    (v.owner path).1.point.length + (v.owner path).2.length < 256

theorem Short.rebaseSafe (h : v.Short) (point : Str) : v.rebaseSafe point = true := by
  induction v generalizing point with
  | null => rfl
  | mk info keys sub covered ih _ =>
    rw [View.rebaseSafe, all_eq_true]
    intro k hk
    obtain ⟨hlen, hsub⟩ : k.length < 256 ∧ (sub k).Short := h k hk
    cases childPoint point k with
    | none => simp [hlen]
    | some path => simp [hlen, ih k hsub path]

variable {path : Str}

private theorem newPoint_isSome {point : Str} (h : point = [] ∨ point = ['/'] ∨ point.length + path.length < 256) :
    ∃ p, newPoint point path = some p := by
  unfold newPoint
  by_cases hroot : point = [] ∨ point = ['/']
  · exact ⟨_, if_pos hroot⟩
  · have hlen : point.length + path.length < 256 := by tauto
    exact ⟨_, by rw [if_neg hroot, if_pos hlen]⟩

theorem mount_isSome (hv : v.Wf) (hshort : next.Short) (compatible : Bool) (hfit : v.Room path) :
    ∃ r, mount compatible v path next = some r := by
  unfold mount
  cases next.isNull with
  | true => exact ⟨_, rfl⟩
  | false =>
    revert hfit
    refine route_induct (P := fun v path r => v.Room path → ∃ x, r = some x) ?_ ?_ ?_ ?_ hv path
    · intro v path _ _ _
      exact ⟨_, rfl⟩
    · intro info keys sub covered k _ _ _ _
      rw [cover]
      split_ifs with _ _ hsafe
      any_goals exact ⟨_, rfl⟩
      exact absurd (hshort.rebaseSafe _) hsafe
    · intro info keys sub covered path _ hhead hbest hfit
      simp only [Room, owner, hbest] at hfit
      have hne : path ≠ [] := fun he => by simp [he] at hhead
      obtain ⟨point, hpoint⟩ := newPoint_isSome (hfit.resolve_left hne)
      simp only [add, hpoint, hshort.rebaseSafe, if_true]
      exact ⟨_, rfl⟩
    · intro info keys sub covered k rest r hwf _ _ _ hl ih hfit
      cases hwf with
      | mk hdesc =>
        simp only [Room, owner, hdesc.best_eq_some.2 hl, drop_left] at hfit
        obtain ⟨x, rfl⟩ := ih hfit
        exact ⟨_, rfl⟩

private theorem drop_isSome {info : Info} {keys : List Str} {covered : View}
    (h : Wf (mk info keys sub covered)) (hk : k ∈ keys) : ∃ r, drop (mk info keys sub covered) k = some r := by
  cases h with
  | mk _ _ _ hsub _ =>
    have hwf := hsub k hk
    rw [drop]
    cases hs : sub k with
    | null => exact absurd hs hwf.ne_null
    | mk => exact ⟨_, rfl⟩

private theorem route_isSome {α : Type} {bad : α} {hit miss : View → Str → Option (α × View)} (hv : v.Wf) (path : Str)
    (hhit : ∀ {info keys sub covered k}, Wf (mk info keys sub covered) → k ∈ keys →
      ∃ r, hit (mk info keys sub covered) k = some r)
    (hmiss : ∀ v path, ∃ r, miss v path = some r) : ∃ r, route bad hit miss v path = some r := by
  refine route_induct (P := fun _ _ r => ∃ x, r = some x) ?_ ?_ ?_ ?_ hv path
  · intro v path _ _
    exact ⟨_, rfl⟩
  · intro info keys sub covered k hwf _ hk
    exact hhit hwf hk
  · intro info keys sub covered path _ _ _
    exact hmiss _ path
  · rintro info keys sub covered k rest r - - - - - ⟨x, rfl⟩
    exact ⟨_, rfl⟩

theorem umount_isSome (hv : v.Wf) (path : Str) : ∃ r, umount v path = some r := by
  refine route_isSome hv path (fun hwf hk => ?_) fun v _ => ⟨_, rfl⟩
  obtain ⟨r, hr⟩ := drop_isSome hwf hk
  rw [hr]
  exact ⟨_, rfl⟩

theorem take_isSome (hv : v.Wf) (path : Str) : ∃ r, take v path = some r :=
  route_isSome hv path drop_isSome fun _ _ => ⟨_, rfl⟩

end Mos.Vfs.View
