import Mos.Vfs.Commit

/-!
# Propagated mounts

`vfs_mount_propagated` always ends.  With an error no path is resolved in another way than before.  With 0 the mount
is at the target and a clone at the place of every receiver, just if all these places were planned and no mount was
made on the way to the place of an earlier one (`Unhidden`).  Mounts are made by their paths, so that the clone for a
receiver can end up above the target: where the mount point of the receiver and the suffix behind it are the path of
another mount.
-/

namespace Mos.Vfs

open Lib Function List Spaces

section

variable {R : Type} [DecidableEq R] {M : Mem} {maxPath : Nat} {oom : Nat → Bool} {s : Spaces R} {root : R}
    {target : Str}
  {mount source : Super} {items : List (Item R)} {fuel : Nat} {compatible : Bool} {compatibleItem : Item R → Bool}

/-- What a call is to mount, unless planning fails: the mount itself, and the items. -/
inductive Makes (M : Mem) (maxPath : Nat) (oom : Nat → Bool) (s : Spaces R) (root : R) (target : Str) (mount : Super)
    (fuel : Nat) : Super → List (Item R) → Prop
  | alone (h : ∀ owner, ownerOf (s.tree root) target = some owner → owner.peerGroup = 0) :
    Makes M maxPath oom s root target mount fuel mount []
  | shared {owner plan} (howner : ownerOf (s.tree root) target = some owner) (hgroup : owner.peerGroup ≠ 0)
      (hplan : mountPlan M maxPath oom s target owner mount fuel = some plan) (herr : plan.error = 0) :
    Makes M maxPath oom s root target mount fuel (sourceMount mount s.nextPeer).1 plan.items

/-- The mounts of a call, in the order in which they are made. -/
def mountList (root : R) (target : Str) (source : Super) (items : List (Item R)) : List ((R × Str) × View) :=
  ((root, target), source.view) :: items.map Item.mounted

/-- The place of every receiver was planned. -/
def Complete (s : Spaces R) (root : R) (target : Str) (l : List ((R × Str) × View)) : Prop :=
  ∀ owner, ownerOf (s.tree root) target = some owner → ∀ r x, Receives s root owner r x → (r, x) ≠ (root, owner) →
    (r, itemPath (targetSuffix owner target) x) ∈ l.map Prod.fst

/-- The mount is at the target and a clone at the place of every receiver, and no place was taken twice. -/
structure Appears (s s' : Spaces R) (root : R) (target : Str) (mount : Super) (l : List ((R × Str) × View)) :
    Prop where
  mounted : answer (s'.tree root) target = some (mount.id, [])
  clones : ∀ owner, ownerOf (s.tree root) target = some owner → ∀ r x, Receives s root owner r x →
    (r, x) ≠ (root, owner) → ∃ z ∈ l, z.1 = (r, itemPath (targetSuffix owner target) x) ∧
      z.2.shape = mount.view.shape ∧ answer (s'.tree r) z.1.2 = some (z.2.id, [])
  once : (l.map Prod.fst).Nodup

section

variable (h : Makes M maxPath oom s root target mount fuel source items)

include h

theorem Makes.source_ok (hm : mount.Ok) :
    source.Ok ∧ source.view.shape = mount.view.shape ∧ source.id = mount.id := by
  cases h with
  | alone => exact ⟨hm, rfl, rfl⟩
  | shared => exact sourceMount_ok hm s.nextPeer

theorem Makes.cloned (hm : mount.Ok) : (∀ item ∈ items, item.mount.Ok ∧ item.mount.view.shape = mount.view.shape ∧
      ∀ q, s.nextId ≤ (item.mount.view.resolve q).1) ∧
    items.Pairwise fun i j => ∀ q, i.mount.id < (j.mount.view.resolve q).1 := by
  cases h with
  | alone => exact ⟨fun _ hitem => (nomatch hitem), .nil⟩
  | shared _ _ hplan =>
    have hcloned := mountPlan_cloned hm hplan
    exact ⟨hcloned.clone, hcloned.later⟩

theorem Makes.receives {item : Item R} (hitem : item ∈ items) : ∃ owner, ownerOf (s.tree root) target = some owner ∧
    Receives s root owner item.root item.parent ∧ item.path = itemPath (targetSuffix owner target) item.parent := by
  cases h with
  | alone => cases hitem
  | @shared owner plan howner hgroup hplan herr =>
    refine ⟨owner, howner, ?_, congrArg Prod.snd ((mountPlan_counted hplan).mem item hitem).2⟩
    exact (receiversOf_sound hgroup (mountPlan_receivers hplan herr) item.receiver (mem_map_of_mem hitem)).2

/-- Planning is complete, if no two receivers in a namespace have the same place. -/
theorem Makes.complete (hs : s.Ok) (hdistinct : ∀ owner, ownerOf (s.tree root) target = some owner →
    Distinct s root owner (targetSuffix owner target)) :
    Complete s root target (mountList root target source items) := by
  intro owner howner r x hx hne
  cases h with
  | alone halone =>
    refine absurd ?_ hne
    clear hne
    induction hx with
    | owner => rfl
    | step _ h0 _ _ ih =>
      rw [(Prod.mk.inj ih).2] at h0
      exact absurd (halone owner howner) h0
  | @shared owner' plan howner' hgroup hplan herr =>
    cases howner.symm.trans howner'
    have hmem := (receiversOf_complete hs (ownerOf_some howner).1 hgroup (hdistinct owner howner)
      (mountPlan_receivers hplan herr) hx).resolve_left hne
    obtain ⟨item, hitem, he⟩ := mem_map.1 hmem
    obtain ⟨rfl, rfl⟩ := Prod.mk.inj he
    exact mem_map.2 ⟨item.mounted, mem_cons_of_mem _ (mem_map_of_mem hitem),
      ((mountPlan_counted hplan).mem item hitem).2⟩

theorem Makes.call_eq (compatible : Bool) (compatibleItem : Item R → Bool) : ∃ t : Spaces R, t.tree = s.tree ∧
    vfsMountPropagated M maxPath oom compatible compatibleItem fuel s root target mount =
      (mountIn M compatible t root target source).bind fun first => if first.1 ≠ 0 then some first
        else (commit M compatibleItem items [] first.2).bind fun r => if r.1 = 0 then some (0, r.2.2)
          else (undo M (r.2.1.map Item.place ++ [(root, target)]) r.2.2).map (r.1, ·) := by
  cases h with
  | alone halone =>
    have hcall : vfsMountPropagated M maxPath oom compatible compatibleItem fuel s root target mount =
        mountIn M compatible s root target mount := by
      unfold vfsMountPropagated
      cases howner : ownerOf (s.tree root) target with
      | none => rfl
      | some owner => exact if_pos (halone owner howner)
    refine ⟨s, rfl, hcall.trans ?_⟩
    cases mountIn M compatible s root target mount with
    | none => rfl
    | some x =>
      obtain ⟨e, s'⟩ := x
      by_cases hz : e = 0 <;> simp [commit, hz]
  | @shared owner plan howner hgroup hplan herr =>
    refine ⟨{ s with nextPeer := plan.nextPeer, nextId := plan.nextId }, rfl, ?_⟩
    unfold vfsMountPropagated
    simp only [howner, if_neg hgroup, hplan, Option.bind_some, herr, ne_eq, not_true, if_false]

/-- Mounts without covered layers are undone. -/
theorem Makes.undo_eq (hs : s.Ok) (hm : mount.Ok) (hcov : mount.covered = .null) {l rest : List (Item R)}
    (hl : items = l ++ rest) {t : Spaces R} (ht : t.TreesOk)
    (hmade : Made s.view (mountList root target source l) t.view) :
    ∃ s', undo M (l.reverse.map Item.place ++ [(root, target)]) t = some s' ∧ s'.TreesOk ∧ s'.view = s.view := by
  obtain ⟨hsok, hshape, -⟩ := h.source_ok hm
  have hmcov : mount.view.covered = .null := by rw [view_covered, hcov, view_null]
  have hall : ∀ z ∈ mountList root target source l, z.2.Wf ∧ z.2.covered = .null := by
    refine forall_mem_cons.2 ⟨⟨hsok.view_wf, View.covered_eq_null_of_shape hshape hmcov⟩, fun z hz => ?_⟩
    obtain ⟨item, hitem, rfl⟩ := mem_map.1 hz
    obtain ⟨hok, hshape, -⟩ := (h.cloned hm).1 item (hl ▸ mem_append_left _ hitem)
    exact ⟨hok.view_wf, View.covered_eq_null_of_shape hshape hmcov⟩
  obtain ⟨s', hundo, hok, -, hview⟩ := hmade.undo_eq (fun r => (hs.tree_ok r).view_wf) hall ht rfl
  have hplaces : ((mountList root target source l).map Prod.fst).reverse = l.reverse.map Item.place ++
    [(root, target)] := by
    rw [mountList, map_cons, reverse_cons, map_map, map_reverse]
    rfl
  rw [hplaces] at hundo
  exact ⟨s', hundo, hok, hview⟩

/-- All mounts are made, or none is; and the call is defined, if the mount points fit. -/
theorem Makes.returns (hs : s.Ok) (hm : mount.Ok) (hcov : mount.covered = .null) :
    (∀ e s', vfsMountPropagated M maxPath oom compatible compatibleItem fuel s root target mount = some (e, s') →
      s'.TreesOk ∧ (e = 0 → Made s.view (mountList root target source items) s'.view) ∧ (e ≠ 0 → s'.view = s.view)) ∧
    (mount.view.Short → Roomy s.view (mountList root target source items) → ∃ x,
      vfsMountPropagated M maxPath oom compatible compatibleItem fuel s root target mount = some x) := by
  obtain ⟨hsok, hshape, -⟩ := h.source_ok hm
  have hitems := (h.cloned hm).1
  obtain ⟨t, htree, hcall⟩ := h.call_eq compatible compatibleItem
  have ht : t.TreesOk := by
    intro r
    rw [htree]
    exact hs.tree_ok r
  have hview : t.view = s.view := by
    funext r
    rw [view, htree, view]
  have hfirst : ∀ x, mountIn M compatible t root target source = some x → x.2.TreesOk ∧ (x.1 = 0 ∧
      (∃ v, View.MountsAt source.view (s.view root) target v ∧ x.2.view = update s.view root v) ∨
      x.1 ≠ 0 ∧ x.2.view = s.view) := by
    intro x hx
    obtain ⟨hok, -, hspec⟩ := mountIn_spec ht hsok (show _ = some (x.1, x.2) from hx)
    rw [hview] at hspec
    exact ⟨hok, hspec⟩
  -- the commit of the items after the mount itself
  have hcommit : ∀ x y, mountIn M compatible t root target source = some x → x.1 = 0 →
      commit M compatibleItem items [] x.2 = some y → y.2.2.TreesOk ∧ ∃ l rest, items = l ++ rest ∧
        y.2.1 = l.reverse ∧ Made s.view (mountList root target source l) y.2.2.view ∧ (y.1 = 0 → rest = []) := by
    intro x y hx hz hy
    obtain ⟨hok, hspec⟩ := hfirst x hx
    obtain ⟨v, hat, hv⟩ := (hspec.resolve_right fun h0 => h0.1 hz).2
    obtain ⟨hyok, -, l, rest, hsplit, hdone, hmade, hall⟩ := commit_spec hok (fun item hitem => (hitems item hitem).1)
      (show _ = some (y.1, y.2.1, y.2.2) from hy)
    exact ⟨hyok, l, rest, hsplit, by rw [hdone, append_nil], .cons hat (hv ▸ hmade), hall⟩
  rw [hcall]
  constructor
  · intro e s' hret
    obtain ⟨x, hx, hret⟩ := Option.bind_eq_some_iff.1 hret
    by_cases hz : x.1 = 0
    swap
    · rw [if_pos hz] at hret
      cases hret
      obtain ⟨hok, hspec⟩ := hfirst _ hx
      exact ⟨hok, fun h0 => absurd h0 hz, fun _ => (hspec.resolve_left fun h0 => hz h0.1).2⟩
    rw [if_neg (not_not.2 hz)] at hret
    obtain ⟨y, hy, hret⟩ := Option.bind_eq_some_iff.1 hret
    obtain ⟨hyok, l, rest, hsplit, hdone, hmade, hall⟩ := hcommit x y hx hz hy
    by_cases hyz : y.1 = 0
    · rw [if_pos hyz] at hret
      cases hret
      rw [hall hyz, append_nil] at hsplit
      exact ⟨hyok, fun _ => hsplit ▸ hmade, fun h0 => absurd rfl h0⟩
    · obtain ⟨s'', hundo, hok, hback⟩ := h.undo_eq hs hm hcov hsplit hyok hmade
      rw [if_neg hyz, hdone, hundo] at hret
      cases hret
      exact ⟨hok, fun h0 => absurd h0 hyz, fun _ => hback⟩
  · intro hshort hroom
    have hsource : source.view.Short := View.short_of_shape hshape hshort
    have hfit : (t.view root).Room target := hview ▸ hroom [] _ _ _ rfl .nil
    obtain ⟨x, hx⟩ := mountIn_isSome compatible ht hsok hsource hfit
    rw [hx, Option.bind_some]
    by_cases hz : x.1 = 0
    swap
    · rw [if_pos hz]
      exact ⟨x, rfl⟩
    rw [if_neg (not_not.2 hz)]
    obtain ⟨hok, hspec⟩ := hfirst x hx
    obtain ⟨v, hat, hv⟩ := (hspec.resolve_right fun h0 => h0.1 hz).2
    obtain ⟨y, hy⟩ := commit_isSome compatibleItem [] hok
      (fun item hitem => ⟨(hitems item hitem).1, View.short_of_shape (hitems item hitem).2.1 hshort⟩)
      (hv ▸ hroom.tail hat)
    rw [hy, Option.bind_some]
    obtain ⟨hyok, l, rest, hsplit, hdone, hmade, -⟩ := hcommit x y hx hz hy
    by_cases hyz : y.1 = 0
    · rw [if_pos hyz]
      exact ⟨_, rfl⟩
    · obtain ⟨s'', hundo, -⟩ := h.undo_eq hs hm hcov hsplit hyok hmade
      rw [if_neg hyz, hdone, hundo]
      exact ⟨_, rfl⟩

/-- After the mounts were made: all are seen, just if all places were planned and none was hidden. -/
theorem Makes.appears_iff (hs : s.Ok) (hm : mount.Ok) (hid : mount.id < s.nextId) {s' : Spaces R} (hok : s'.TreesOk)
    (hmade : Made s.view (mountList root target source items) s'.view) :
    Appears s s' root target mount (mountList root target source items) ↔
      Complete s root target (mountList root target source items) ∧
        Unhidden s.view [] (mountList root target source items) := by
  obtain ⟨hsok, hshape, hsid⟩ := h.source_ok hm
  obtain ⟨hitems, hlater⟩ := h.cloned hm
  have hV : ∀ r, (s.view r).Wf := fun r => (hs.tree_ok r).view_wf
  have hall : ∀ z ∈ mountList root target source items, z.2.Wf ∧ z.2.shape = mount.view.shape := by
    refine forall_mem_cons.2 ⟨⟨hsok.view_wf, hshape⟩, fun z hz => ?_⟩
    obtain ⟨item, hitem, rfl⟩ := mem_map.1 hz
    exact ⟨(hitems item hitem).1.view_wf, (hitems item hitem).2.1⟩
  have hwf : ∀ z ∈ mountList root target source items, z.2.Wf := fun z hz => (hall z hz).1
  have hanswer : ∀ r q a, answer (s'.tree r) q = some a ↔ (s'.view r).resolve q = a := by
    intro r q a
    rw [(hok r).answer_eq, Option.some.injEq, view]
  constructor
  · intro ha
    refine ⟨fun owner howner r x hx hne => ?_,
      hmade.unhidden hV hwf (by simp) (pairwise_cons.2 ⟨?_, ?_⟩)⟩
    · obtain ⟨z, hz, he, -⟩ := ha.clones owner howner r x hx hne
      exact he ▸ mem_map_of_mem hz
    · -- the addresses of clones are new
      intro y hy t heq
      obtain ⟨item, hitem, rfl⟩ := mem_map.1 hy
      have hnew := (hitems item hitem).2.2 t
      rw [show item.mount.view.resolve t = _ from heq.symm, show (s'.view root).resolve target = _ from
        (hanswer _ _ _).1 ha.mounted] at hnew
      exact absurd hid (Nat.not_lt.2 hnew)
    · refine pairwise_map.2 (hlater.imp_of_mem fun {i j} hi _ hlt t heq => ?_)
      obtain ⟨owner, howner, hrec, hpath⟩ := h.receives hi
      have hmem : i.mounted ∈ mountList root target source items := mem_cons_of_mem _ (mem_map_of_mem hi)
      have hne : (i.root, i.parent) ≠ (root, owner) := by
        intro he
        obtain ⟨hr, hp⟩ := Prod.mk.inj he
        rw [hp, itemPath_owner howner] at hpath
        have hplace : i.place = (root, target) := Prod.ext hr hpath
        exact (nodup_cons.1 ha.once).1 (hplace ▸ mem_map.2 ⟨i.mounted, mem_map_of_mem hi, rfl⟩)
      obtain ⟨z, hz, he, -, hat⟩ := ha.clones owner howner _ _ hrec hne
      obtain rfl : z = i.mounted := inj_on_of_nodup_map ha.once hz hmem (he.trans (by rw [← hpath]; rfl))
      have hseen := (hanswer _ _ _).1 hat
      have hid' := hlt t
      rw [show j.mount.view.resolve t = _ from heq.symm,
        show (s'.view i.mounted.1.1).resolve i.mounted.1.2 = _ from hseen,
        show i.mounted.2.id = i.mount.id from id_view i.mount] at hid'
      exact absurd hid' (lt_irrefl _)
  · rintro ⟨hcomplete, hun⟩
    have hseen : ∀ z ∈ mountList root target source items, answer (s'.tree z.1.1) z.1.2 = some (z.2.id, []) := by
      intro z hz
      rw [hanswer, hun.resolve_eq hmade hV hwf z hz, (hwf z hz).resolve_nil]
    refine ⟨?_, fun owner howner r x hx hne => ?_, (hun.nodup hV hwf).1⟩
    · have htarget := hseen _ mem_cons_self
      rwa [show source.view.id = mount.id from (id_view source).trans hsid] at htarget
    · obtain ⟨z, hz, he⟩ := mem_map.1 (hcomplete owner howner r x hx hne)
      have hat := hseen z hz
      rw [show z.1.1 = r from congrArg Prod.fst he] at hat
      exact ⟨z, hz, he, (hall z hz).2, hat⟩

end

/-- Planning ends. -/
theorem fails_or_makes (M : Mem) (maxPath : Nat) (oom : Nat → Bool) (compatible : Bool)
    (compatibleItem : Item R → Bool)
    (s : Spaces R) (root : R) (target : Str) (mount : Super) (hfuel : s.mounts.length < fuel) :
    (∃ e s', vfsMountPropagated M maxPath oom compatible compatibleItem fuel s root target mount = some (e, s') ∧
      e ≠ 0 ∧ s'.tree = s.tree) ∨ ∃ source items, Makes M maxPath oom s root target mount fuel source items := by
  by_cases halone : ∀ owner, ownerOf (s.tree root) target = some owner → owner.peerGroup = 0
  · exact .inr ⟨_, _, .alone halone⟩
  push Not at halone
  obtain ⟨owner, howner, hgroup⟩ := halone
  obtain ⟨plan, hplan⟩ := mountPlan_terminates M maxPath oom s target owner mount hfuel
  by_cases herr : plan.error = 0
  · exact .inr ⟨_, _, .shared howner hgroup hplan herr⟩
  · refine .inl ⟨plan.error, { s with nextPeer := plan.nextPeer, nextId := plan.nextId }, ?_, herr, rfl⟩
    unfold vfsMountPropagated
    simp [howner, if_neg hgroup, hplan, herr]

end

/-! ### Two namespaces with shared roots -/

def sharedRoot (isNew : Bool) : Info :=
  { id := if isNew then 2 else 1, fstype := ['e', 'x', 't', '4'], point := ['/'], peerGroup := 1 }

def sharedRoots : Spaces Bool :=
  { tree := fun r => sget (sharedRoot r), roots := [false, true], nextPeer := 1, nextId := 10 }

def tmpFs : Super := sget { id := 3, fstype := ['t', 'm', 'p', 'f', 's'] }

private theorem mem_walk_sharedRoots {r : Bool} {x : Info} (hx : x ∈ walk (sharedRoots.tree r)) :
    x = sharedRoot r := by
  cases r <;> exact mem_singleton.1 hx

private theorem sharedRoots_ok : sharedRoots.Ok := by
  refine ⟨fun r => sget_ok _, fun r r' x y hx hy hid => ?_, fun r x hx => ?_⟩
  · rw [mem_walk_sharedRoots hx, mem_walk_sharedRoots hy] at hid ⊢
    revert hid
    cases r <;> cases r' <;> decide
  · rw [mem_walk_sharedRoots hx]
    cases r <;> decide

/-- Only the roots receive what is mounted. -/
theorem receives_sharedRoots (owner : Info) (howner : ownerOf (sharedRoots.tree false) ['/', 't'] = some owner)
    (r : Bool) (x : Info) (hx : Receives sharedRoots false owner r x) : x = sharedRoot r :=
  mem_walk_sharedRoots (hx.mem_walk (ownerOf_some howner).1)


private theorem sharedRoots_places {source : Super} {items : List (Item Bool)}
    (h : Makes .plain 256 (fun _ => false) sharedRoots false ['/', 't'] tmpFs 3 source items) :
    (mountList false ['/', 't'] source items).map Prod.fst = [(false, ['/', 't']), (true, ['/', 't'])] := by
  cases h with
  | alone halone => exact absurd (halone (sharedRoot false) rfl) (by decide)
  | @shared owner plan howner hgroup hplan herr =>
    obtain rfl : owner = sharedRoot false := receives_sharedRoots owner howner false owner .owner
    have hplaces : (mountPlan .plain 256 (fun _ => false) sharedRoots ['/', 't'] (sharedRoot false) tmpFs 3).map
        (fun p => p.items.map Item.place) = some [(true, ['/', 't'])] := by decide +kernel
    rw [hplan] at hplaces
    rw [mountList, map_cons, map_map]
    exact congrArg _ (Option.some.inj hplaces)

def bindInfo (id : Nat) : Info := { id := id, fstype := ['t', 'm', 'p', 'f', 's'], peerGroup := 1 }

/-- A shared mount at `/a/s`, and a bind of it at `/a`. -/
def boundTree : Super :=
  ((vfsMount .plain true (sget { id := 1, fstype := ['e', 'x', 't', '4'], point := ['/'] }) ['/', 'a', '/', 's']
    (sget (bindInfo 2))).bind fun r => vfsMount .plain true r.2 ['/', 'a'] (sget (bindInfo 3))).elim .null Prod.snd

def boundSpaces : Spaces Unit := ⟨fun _ => boundTree, [()], 1, 10⟩

end Mos.Vfs
