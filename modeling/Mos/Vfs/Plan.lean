import Mos.Vfs.Clone
import Mos.Vfs.Owner

/-!
# The plan of a propagated mount

A receiver is a mount that is reached from the owner of the target by steps to a mount of the same peer group or a
slave of the group (`Receives`).  Planning ends, plans every namespace and path at most once and only for receivers;
without an error it plans for all of them, if no two of them have the same path.
-/

namespace Mos.Vfs

open Lib List Item

variable {parent group : Nat} {target : Str} {mount : Super} {x : Info}

section

variable {R : Type} [DecidableEq R] {M : Mem} {maxPath : Nat} {oom : Nat → Bool} {s : Spaces R} {suffix : Str}
    {src : Source} {plan : Plan R} {b : R × Info} {P : Plan R → Prop} {fuel : Nat}

/-- The mounts that a collection looks for: peers and slaves of the group, but the one it starts from. -/
def wanted (parent group : Nat) (b : R × Info) : Bool :=
  b.2.id ≠ parent && (b.2.peerGroup = group || b.2.masterGroup = group)

omit [DecidableEq R] in
private theorem wanted_iff : wanted parent group b = true ↔
    b.2.id ≠ parent ∧ (b.2.peerGroup = group ∨ b.2.masterGroup = group) := by
  simp [wanted]

/-- The namespace and the path of an item for a mount. -/
def place (suffix : Str) (b : R × Info) : R × Str := (b.1, itemPath suffix b.2)

def Item.receiver (item : Item R) : R × Info := (item.root, item.parent)

/-- What `plan_receiver` can do: nothing but to note an error, or to add an item with a clone. -/
theorem planReceiver_cases (M : Mem) (maxPath : Nat) (oom : Nat → Bool) (suffix : Str) (src : Source) (plan : Plan R)
    (b : R × Info) :
    let p := planReceiver M maxPath oom suffix src plan b
    let clone := cloneMountTree M src.mount plan.nextId
    let groups := receiverGroups src b.2 plan clone.1
    (p.items = plan.items ∧ p.nextId = plan.nextId ∧ p.nextPeer = plan.nextPeer ∧ (p.error = 0 → plan.error = 0 ∧
        (wanted src.parent src.group b = true → place suffix b ∈ plan.items.map Item.place))) ∨
    (plan.error = 0 ∧ p.error = 0 ∧ wanted src.parent src.group b = true ∧
      place suffix b ∉ plan.items.map Item.place ∧
      p.items = plan.items ++ [⟨b.1, b.2, itemPath suffix b.2, clone.1.setGroups groups.1 groups.2.1⟩] ∧
      p.nextId = clone.2 ∧ p.nextPeer = groups.2.2 ∧ (receiverPath suffix b.2).length < maxPath) := by
  unfold planReceiver
  by_cases hskip : plan.error ≠ 0 ∨ b.2.id = src.parent ∨ b.2.peerGroup ≠ src.group ∧ b.2.masterGroup ≠ src.group
  · rw [if_pos hskip]
    refine .inl ⟨rfl, rfl, rfl, fun herr => ⟨herr, fun hw => ?_⟩⟩
    rw [wanted_iff] at hw
    tauto
  rw [if_neg hskip]
  have herr : plan.error = 0 := by tauto
  have hw : wanted src.parent src.group b = true := by
    rw [wanted_iff]
    tauto
  by_cases h1 : oom plan.allocs = true
  · rw [if_pos h1]
    exact .inl ⟨rfl, rfl, rfl, fun he => absurd he (show ¬enomem = 0 by decide)⟩
  rw [if_neg h1]
  by_cases h2 : (receiverPath suffix b.2).length ≥ maxPath
  · rw [if_pos h2]
    exact .inl ⟨rfl, rfl, rfl, fun he => absurd he (show ¬enametoolong = 0 by decide)⟩
  rw [if_neg h2]
  by_cases h3 : place suffix b ∈ plan.items.map Item.place
  · simp only [if_pos (show (b.1, itemPath suffix b.2) ∈ plan.items.map Item.place from h3)]
    exact .inl ⟨trivial, trivial, trivial, fun _ => ⟨herr, fun _ => h3⟩⟩
  simp only [if_neg (show ¬(b.1, itemPath suffix b.2) ∈ plan.items.map Item.place from h3)]
  by_cases h4 : oom (plan.allocs + 1) = true
  · simp only [if_pos h4]
    exact .inl ⟨trivial, trivial, trivial, fun he => absurd he (show ¬enomem = 0 by decide)⟩
  · simp only [if_neg h4]
    exact .inr ⟨herr, herr, hw, h3, trivial, trivial, trivial, Nat.lt_of_not_le h2⟩

/-- Every item stands for a mount, and no two for the same place. -/
structure Plan.Counted (s : Spaces R) (suffix : Str) (plan : Plan R) : Prop where
  nodup : (plan.items.map Item.place).Nodup
  mem : ∀ item ∈ plan.items, item.receiver ∈ s.mounts ∧ item.place = place suffix item.receiver

theorem Plan.Counted.planReceiver (h : plan.Counted s suffix) (hb : b ∈ s.mounts) :
    (planReceiver M maxPath oom suffix src plan b).Counted s suffix := by
  rcases planReceiver_cases M maxPath oom suffix src plan b with ⟨hitems, -⟩ | ⟨-, -, -, hno, hitems, -⟩
  · exact ⟨hitems ▸ h.nodup, hitems ▸ h.mem⟩
  constructor
  · rw [hitems, map_append, map_singleton]
    refine nodup_append.2 ⟨h.nodup, nodup_singleton _, fun k hk k' hk' he => ?_⟩
    rw [mem_singleton] at hk'
    subst he hk'
    exact hno hk
  · rw [hitems]
    exact forall_mem_append.2 ⟨h.mem, forall_mem_singleton.2 ⟨hb, rfl⟩⟩

private theorem collectReceivers_rule
    (hstep : ∀ plan b, b ∈ s.mounts → P plan → P (planReceiver M maxPath oom suffix src plan b)) (hP : P plan) :
    P (collectReceivers M maxPath oom s suffix src plan) :=
  foldlRecOn s.mounts _ hP fun plan' h b hb => hstep plan' b hb h

theorem Plan.Counted.planItem (h : plan.Counted s suffix) (group : Nat) (item : Item R) :
    (planItem M maxPath oom s suffix group item plan).Counted s suffix := by
  unfold Vfs.planItem
  split_ifs
  · exact h
  · exact collectReceivers_rule (fun plan b hb hplan => hplan.planReceiver hb) h

omit [DecidableEq R] in
theorem Plan.Counted.length_le (h : plan.Counted s suffix) : plan.items.length ≤ s.mounts.length := by
  have hle := length_le_of_nodup (place suffix) s.mounts h.nodup fun k hk => by
    obtain ⟨item, hitem, rfl⟩ := mem_map.1 hk
    exact ⟨item.receiver, (h.mem item hitem).1, (h.mem item hitem).2.symm⟩
  rwa [length_map] at hle

/-- Planning ends: there are not more items than mounts. -/
theorem mountPlan_terminates (M : Mem) (maxPath : Nat) (oom : Nat → Bool) (s : Spaces R) (target : Str) (owner : Info)
    (mount : Super) (hfuel : s.mounts.length < fuel) :
    ∃ plan, mountPlan M maxPath oom s target owner mount fuel = some plan := by
  refine scan_terminates (Plan.Counted s (targetSuffix owner target)) s.mounts.length
    (fun plan item hplan _ => hplan.planItem _ item) (fun plan hplan => hplan.length_le) ?_ (by omega) (by omega)
  exact collectReceivers_rule (fun plan b hb hplan => hplan.planReceiver hb)
    ⟨nodup_nil, fun item hitem => nomatch hitem⟩

/-! ### The receivers of a plan -/

omit [DecidableEq R] in
theorem Plan.Counted.places (h : plan.Counted s suffix) :
    plan.items.map Item.place = (plan.items.map Item.receiver).map (place suffix) := by
  rw [map_map]
  exact map_congr_left fun item hitem => (h.mem item hitem).2

private theorem planReceiver_offer (h : plan.Counted s suffix)
    (herr : (planReceiver M maxPath oom suffix src plan b).error = 0) :
    plan.error = 0 ∧ (planReceiver M maxPath oom suffix src plan b).items.map receiver =
      offer (place suffix) (wanted src.parent src.group) (plan.items.map receiver) b := by
  unfold offer
  rw [← h.places]
  rcases planReceiver_cases M maxPath oom suffix src plan b with ⟨hitems, -, -, hsame⟩ | ⟨herr0, -, hw, hno, hitems,
    -⟩
  · obtain ⟨herr0, hin⟩ := hsame herr
    rw [if_neg fun hc => hc.2 (hin hc.1), hitems]
    exact ⟨herr0, rfl⟩
  · rw [if_pos ⟨hw, hno⟩, hitems, map_append]
    exact ⟨herr0, rfl⟩

private theorem foldl_planReceiver_gather {l : List (R × Info)} (hl : ∀ b ∈ l, b ∈ s.mounts)
    (h : plan.Counted s suffix) (herr : (l.foldl (planReceiver M maxPath oom suffix src) plan).error = 0) :
    plan.error = 0 ∧ (l.foldl (planReceiver M maxPath oom suffix src) plan).items.map receiver =
      gather (place suffix) (wanted src.parent src.group) l (plan.items.map receiver) := by
  induction l generalizing plan with
  | nil => exact ⟨herr, rfl⟩
  | cons a l ih =>
    rw [foldl_cons] at herr ⊢
    obtain ⟨herr', hrest⟩ := ih (fun b hb => hl b (mem_cons_of_mem a hb)) (h.planReceiver (hl a mem_cons_self)) herr
    obtain ⟨herr0, hfirst⟩ := planReceiver_offer h herr'
    refine ⟨herr0, ?_⟩
    rw [hrest, hfirst]
    rfl

/-- A receiver in another shared group passes the mount on to those that the group wants. -/
def passOn (mounts : List (R × Info)) (suffix : Str) (group : Nat) (a : R × Info) (l : List (R × Info)) :
    List (R × Info) :=
  if a.2.peerGroup = 0 ∨ a.2.peerGroup = group then l
  else gather (place suffix) (wanted a.2.id a.2.peerGroup) mounts l

/-- The receivers that are planned, if nothing fails. -/
def receiversOf (mounts : List (R × Info)) (suffix : Str) (owner : Info) (fuel : Nat) : Option (List (R × Info)) :=
  scan (fun l => l) (fun _ => false) (passOn mounts suffix owner.peerGroup) fuel 0
    (gather (place suffix) (wanted owner.id owner.peerGroup) mounts [])

theorem mountPlan_receivers {owner : Info}
    (h : mountPlan M maxPath oom s target owner mount fuel = some plan) (herr : plan.error = 0) :
    receiversOf s.mounts (targetSuffix owner target) owner fuel = some (plan.items.map receiver) := by
  have hempty : ∀ n m, Plan.Counted s (targetSuffix owner target) ⟨[], 0, n, m, 0⟩ := fun n m =>
    ⟨nodup_nil, fun item hitem => nomatch hitem⟩
  have hmap := scan_map (fun l => l) (passOn s.mounts (targetSuffix owner target) owner.peerGroup)
    (fun plan : Plan R => plan.items.map receiver) receiver (Plan.Counted s (targetSuffix owner target))
      (fun _ => rfl)
    (fun plan item hplan _ => hplan.planItem _ item) (fun plan item hplan _ hstop => ?_)
    (collectReceivers_rule (fun plan b hb hplan => hplan.planReceiver hb) (hempty _ _)) h (by simpa using herr)
  · obtain ⟨hstop, hscan⟩ := hmap
    have hstart := foldl_planReceiver_gather (fun b hb => hb) (hempty _ _) (of_decide_eq_false hstop |> not_not.1)
    rw [collectReceivers, hstart.2] at hscan
    exact hscan
  · unfold planItem passOn at *
    by_cases hc : item.parent.peerGroup = 0 ∨ item.parent.peerGroup = owner.peerGroup
    · rw [if_pos hc] at hstop ⊢
      rw [if_pos (show item.receiver.2.peerGroup = 0 ∨ item.receiver.2.peerGroup = owner.peerGroup from hc)]
      exact ⟨hstop, rfl⟩
    · rw [if_neg hc] at hstop ⊢
      rw [if_neg (show ¬(item.receiver.2.peerGroup = 0 ∨ item.receiver.2.peerGroup = owner.peerGroup) from hc)]
      obtain ⟨herr0, hgather⟩ := foldl_planReceiver_gather (fun b hb => hb) hplan
        (of_decide_eq_false hstop |> not_not.1)
      exact ⟨by simpa using herr0, hgather⟩

/-- The mounts that are reached from the owner by steps to a peer or a slave of the group. -/
inductive Receives (s : Spaces R) (root : R) (owner : Info) : R → Info → Prop
  | owner : Receives s root owner root owner
  | step {r r' : R} {x y : Info} (h : Receives s root owner r x) (hx : x.peerGroup ≠ 0) (hy : (r', y) ∈ s.mounts)
      (hgroup : y.peerGroup = x.peerGroup ∨ y.masterGroup = x.peerGroup) : Receives s root owner r' y

variable {root : R} {owner : Info} {fuel : Nat} {l : List (R × Info)} {mounts : List (R × Info)} {a : R × Info}
  {r : R}

/-- What a receiver wants is planned. -/
def Served (mounts : List (R × Info)) (suffix : Str) (parent group : Nat) (l : List (R × Info)) : Prop :=
  ∀ b ∈ mounts, wanted parent group b = true → place suffix b ∈ l.map (place suffix)

omit [DecidableEq R] in
theorem Served.mono {mounts l' : List (R × Info)} (h : Served mounts suffix parent group l)
    (hsub : l <+: l') : Served mounts suffix parent group l' :=
  fun b hb hw => map_subset _ hsub.subset (h b hb hw)

/-- The first receivers that pass the mount on are served. -/
def ServedTo (mounts : List (R × Info)) (suffix : Str) (group i : Nat) (l : List (R × Info)) : Prop :=
  ∀ j < i, ∀ a, l[j]? = some a → a.2.peerGroup ≠ 0 → a.2.peerGroup ≠ group →
    Served mounts suffix a.2.id a.2.peerGroup l

theorem ServedTo.passOn {i : Nat} (h : ServedTo mounts suffix group i l)
    (ha : l[i]? = some a) : ServedTo mounts suffix group (i + 1) (passOn mounts suffix group a l) := by
  have hi : i < l.length := (List.getElem?_eq_some_iff.1 ha).1
  intro j hj a' ha' h0 h1
  unfold Vfs.passOn at ha' ⊢
  by_cases hc : a.2.peerGroup = 0 ∨ a.2.peerGroup = group
  · rw [if_pos hc] at ha' ⊢
    by_cases hji : j = i
    · rw [hji, ha] at ha'
      cases ha'
      exact absurd hc (by tauto)
    · exact h j (by omega) a' ha' h0 h1
  rw [if_neg hc] at ha' ⊢
  have hpre : l <+: gather (place suffix) (wanted a.2.id a.2.peerGroup) mounts l := prefix_gather
  obtain ⟨t, ht⟩ := id hpre
  rw [← ht, List.getElem?_append_left (by omega)] at ha'
  by_cases hji : j = i
  · -- the one that is visited
    rw [hji, ha] at ha'
    cases ha'
    exact fun b hb hw => key_mem_gather hb hw
  · exact (h j (by omega) a' ha' h0 h1).mono hpre

private theorem receiversOf_closed (h : receiversOf mounts suffix owner fuel = some l) :
    Served mounts suffix owner.id owner.peerGroup l ∧
    ∀ a ∈ l, a.2.peerGroup ≠ 0 → a.2.peerGroup ≠ owner.peerGroup → Served mounts suffix a.2.id a.2.peerGroup l := by
  have hstep : ∀ i l a, Served mounts suffix owner.id owner.peerGroup l ∧ ServedTo mounts suffix owner.peerGroup i l →
      l[i]? = some a → Served mounts suffix owner.id owner.peerGroup (passOn mounts suffix owner.peerGroup a l) ∧
        ServedTo mounts suffix owner.peerGroup (i + 1) (passOn mounts suffix owner.peerGroup a l) := by
    intro i l a hP ha
    refine ⟨hP.1.mono ?_, hP.2.passOn ha⟩
    unfold passOn
    split_ifs
    · exact prefix_rfl
    · exact prefix_gather
  obtain ⟨j, ⟨hfirst, hrest⟩, hend⟩ := scan_rule _ (fun i l a hP ha _ => hstep i l a hP ha)
    ⟨fun b hb hw => key_mem_gather hb hw, fun j hj => absurd hj (Nat.not_lt_zero j)⟩ h
  refine ⟨hfirst, fun a ha => ?_⟩
  obtain ⟨i, hi⟩ := List.getElem?_of_mem ha
  have hlt : i < l.length := (List.getElem?_eq_some_iff.1 hi).1
  have hle : l.length ≤ j := by simpa using hend
  exact hrest i (by omega) a hi

/-- What holds of the mounts that a group wants, from the owner on, holds of all planned receivers. -/
theorem receiversOf_rule {Q : R × Info → Prop} (hfirst : ∀ b ∈ mounts, wanted owner.id owner.peerGroup b = true → Q b)
    (hstep : ∀ a, Q a → a.2.peerGroup ≠ 0 → a.2.peerGroup ≠ owner.peerGroup →
      ∀ b ∈ mounts, wanted a.2.id a.2.peerGroup b = true → Q b)
    (h : receiversOf mounts suffix owner fuel = some l) : ∀ a ∈ l, a ∈ mounts ∧ Q a := by
  have hstart : ∀ a ∈ gather (place suffix) (wanted owner.id owner.peerGroup) mounts [], a ∈ mounts ∧ Q a := by
    intro a ha
    rcases mem_gather ha with ha | ⟨ha, hw⟩
    · cases ha
    · exact ⟨ha, hfirst a ha hw⟩
  have hvisit : ∀ l a, (∀ a ∈ l, a ∈ mounts ∧ Q a) → a ∈ l →
      ∀ b ∈ passOn mounts suffix owner.peerGroup a l, b ∈ mounts ∧ Q b := by
    intro l a hP ha
    unfold passOn
    split_ifs with hc
    · exact hP
    · intro b hb
      rcases mem_gather hb with hb | ⟨hb, hw⟩
      · exact hP b hb
      · exact ⟨hb, hstep a (hP a ha).2 (fun h0 => hc (.inl h0)) (fun h1 => hc (.inr h1)) b hb hw⟩
  obtain ⟨-, hall, -⟩ := scan_rule (fun _ l => ∀ a ∈ l, a ∈ mounts ∧ Q a)
    (fun i l a hP ha _ => hvisit l a hP (mem_of_getElem? ha)) hstart h
  exact hall

/-! ### The items of a plan -/

omit [DecidableEq R] in
private theorem mem_mounts : (r, x) ∈ s.mounts ↔ r ∈ s.roots ∧ x ∈ walk (s.tree r) := by
  simp [Spaces.mounts]

/-- The rule for planning: what is kept with every receiver, for the source and for the clones that are passed on. -/
theorem mountPlan_rule {S : Source → Prop} (hstart : P ⟨[], 0, (sourceMount mount s.nextPeer).2, s.nextId, 0⟩)
    (hsource : S ⟨owner.id, (sourceMount mount s.nextPeer).1, owner.peerGroup,
    (sourceMount mount s.nextPeer).1.peerGroup⟩)
    (hitem : ∀ plan item, P plan → item ∈ plan.items → item.parent.peerGroup ≠ 0 →
      item.parent.peerGroup ≠ owner.peerGroup →
      S ⟨item.parent.id, item.mount, item.parent.peerGroup, item.mount.peerGroup⟩)
    (hstep : ∀ src plan b, S src → P plan → b ∈ s.mounts →
      P (planReceiver M maxPath oom (targetSuffix owner target) src plan b))
    (h : mountPlan M maxPath oom s target owner mount fuel = some plan) : P plan := by
  have hvisit : ∀ plan item, P plan → item ∈ plan.items →
      P (planItem M maxPath oom s (targetSuffix owner target) owner.peerGroup item plan) := by
    intro plan item hP hmem
    unfold planItem
    split_ifs with hc
    · exact hP
    · have hsrc := hitem plan item hP hmem (fun h0 => hc (.inl h0)) fun h1 => hc (.inr h1)
      exact collectReceivers_rule (fun plan' b hb hP' => hstep _ plan' b hsrc hP' hb) hP
  obtain ⟨-, hP, -⟩ := scan_rule (fun _ plan => P plan)
    (fun i plan item hP hmem _ => hvisit plan item hP (mem_of_getElem? hmem))
    (collectReceivers_rule (fun plan b hb hP => hstep _ plan b hsource hP hb) hstart) h
  exact hP

/-- Every item has a clone of the mount, at new addresses that are behind those of the clones before. -/
structure Plan.Cloned (mount : Super) (nextId : Nat) (plan : Plan R) : Prop where
  clone : ∀ item ∈ plan.items, item.mount.Ok ∧ item.mount.view.shape = mount.view.shape ∧
    ∀ q, nextId ≤ (item.mount.view.resolve q).1
  old : ∀ item ∈ plan.items, item.mount.id < plan.nextId
  later : plan.items.Pairwise fun i j => ∀ q, i.mount.id < (j.mount.view.resolve q).1
  next : nextId ≤ plan.nextId

theorem Plan.Cloned.planReceiver {nextId : Nat} (h : plan.Cloned mount nextId) (hsrc : src.mount.Ok)
    (hshape : src.mount.view.shape = mount.view.shape) :
    (planReceiver M maxPath oom suffix src plan b).Cloned mount nextId := by
  rcases planReceiver_cases M maxPath oom suffix src plan b with ⟨hitems, hid, -⟩ | ⟨-, -, -, -, hitems, hid, -⟩
  · exact ⟨hitems ▸ h.clone, hitems ▸ hid ▸ h.old, hitems ▸ h.later, hid ▸ h.next⟩
  obtain ⟨hok, hshape', hclone, hlt, hids⟩ := cloneMountTree_spec M hsrc plan.nextId
  have hnew : ∀ peer master q, plan.nextId ≤
      (((cloneMountTree M src.mount plan.nextId).1.setGroups peer master).view.resolve q).1 := by
    intro peer master q
    rw [view_setGroups, View.resolve_setGroups]
    exact hids q
  refine ⟨?_, ?_, ?_, hid ▸ h.next.trans (Nat.le_of_lt hlt)⟩
  · rw [hitems]
    refine forall_mem_append.2 ⟨h.clone, forall_mem_singleton.2 ⟨hok.setGroups _ _, ?_, fun q => ?_⟩⟩
    · rw [view_setGroups, View.shape_setGroups, hshape', hshape]
    · exact h.next.trans (hnew _ _ q)
  · rw [hitems, hid]
    refine forall_mem_append.2 ⟨fun item hitem => (h.old item hitem).trans hlt, forall_mem_singleton.2 ?_⟩
    rw [id_setGroups, hclone]
    exact hlt
  · rw [hitems]
    refine pairwise_append.2 ⟨h.later, pairwise_singleton _ _, fun i hi j hj q => ?_⟩
    rw [mem_singleton.1 hj]
    exact (h.old i hi).trans_le (hnew _ _ q)

theorem sourceMount_ok (h : mount.Ok) (nextPeer : Nat) :
    let r := sourceMount mount nextPeer
    r.1.Ok ∧ r.1.view.shape = mount.view.shape ∧ r.1.id = mount.id := by
  unfold sourceMount
  split_ifs
  · exact ⟨h.setGroups _ _, by rw [view_setGroups, View.shape_setGroups], id_setGroups _ _ _⟩
  · exact ⟨h, rfl, rfl⟩

theorem mountPlan_cloned (hmount : mount.Ok)
    (h : mountPlan M maxPath oom s target owner mount fuel = some plan) : plan.Cloned mount s.nextId := by
  obtain ⟨hok, hshape, -⟩ := sourceMount_ok hmount s.nextPeer
  refine mountPlan_rule (S := fun src => src.mount.Ok ∧ src.mount.view.shape = mount.view.shape)
    ⟨fun item hitem => (nomatch hitem), fun item hitem => (nomatch hitem), .nil, le_rfl⟩ ⟨hok,
      hshape⟩ (fun plan item hP hitem _ _ => ?_)
    (fun src plan b hsrc hP _ => hP.planReceiver hsrc.1 hsrc.2) h
  exact ⟨(hP.clone item hitem).1, (hP.clone item hitem).2.1⟩

theorem mountPlan_counted (h : mountPlan M maxPath oom s target owner mount fuel = some plan) :
    plan.Counted s (targetSuffix owner target) :=
  mountPlan_rule (S := fun _ => True) ⟨nodup_nil, fun _ hitem => nomatch hitem⟩ trivial
    (fun _ _ _ _ _ _ => trivial) (fun _ _ _ _ hP hb => hP.planReceiver hb) h

/-- The namespaces: sound trees, and addresses that tell superblocks apart. -/
structure Spaces.Ok (s : Spaces R) : Prop where
  tree_ok : ∀ r, (s.tree r).Ok
  ids : ∀ r r' x y, x ∈ walk (s.tree r) → y ∈ walk (s.tree r') → x.id = y.id → r = r' ∧ x = y
  fresh : ∀ r x, x ∈ walk (s.tree r) → x.id < s.nextId

omit [DecidableEq R] in
theorem Receives.mem_walk (howner : owner ∈ walk (s.tree root)) (h : Receives s root owner r x) :
    x ∈ walk (s.tree r) := by
  cases h with
  | owner => exact howner
  | step _ _ hy _ => exact (mem_mounts.1 hy).2

theorem receiversOf_sound (hgroup : owner.peerGroup ≠ 0) (h : receiversOf s.mounts suffix owner fuel = some l) :
    ∀ a ∈ l, a ∈ s.mounts ∧ Receives s root owner a.1 a.2 :=
  receiversOf_rule (fun _ hb hw => .step .owner hgroup hb (wanted_iff.1 hw).2)
    (fun _ ha h0 _ _ hb hw => .step ha h0 hb (wanted_iff.1 hw).2) h

/-- No two receivers in one namespace have the same place. -/
def Distinct (s : Spaces R) (root : R) (owner : Info) (suffix : Str) : Prop :=
  ∀ r x y, Receives s root owner r x → Receives s root owner r y → itemPath suffix x = itemPath suffix y → x = y

theorem receiversOf_complete (hs : s.Ok) (howner : owner ∈ walk (s.tree root)) (hgroup : owner.peerGroup ≠ 0)
    (hdistinct : Distinct s root owner suffix) (h : receiversOf s.mounts suffix owner fuel = some l)
    (hx : Receives s root owner r x) : (r, x) = (root, owner) ∨ (r, x) ∈ l := by
  obtain ⟨hfirst, hrest⟩ := receiversOf_closed h
  -- a receiver whose place is planned is planned itself
  have hself : ∀ {r x}, Receives s root owner r x → place suffix (r, x) ∈ l.map (place suffix) → (r, x) ∈ l := by
    intro r x hx hp
    obtain ⟨b, hb, he⟩ := mem_map.1 hp
    have hr : b.1 = r := congrArg Prod.fst he
    have hrec : Receives s root owner b.1 b.2 := (receiversOf_sound hgroup h b hb).2
    rw [hr] at hrec
    have hbx : b = (r, x) := Prod.ext hr (hdistinct r b.2 x hrec hx (congrArg Prod.snd he))
    rwa [hbx] at hb
  induction hx with
  | owner => exact .inl rfl
  | @step r r' x y hx h0 hy hg ih =>
    have hxw := hx.mem_walk howner
    have hyw := (mem_mounts.1 hy).2
    have hyr := Receives.step hx h0 hy hg
    -- a mount of the group of the owner
    have hown : y.peerGroup = owner.peerGroup ∨ y.masterGroup = owner.peerGroup → (r', y) = (root, owner) ∨
      (r', y) ∈ l := by
      intro hg
      by_cases hid : y.id = owner.id
      · obtain ⟨hr, he⟩ := hs.ids _ _ _ _ hyw howner hid
        exact .inl (Prod.ext hr he)
      · exact .inr (hself hyr (hfirst (r', y) hy (wanted_iff.2 ⟨hid, hg⟩)))
    rcases ih with he | hmem
    · obtain ⟨-, rfl⟩ := Prod.mk.inj he
      exact hown hg
    by_cases h1 : x.peerGroup = owner.peerGroup
    · rw [h1] at hg
      exact hown hg
    by_cases hid : y.id = x.id
    · obtain ⟨hr, he⟩ := hs.ids _ _ _ _ hyw hxw hid
      rw [hr, he]
      exact .inr hmem
    · exact .inr (hself hyr (hrest (r, x) hmem h0 h1 (r', y) hy (wanted_iff.2 ⟨hid, hg⟩)))

end

end Mos.Vfs
