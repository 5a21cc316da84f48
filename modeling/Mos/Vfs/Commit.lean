import Mos.Vfs.Plan
import Mos.Vfs.Remount

/-!
# Making the planned mounts

The mounts of a plan are made one after another (`Made`).  Each of them appears at its place, and is seen there as
long as no later one is made on its way (`Unhidden`).  Undone in reverse order, they leave the namespaces as they
were.
-/

namespace Mos.Vfs

open Lib Function List View Spaces Option

variable {v next v' : View}

theorem View.Wf.resolve_nil (h : v.Wf) : v.resolve [] = (v.id, []) := by
  cases v with
  | null => exact absurd rfl h.ne_null
  | mk info keys sub covered =>
    have hnil : ∀ k ∈ keys, ¬Covers k [] := by
      intro k hk hc
      have hslash := h.slash hk
      rw [length_eq_zero_iff.1 (Nat.le_zero.1 hc.length_le)] at hslash
      cases hslash
    rw [resolve, owner_here (best_eq_none.2 hnil), id]

theorem id_view (sb : Super) : sb.view.id = sb.id := by
  cases sb with
  | null => rw [view_null, View.id, Super.id]
  | mk => rw [view_mk, View.id, Super.id]

section

variable {R : Type} [DecidableEq R] {M : Mem} {s s' : Spaces R} {r : R} {p : Str} {n : Super} {e : Int}
  {l : List ((R × Str) × View)}

def Spaces.view (s : Spaces R) (r : R) : View := (s.tree r).view

def Spaces.TreesOk (s : Spaces R) : Prop := ∀ r, (s.tree r).Ok

def Spaces.SameRest (s s' : Spaces R) : Prop := s'.roots = s.roots ∧ s'.nextPeer = s.nextPeer ∧ s'.nextId = s.nextId

omit [DecidableEq R] in
theorem Spaces.SameRest.trans {s'' : Spaces R} (h : s.SameRest s') (h' : s'.SameRest s'') : s.SameRest s'' :=
  ⟨h'.1.trans h.1, h'.2.1.trans h.2.1, h'.2.2.trans h.2.2⟩

omit [DecidableEq R] in
theorem Spaces.TreesOk.answer_eq (hs : s.TreesOk) (hs' : s'.TreesOk) (h : s'.view = s.view) (r : R) (q : Str) :
    answer (s'.tree r) q = answer (s.tree r) q := by
  rw [(hs' r).answer_eq, (hs r).answer_eq, ← view, h, view]

theorem Spaces.set_view (s : Spaces R) (r : R) (sb : Super) :
    (s.set r sb).view = update s.view r sb.view := by
  funext r'
  by_cases h : r' = r
  · subst h
    simp [view, set]
  · simp [view, set, h]

theorem Spaces.TreesOk.set (h : s.TreesOk) {sb : Super} (hsb : sb.Ok) (r : R) : (s.set r sb).TreesOk := by
  intro r'
  by_cases he : r' = r
  · subst he
    simpa [Spaces.set] using hsb
  · simpa [Spaces.set, he] using h r'

theorem mountIn_spec {compatible : Bool} (hs : s.TreesOk) (hn : n.Ok)
    (h : mountIn M compatible s r p n = some (e, s')) :
    s'.TreesOk ∧ s.SameRest s' ∧ (e = 0 ∧ (∃ v, MountsAt n.view (s.view r) p v ∧ s'.view = update s.view r v) ∨
      e ≠ 0 ∧ s'.view = s.view) := by
  unfold mountIn at h
  cases hm : vfsMount M compatible (s.tree r) p n with
  | none =>
    rw [hm] at h
    cases h
  | some x =>
    rw [hm] at h
    obtain ⟨rfl, rfl⟩ := Prod.mk.inj (some.inj h)
    obtain ⟨hok, hspec⟩ := vfsMount_spec (hs r) hn hm
    refine ⟨hs.set hok r, ⟨rfl, rfl, rfl⟩, hspec.imp (fun hz => ⟨hz.1, x.2.view, hz.2, s.set_view r x.2⟩) fun hz =>
      ⟨hz.1, ?_⟩⟩
    rw [s.set_view, hz.2]
    exact update_eq_self r s.view

theorem mountIn_isSome (compatible : Bool) (hs : s.TreesOk) (hn : n.Ok) (hshort : n.view.Short)
    (hroom : (s.view r).Room p) : ∃ x, mountIn M compatible s r p n = some x := by
  obtain ⟨x, hx, -⟩ := (vfsMount_refines M compatible (hs r) hn p).of_isSome
    (mount_isSome (hs r).view_wf hshort compatible hroom)
  exact ⟨_, by rw [mountIn, hx, map_some]⟩

private theorem umountIn_eq (hs : s.TreesOk) (hp : p.head? = some '/') (h : UnmountsAt (s.view r) p v) :
    ∃ s', umountIn M s r p = some (0, s') ∧ s'.TreesOk ∧ s.SameRest s' ∧ s'.view = update s.view r v := by
  have hr := vfsUmount_refines M (hs r) p
  rw [show (s.tree r).view.umount p = some (0, v) from h.umount_eq (hs r).view_wf hp] at hr
  obtain ⟨a, sb, hcall, rfl, hok, rfl⟩ := hr.exists_left
  exact ⟨s.set r sb, by rw [umountIn, hcall, map_some], hs.set hok r, ⟨rfl, rfl, rfl⟩, s.set_view r sb⟩

/-- Mounts at places of a list, one after another. -/
inductive Made : (R → View) → List ((R × Str) × View) → (R → View) → Prop
  | nil {V} : Made V [] V
  | cons {V W r p n v l} (h : View.MountsAt n (V r) p v) (hrest : Made (update V r v) l W) :
      Made V (((r, p), n) :: l) W

private theorem wf_update {V : R → View} (hV : ∀ r, (V r).Wf) (hv : v.Wf) (r : R) : ∀ r', (update V r v r').Wf := by
  intro r'
  by_cases he : r' = r
  · rw [he, update_self]
    exact hv
  · rw [update_of_ne he]
    exact hV r'

theorem View.MountsAt.resolve_eq {p : Str} (h : MountsAt next v p v') (hv : v.Wf) :
    v'.resolve p = next.resolve [] := by
  have hm := h.mounted hv
  have := hm.inside [] (Or.inl rfl) hm.passes
  rwa [append_nil] at this

/-- The second place is on the way to the first one, so that a mount made there hides it. -/
def Hides (V : R → View) (x y : R × Str) : Prop :=
  y.1 = x.1 ∧ ∃ t, Tail t ∧ x.2 = y.2 ++ t ∧ (V y.1).Passes y.2 t

/-- Mounts are made one after another, none of them on the way to the place of one before it. -/
inductive Unhidden : (R → View) → List (R × Str) → List ((R × Str) × View) → Prop
  | nil {V before} : Unhidden V before []
  | cons {V r p n v l before} (h : View.MountsAt n (V r) p v) (hway : ∀ x ∈ before, ¬Hides V x (r, p))
      (hrest : Unhidden (update V r v) ((r, p) :: before) l) : Unhidden V before (((r, p), n) :: l)

section

variable {V W : R → View} {x : R × Str} {before : List (R × Str)}

theorem View.MountsAt.update_owner (h : MountsAt next (V r) p v) (hV : (V r).Wf) (hx : ¬Hides V x (r, p)) :
    (update V r v x.1).owner x.2 = (V x.1).owner x.2 := by
  by_cases he : x.1 = r
  · subst he
    rw [update_self]
    exact (h.mounted hV).outside x.2 fun t ht htail hpass => hx ⟨rfl, t, htail, ht, hpass⟩
  · rw [update_of_ne he]

theorem View.MountsAt.update_resolve (h : MountsAt next (V r) p v) (hV : (V r).Wf) (hx : Hides V x (r, p)) :
    ∃ t, (update V r v x.1).resolve x.2 = next.resolve t := by
  obtain ⟨hr, t, htail, ht, hpass⟩ := hx
  refine ⟨t, ?_⟩
  rw [← show r = x.1 from hr, update_self, ht]
  exact (h.mounted hV).inside t htail hpass

theorem Unhidden.owner_eq (h : Unhidden V before l) (hm : Made V l W) (hV : ∀ r, (V r).Wf) (hl : ∀ y ∈ l, y.2.Wf)
    (hx : x ∈ before) : (W x.1).owner x.2 = (V x.1).owner x.2 := by
  induction h with
  | nil =>
    cases hm
    rfl
  | @cons V r p n v l before hat hway _ ih =>
    obtain ⟨hn, hl⟩ := forall_mem_cons.1 hl
    obtain _ | ⟨hat', hm⟩ := hm
    rw [hat'.unique hat] at hm
    rw [ih hm (wf_update hV (hat.wf hn (hV r)) r) hl (mem_cons_of_mem _ hx)]
    exact hat.update_owner (hV r) (hway x hx)

/-- Every mount is seen at its place. -/
theorem Unhidden.resolve_eq (h : Unhidden V before l) (hm : Made V l W) (hV : ∀ r, (V r).Wf)
    (hl : ∀ y ∈ l, y.2.Wf) : ∀ y ∈ l, (W y.1.1).resolve y.1.2 = y.2.resolve [] := by
  induction h with
  | nil => exact fun y hy => nomatch hy
  | @cons V r p n v l before hat hway hrest ih =>
    obtain ⟨hn, hl⟩ := forall_mem_cons.1 hl
    obtain _ | ⟨hat', hm⟩ := hm
    rw [hat'.unique hat] at hm
    have hV' := wf_update hV (hat.wf hn (hV r)) r
    refine forall_mem_cons.2 ⟨?_, ih hm hV' hl⟩
    have hown := hrest.owner_eq hm hV' hl (x := (r, p)) mem_cons_self
    rw [resolve, hown, update_self, ← resolve]
    exact hat.resolve_eq (hV r)

/-- No place is taken twice. -/
theorem Unhidden.nodup (h : Unhidden V before l) (hV : ∀ r, (V r).Wf) (hl : ∀ y ∈ l, y.2.Wf) :
    (l.map Prod.fst).Nodup ∧ ∀ y ∈ l, y.1 ∉ before := by
  induction h with
  | nil => exact ⟨nodup_nil, fun y hy => nomatch hy⟩
  | @cons V r p n v l before hat hway hrest ih =>
    obtain ⟨hn, hl⟩ := forall_mem_cons.1 hl
    obtain ⟨hnodup, hnew⟩ := ih (wf_update hV (hat.wf hn (hV r)) r) hl
    have hself : Hides V (r, p) (r, p) := ⟨rfl, [], .inl rfl, (append_nil p).symm, (hat.mounted (hV r)).passes⟩
    refine ⟨nodup_cons.2 ⟨fun hmem => ?_, hnodup⟩,
      forall_mem_cons.2 ⟨fun hmem => hway _ hmem hself, fun y hy hmem => ?_⟩⟩
    · obtain ⟨y, hy, he⟩ := mem_map.1 hmem
      exact hnew y hy (he ▸ mem_cons_self)
    · exact hnew y hy (mem_cons_of_mem _ hmem)

/-- If no place leads into a mount that is made later, none was hidden. -/
theorem Made.unhidden (h : Made V l W) (hV : ∀ r, (V r).Wf) (hl : ∀ y ∈ l, y.2.Wf)
    (hbefore : ∀ x ∈ before, ∀ y ∈ l, ∀ t, (W x.1).resolve x.2 ≠ y.2.resolve t)
    (hlater : l.Pairwise fun x y => ∀ t, (W x.1.1).resolve x.1.2 ≠ y.2.resolve t) : Unhidden V before l := by
  induction h generalizing before with
  | nil => exact .nil
  | @cons V W r p n v l hat hm ih =>
    obtain ⟨hn, hl⟩ := forall_mem_cons.1 hl
    obtain ⟨hfirst, hrest⟩ := pairwise_cons.1 hlater
    have hV' := wf_update hV (hat.wf hn (hV r)) r
    have hun : Unhidden (update V r v) ((r, p) :: before) l :=
      ih hV' hl (forall_mem_cons.2 ⟨hfirst, fun x hx y hy => hbefore x hx y (mem_cons_of_mem _ hy)⟩) hrest
    refine .cons hat (fun x hx hhides => ?_) hun
    obtain ⟨t, ht⟩ := hat.update_resolve (hV r) hhides
    refine hbefore x hx _ mem_cons_self t ?_
    rw [resolve, hun.owner_eq hm hV' hl (mem_cons_of_mem _ hx), ← resolve, ht]

/-- Places of which no later one covers an earlier one hide nothing. -/
theorem Made.unhidden_of_apart (h : Made V l W) (hbefore : ∀ x ∈ before, ∀ y ∈ l, x.1 = y.1.1 → ¬Covers y.1.2 x.2)
    (hapart : l.Pairwise fun x y => x.1.1 = y.1.1 → ¬Covers y.1.2 x.1.2) : Unhidden V before l := by
  induction h generalizing before with
  | nil => exact .nil
  | cons hat _ ih =>
    obtain ⟨hfirst, hrest⟩ := pairwise_cons.1 hapart
    refine .cons hat (fun x hx ⟨hr, t, htail, ht, _⟩ => hbefore x hx _ mem_cons_self hr.symm ⟨t, ht, htail⟩)
      (ih ?_ hrest)
    exact forall_mem_cons.2 ⟨hfirst, fun x hx y hy => hbefore x hx y (mem_cons_of_mem _ hy)⟩

end

private theorem undo_append (a b : List (R × Str)) (s : Spaces R) :
    undo M (a ++ b) s = (undo M a s).bind (undo M b) := by
  induction a generalizing s with
  | nil => rfl
  | cons x a ih =>
    rw [cons_append, undo, undo]
    cases umountIn M s x.1 x.2 with
    | none => rfl
    | some y => exact ih y.2

/-- Undone in reverse order, mounts that cover nothing of their own leave the views as they were. -/
theorem Made.undo_eq {V W : R → View} (h : Made V l W) (hV : ∀ r, (V r).Wf)
    (hl : ∀ x ∈ l, x.2.Wf ∧ x.2.covered = .null) {s : Spaces R} (hs : s.TreesOk) (hview : s.view = W) :
    ∃ s', undo M (l.map Prod.fst).reverse s = some s' ∧ s'.TreesOk ∧ s.SameRest s' ∧ s'.view = V := by
  induction h generalizing s with
  | nil => exact ⟨s, rfl, hs, ⟨rfl, rfl, rfl⟩, hview⟩
  | @cons V W r p n v l hat _ ih =>
    obtain ⟨hn, hcov⟩ := hl _ mem_cons_self
    obtain ⟨t, hundo, ht, hsame, htview⟩ := ih (wf_update hV (hat.wf hn (hV r)) r)
      (fun x hx => hl x (mem_cons_of_mem _ hx)) hs hview
    have hback := (hat.undo (hV r) hn.ne_null).1 (Or.inl hcov)
    have htr : t.view r = v := by rw [htview, update_self]
    rw [← htr] at hback
    obtain ⟨s', hu, hs', hsame', hview'⟩ := umountIn_eq ht (hat.head_eq (hV r)) hback
    refine ⟨s', ?_, hs', hsame.trans hsame', ?_⟩
    · rw [map_cons, reverse_cons, undo_append, hundo]
      show (umountIn M t r p).bind _ = _
      rw [hu]
      rfl
    · rw [hview', htview, update_idem, update_eq_self]

/-- The place of an item, and what is mounted there. -/
def Item.mounted (item : Item R) : (R × Str) × View := (item.place, item.mount.view)

theorem commit_spec {compatible : Item R → Bool} {items done done' : List (Item R)} (hs : s.TreesOk)
    (hitems : ∀ item ∈ items, item.mount.Ok) (h : commit M compatible items done s = some (e, done', s')) :
    s'.TreesOk ∧ s.SameRest s' ∧ ∃ l rest, items = l ++ rest ∧ done' = l.reverse ++ done ∧
      Made s.view (l.map Item.mounted) s'.view ∧ (e = 0 → rest = []) := by
  induction items generalizing s done with
  | nil =>
    rw [commit] at h
    cases h
    exact ⟨hs, ⟨rfl, rfl, rfl⟩, [], [], rfl, rfl, .nil, fun _ => rfl⟩
  | cons item items ih =>
    rw [commit] at h
    cases hm : mountIn M (compatible item) s item.root item.path item.mount with
    | none =>
      rw [hm] at h
      cases h
    | some x =>
      rw [hm, bind_some] at h
      obtain ⟨hok, hsame, hspec⟩ := mountIn_spec hs (hitems item mem_cons_self) (show _ = some (x.1, x.2) from hm)
      rcases hspec with ⟨hz, v, hat, hview⟩ | ⟨hne, hview⟩
      · rw [if_pos hz] at h
        obtain ⟨hok', hsame', l, rest, rfl, hdone, hmade, hall⟩ := ih hok
          (fun i hi => hitems i (mem_cons_of_mem item hi)) h
        refine ⟨hok', hsame.trans hsame', item :: l, rest, rfl, ?_, .cons hat (hview ▸ hmade), hall⟩
        rw [hdone, reverse_cons, append_assoc]
        rfl
      · rw [if_neg hne] at h
        obtain ⟨rfl, hrest⟩ := Prod.mk.inj (some.inj h)
        obtain ⟨rfl, rfl⟩ := Prod.mk.inj hrest
        refine ⟨hok, hsame, [], item :: items, rfl, rfl, ?_, fun hz => absurd hz hne⟩
        rw [hview]
        exact .nil

/-- The mount points of the mounts of a list fit their buffers, each at its time. -/
def Roomy (V : R → View) (l : List ((R × Str) × View)) : Prop :=
  ∀ l₁ y l₂ U, l = l₁ ++ y :: l₂ → Made V l₁ U → (U y.1.1).Room y.1.2

theorem Roomy.tail {V : R → View} (h : Roomy V (((r, p), next) :: l)) (hat : View.MountsAt next (V r) p v) :
    Roomy (update V r v) l := by
  intro l₁ y l₂ U he hmade
  exact h (((r, p), next) :: l₁) y l₂ U (by rw [he]; rfl) (.cons hat hmade)

/-- All mounts of a plan are defined, if there is room for them. -/
theorem commit_isSome (compatible : Item R → Bool) {items : List (Item R)} (done : List (Item R)) (hs : s.TreesOk)
    (hitems : ∀ item ∈ items, item.mount.Ok ∧ item.mount.view.Short) (hroom : Roomy s.view (items.map Item.mounted)) :
    ∃ x, commit M compatible items done s = some x := by
  induction items generalizing s done with
  | nil => exact ⟨_, rfl⟩
  | cons item items ih =>
    obtain ⟨⟨hok, hshort⟩, hitems⟩ := forall_mem_cons.1 hitems
    have hfit : (s.view item.root).Room item.path := hroom [] _ _ _ rfl .nil
    obtain ⟨x, hx⟩ := mountIn_isSome (compatible item) hs hok hshort hfit
    obtain ⟨hok', -, hspec⟩ := mountIn_spec hs hok (show _ = some (x.1, x.2) from hx)
    rw [commit, hx, bind_some]
    by_cases hz : x.1 = 0
    · rw [if_pos hz]
      obtain ⟨v, hat, hview⟩ := (hspec.resolve_right fun h0 => h0.1 hz).2
      refine ih (item :: done) hok' hitems ?_
      rw [hview]
      exact hroom.tail hat
    · rw [if_neg hz]
      exact ⟨_, rfl⟩

end

end Mos.Vfs
