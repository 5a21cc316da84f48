import Mos.Paging.Invariant

/-!
# Page faults are small steps

Each part of the page-fault code is a sequence of small steps of the page protocol.  A function that returns a page
leaves it behind as a loose page, or pinned if it returns a reference with it.
-/

namespace Mos.Paging

open Vm List State Config

variable {α : Type} {C : Config} {A : Allowed α} {s : State α} {pins loose : List Nat}

/-- What allocations leave alone. -/
structure Frame (s s' : State α) : Prop where
  ptes : s'.ptes = s.ptes
  mm : s'.mm = s.mm
  held : s'.held = s.held

theorem Frame.refl (s : State α) : Frame s s := ⟨rfl, rfl, rfl⟩

theorem Frame.trans {s₁ s₂ s3 : State α} (h : Frame s₁ s₂) (h' : Frame s₂ s3) : Frame s₁ s3 :=
  ⟨h'.ptes.trans h.ptes, h'.mm.trans h.mm, h'.held.trans h.held⟩

variable {s s' : State α} {β : Type} {f : Nat}

theorem Frame.pte (h : Frame s s') (a va : Nat) : s'.pte a va = s.pte a va := by
  rw [State.pte, State.pte, h.ptes]

theorem Frame.place (h : Frame s s') {e : Pte} {t : PageAttr} (hp : Place C s e t) : Place C s' e t :=
  ⟨(h.pte _ _).trans hp.absent, hp.aligned, by rw [attr, h.mm]; exact hp.attr, hp.direct⟩

private theorem frame_foldl {f : State α → β → State α} (hf : ∀ s x, Frame s (f s x)) (l : List β) (s : State α) :
    Frame s (l.foldl f s) :=
  foldlRecOn l f (Frame.refl s) fun s' h x _ => h.trans (hf s' x)

theorem reach_foldl {f : State α → β → State α} (pins loose : List Nat)
    (hf : ∀ s x, Reach C A ⟨s, pins, loose⟩ ⟨f s x, pins, loose⟩) (l : List β) (s : State α) :
    Reach C A ⟨s, pins, loose⟩ ⟨l.foldl f s, pins, loose⟩ :=
  foldlRecOn (motive := fun s' => Reach C A ⟨s, pins, loose⟩ ⟨s', pins, loose⟩) l f .refl
    fun s' h x _ => h.trans (hf s' x)

section

variable (s : State α)

private theorem evictOne_reach (k : Key) : Reach C A ⟨s, pins, loose⟩ ⟨s.evictOne k, pins, loose⟩ := by
  unfold evictOne
  cases hk : s.pageCache.lookup k with
  | none => exact .refl
  | some p =>
    by_cases hp : s.pool.count p = 1
    · simp only [if_pos hp]
      exact .single (.evict hk (.inl hp))
    · simp only [if_neg hp]
      exact .refl

private theorem evictOne_frame (k : Key) : Frame s (s.evictOne k) := by
  unfold evictOne
  split
  · exact Frame.refl s
  · split_ifs <;> exact ⟨rfl, rfl, rfl⟩

theorem releaseOther_reach (p : Nat) : Reach C A ⟨s, pins, loose⟩ ⟨s.releaseOther p, pins, loose⟩ := by
  unfold releaseOther
  by_cases hp : p ∈ s.other
  · rw [if_pos hp]
    exact .single (.unkeep hp)
  · rw [if_neg hp]

private theorem releaseOther_frame (p : Nat) : Frame s (s.releaseOther p) := by
  unfold releaseOther
  split_ifs <;> exact ⟨rfl, rfl, rfl⟩

end

theorem alloc_steps (pins loose : List Nat) (s : State α) (g : Grant) :
    Reach C A ⟨s, pins, loose⟩ ⟨(s.alloc g).1, pins, (s.alloc g).2.toList ++ loose⟩ ∧ Frame s (s.alloc g).1 := by
  have hreach : Reach C A ⟨s, pins, loose⟩
      ⟨g.released.foldl releaseOther (g.reclaimed.foldl evictOne s), pins, loose⟩ :=
    (reach_foldl _ _ evictOne_reach _ s).trans (reach_foldl _ _ releaseOther_reach _ _)
  have hframe : Frame s (g.released.foldl releaseOther (g.reclaimed.foldl evictOne s)) :=
    (frame_foldl evictOne_frame _ s).trans (frame_foldl releaseOther_frame _ _)
  unfold alloc
  cases g.page with
  | none => exact ⟨hreach, hframe⟩
  | some p =>
    dsimp only
    split_ifs with hf
    · exact ⟨hreach.tail (.take hf), { hframe with }⟩
    · exact ⟨hreach, hframe⟩

private theorem loadPage_steps (pins loose : List Nat) (s : State α) (o : Choices α) :
    Reach C A ⟨s, pins, loose⟩ ⟨(s.loadPage o).1, pins, (s.loadPage o).2.toList ++ loose⟩ ∧
      Frame s (s.loadPage o).1 := by
  obtain ⟨hr, hf⟩ := alloc_steps pins loose s o.load
  unfold loadPage
  rcases hx : s.alloc o.load with ⟨s1, _ | p⟩ <;> rw [hx] at hr hf
  · exact ⟨hr, hf⟩
  · split_ifs
    · exact ⟨hr.tail .fill, { hf with }⟩
    · exact ⟨hr.tail .give, { hf with }⟩

private theorem mem_shared_of_cached {k : Key} {p : Nat} (h : s.pageCache.lookup k = some p) : p ∈ s.shared :=
  mem_append_left _ (mem_map_of_mem (lookup_mem h))

section

variable (pins loose : List Nat) (s : State α)

theorem fsPageCacheGet_steps (k : Key) (o : Choices α) :
    let r := s.fsPageCacheGet k o
    Frame s r.1 ∧ match r.2 with
    | none => Reach C A ⟨s, pins, loose⟩ ⟨r.1, pins, loose⟩
    | some (p, _) => Reach C A ⟨s, pins, loose⟩ ⟨r.1, p :: pins, loose⟩ ∧ r.1.pageCache.lookup k = some p := by
  unfold fsPageCacheGet
  cases hk : s.pageCache.lookup k with
  | some p => exact ⟨⟨rfl, rfl, rfl⟩, .single (.pin (.inl (mem_shared_of_cached hk))), hk⟩
  | none =>
    have htrim := reach_foldl (C := C) (A := A) pins loose evictOne_reach o.trim s
    have hframe := frame_foldl evictOne_frame o.trim s
    obtain ⟨hr, hf⟩ := loadPage_steps pins loose (o.trim.foldl evictOne s) o
    replace hr := htrim.trans hr
    replace hf := hframe.trans hf
    rcases hx : (o.trim.foldl evictOne s).loadPage o with ⟨s1, _ | p⟩ <;> rw [hx] at hr hf
    · exact ⟨hf, hr⟩
    dsimp only
    cases hk1 : s1.pageCache.lookup k with
    | some q =>
      -- the page has been cached in the meantime
      refine ⟨{ hf with }, ?_, hk1⟩
      exact (hr.tail (.pin (.inl (mem_shared_of_cached hk1)))).tail .give
    | none =>
      split_ifs
      · refine ⟨{ hf with }, ?_, lookup_cons_self⟩
        exact (hr.tail (.insert hk1)).tail (.pin (.inl (mem_shared_of_cached lookup_cons_self)))
      · exact ⟨{ hf with }, hr.tail .give⟩

/-- A private copy of a page that is pinned meanwhile; a source without another reference is freed. -/
theorem copy_steps {source : Nat} {l : List Nat} (hpin : Micro C A ⟨s, pins, l⟩ ⟨s.get source, source :: pins, loose⟩)
    (o : Choices α) :
    let r := pfCopyPrivatePage s source o
    Reach C A ⟨s, pins, l⟩ ⟨r.1, pins, r.2.toList ++ loose⟩ ∧ Frame s r.1 := by
  obtain ⟨hr, hf⟩ := alloc_steps (source :: pins) loose (s.get source) o.copy
  replace hr := Relation.ReflTransGen.head hpin hr
  unfold pfCopyPrivatePage
  rcases hx : (s.get source).alloc o.copy with ⟨s1, _ | p⟩ <;> rw [hx] at hr hf
  · exact ⟨hr.tail .unpin, { hf with }⟩
  · split_ifs
    · exact ⟨(hr.tail .fill).tail .unpin, { hf with }⟩
    · exact ⟨(hr.tail .give).tail .unpin, { hf with }⟩

end

/-! ### Keys of pages -/

private theorem pageFloor_toNat (x : UInt64) : (pageFloor x).toNat = x.toNat / 4096 * 4096 := by
  have h1 : x.toNat % 4096 ≤ x.toNat := Nat.mod_le _ _
  unfold pageFloor
  rw [UInt64.toNat_sub_of_le, UInt64.toNat_mod]
  · show x.toNat - x.toNat % 4096 = x.toNat / 4096 * 4096
    omega
  · rw [UInt64.le_iff_toNat_le, UInt64.toNat_mod]
    exact h1

private theorem pageFloor_add (x : UInt64) (i : Nat) :
    pageFloor (x + UInt64.ofNat (i * pageSize)) = pageFloor x + UInt64.ofNat (i * pageSize) := by
  apply UInt64.toNat_inj.1
  rw [pageFloor_toNat, UInt64.toNat_add, UInt64.toNat_add, pageFloor_toNat, UInt64.toNat_ofNat']
  have := x.toNat_lt
  unfold pageSize
  omega

section Region

variable {a va : Nat} {r : VmRegion}

private theorem place_of_region (hmm : MmOk C.arch (s.mm a)) (hr : r ∈ (s.mm a).regions) (hcov : r.Covers va)
    (hva : pageSize ∣ va) (habs : s.pte a va = none) (p : Nat) (w : Bool) :
    Place C s ⟨a, va, p, w, C.isDirect r.fp⟩ (r.attrAt va) :=
  ⟨habs, hva, hmm.view_of_mem hr hcov, rfl⟩

private theorem mem_neighbours {file : Nat} (hok : RegionOk C.arch r) {x : Nat × Key}
    (hx : x ∈ neighbours va file r) :
    pageSize ∣ x.1 ∧ r.Covers x.1 ∧ x.2 = ⟨file, pageFloor (r.attrAt x.1).offset⟩ := by
  unfold neighbours at hx
  dsimp only at hx
  generalize hbase : va / (fileFaultAroundPages * pageSize) * (fileFaultAroundPages * pageSize) = base at hx
  generalize hbegin : (if base < r.begin then r.begin else base) = begin at hx
  generalize hstop : (if base + fileFaultAroundPages * pageSize > r.stop then r.stop
      else base + fileFaultAroundPages * pageSize) = stop at hx
  obtain ⟨i, hi, rfl⟩ := mem_map.1 hx
  rw [mem_range] at hi
  have hge : r.begin ≤ begin := by
    split_ifs at hbegin <;> omega
  have hle : stop ≤ r.stop := by
    split_ifs at hstop <;> omega
  have hdvd : pageSize ∣ begin := by
    rw [← hbegin]
    split_ifs
    · exact hok.begin_aligned
    · rw [← hbase]
      exact Nat.dvd_trans (Nat.dvd_mul_left _ _) (Nat.dvd_mul_left _ _)
  have hlt : begin + i * pageSize < stop := by
    unfold pageSize at hi ⊢
    omega
  refine ⟨Nat.dvd_add hdvd (Nat.dvd_mul_left _ _), ⟨by dsimp only; omega, by dsimp only; omega⟩, ?_⟩
  show (⟨file, pageFloor (r.offset + UInt64.ofNat (begin - r.begin)) + UInt64.ofNat (i * pageSize)⟩ : Key) =
    ⟨file, pageFloor (r.offset + UInt64.ofNat (begin + i * pageSize - r.begin))⟩
  have hsplit : begin + i * pageSize - r.begin = begin - r.begin + i * pageSize := by omega
  rw [hsplit, UInt64.ofNat_add, ← UInt64.add_assoc, pageFloor_add]

private theorem pin_all (pins : List Nat) (l : List (Nat × Nat)) (s : State α) (hl : ∀ x ∈ l, x.2 ∈ s.shared) :
    Reach C A ⟨s, pins, loose⟩ ⟨l.foldl (fun s x => s.get x.2) s, l.map Prod.snd ++ pins, loose⟩ := by
  induction l generalizing s pins with
  | nil => exact .refl
  | cons x l ih =>
    have hpin : Micro C A ⟨s, pins, loose⟩ ⟨s.get x.2, x.2 :: pins, loose⟩ := .pin (.inl (hl x mem_cons_self))
    have hrest := ih (x.2 :: pins) (s.get x.2) fun y hy => hl y (mem_cons_of_mem _ hy)
    exact (Relation.ReflTransGen.head hpin hrest).tail (.perm perm_middle (List.Perm.refl _))

theorem Backed.cached {t : PageAttr} {p : Nat} (hfp : t.fp = some f) (hkind : C.kind (C.fileId f) = .cached)
    (h : s.pageCache.lookup (C.keyOf f t.offset) = some p) : Backed C s t p := by
  intro g hg _
  cases hfp.symm.trans hg
  exact ⟨fun _ => h, fun hu => FileKind.noConfusion (hkind.symm.trans hu)⟩

private theorem map_all (around : Nat → Bool) (l : List (Nat × Nat)) (s : State α)
    (hmm : MmOk C.arch (s.mm a)) (hr : r ∈ (s.mm a).regions) (hdirect : C.isDirect r.fp = false)
    (hfp : r.fp = some f) (hkind : C.kind (C.fileId f) = .cached) (hl : ∀ x ∈ l, pageSize ∣ x.1 ∧ r.Covers x.1 ∧
      s.pageCache.lookup (C.keyOf f (r.attrAt x.1).offset) = some x.2) :
    Reach C A ⟨s, l.map Prod.snd ++ pins, loose⟩ ⟨l.foldl (fun s x =>
      (if (s.pte a x.1).isNone && around x.1 then s.mapPage ⟨a, x.1, x.2, false, false⟩ else s).put x.2) s,
      pins, loose⟩ := by
  induction l generalizing s with
  | nil => exact .refl
  | cons x l ih =>
    obtain ⟨hva, hcov, hkey⟩ := hl x mem_cons_self
    rw [foldl_cons, map_cons, cons_append]
    split_ifs with hc
    · simp only [Bool.and_eq_true, Option.isNone_iff_eq_none] at hc
      have hplace := place_of_region hmm hr hcov hva hc.1 x.2 false
      rw [hdirect] at hplace
      refine .head (.map hplace rfl (.inl mem_cons_self) (fun _ => rfl) (.cached hfp hkind hkey)) (.head .unpin ?_)
      exact ih ((s.mapPage ⟨a, x.1, x.2, false, false⟩).put x.2) hmm hr fun y hy => hl y (mem_cons_of_mem _ hy)
    · exact .head .unpin (ih (s.put x.2) hmm hr fun y hy => hl y (mem_cons_of_mem _ hy))

private theorem neighbours_reach (around : Nat → Bool) (hmm : MmOk C.arch (s.mm a)) (hr : r ∈ (s.mm a).regions)
    (hfp : r.fp = some f) (hkind : C.kind (C.fileId f) = .cached) :
    Reach C A ⟨s, pins, loose⟩ ⟨pfMapCachedNeighbors s a va (C.fileId f) r around, pins, loose⟩ := by
  have hdirect : C.isDirect r.fp = false := by simp [isDirect, kindOf, hfp, hkind]
  -- what the loop works on
  have hl : ∀ x ∈ (getCachedRange s (neighbours va (C.fileId f) r)).2, pageSize ∣ x.1 ∧ r.Covers x.1 ∧
      s.pageCache.lookup (C.keyOf f (r.attrAt x.1).offset) = some x.2 := by
    intro x hx
    obtain ⟨y, hy, hyx⟩ := mem_filterMap.1 hx
    obtain ⟨p, hp, rfl⟩ := Option.map_eq_some_iff.1 hyx
    obtain ⟨h1, h2, h3⟩ := mem_neighbours (hmm.region r hr) hy
    refine ⟨h1, h2, ?_⟩
    rw [h3] at hp
    exact hp
  have hfold : ∀ (l : List (Nat × Nat)) (s : State α), (l.foldl (fun s x => s.get x.2) s).mm = s.mm ∧
      (l.foldl (fun s x => s.get x.2) s).pageCache = s.pageCache := by
    intro l
    induction l with
    | nil => exact fun s => ⟨rfl, rfl⟩
    | cons x l ih => exact fun s => ih (s.get x.2)
  obtain ⟨hm, hp⟩ := hfold (getCachedRange s (neighbours va (C.fileId f) r)).2 s
  refine (pin_all _ _ s fun x hx => mem_shared_of_cached (hl x hx).2.2).trans
    (map_all around _ _ ?_ ?_ hdirect hfp hkind ?_)
  · rw [hm]
    exact hmm
  · rw [hm]
    exact hr
  · rw [hp]
    exact hl

/-! ### Missing pages -/

section Missing

variable (hmm : MmOk C.arch (s.mm a)) (hr : r ∈ (s.mm a).regions) (hcov : r.Covers va) (hva : pageSize ∣ va)
  (habs : s.pte a va = none)

include hmm hr hcov hva habs

private theorem place_plain (hdirect : C.isDirect r.fp = false) (p : Nat) (w : Bool) :
    Place C s ⟨a, va, p, w, false⟩ (r.attrAt va) :=
  hdirect ▸ place_of_region hmm hr hcov hva habs p w

omit hmm hr hcov hva habs in
private theorem copy_map {s1 : State α} {pins1 l : List Nat} {source : Nat}
    (hr1 : Reach C A ⟨s, pins, loose⟩ ⟨s1, pins1, l⟩)
    (hf : Frame s s1) (hpin : Micro C A ⟨s1, pins1, l⟩ ⟨s1.get source, source :: pins1, loose⟩)
    {write : Bool} (hw : (write && !isShared r.flag) = true)
    (hplace : ∀ p w, Place C s ⟨a, va, p, w, false⟩ (r.attrAt va)) (o : Choices α) :
    match pfCopyPrivatePage s1 source o with
    | (s2, none) => Reach C A ⟨s, pins, loose⟩ ⟨s2, pins1, loose⟩
    | (s2, some p) => Reach C A ⟨s, pins, loose⟩ ⟨s2, pins1, p :: loose⟩ ∧
        Reach C A ⟨s, pins, loose⟩ ⟨s2.mapPage ⟨a, va, p, true, false⟩, pins1, loose⟩ := by
  have hpriv : isShared r.flag = false := by simpa using (Bool.and_eq_true_iff.1 hw).2
  obtain ⟨hc, hf'⟩ := copy_steps pins1 loose s1 hpin o
  rcases hx : pfCopyPrivatePage s1 source o with ⟨s2, _ | p⟩ <;> rw [hx] at hc hf'
  · exact hr1.trans hc
  · have hp := (hf.trans hf').place (hplace p true)
    exact ⟨hr1.trans hc, (hr1.trans hc).tail (.mapLoose hp rfl fun hs => Bool.noConfusion (hpriv.symm.trans hs))⟩

private theorem mapHookPage_reach {retains : Bool} (hfp : r.fp = some f)
    (hkind : C.kind (C.fileId f) = .mapPage retains) (write : Bool) (o : Choices α) :
    Reach C A ⟨s, pins, loose⟩ ⟨(mapHookPage s a va r retains write o).1, pins, loose⟩ := by
  have hplace := place_plain hmm hr hcov hva habs (by simp [isDirect, kindOf, hfp, hkind])
  unfold mapHookPage
  cases o.hook with
  | none => exact .refl
  | some source =>
    dsimp only
    by_cases hheld : source ∈ s.held
    swap
    · rw [if_neg hheld]
    rw [if_pos hheld]
    -- the reference that the hook retains
    obtain ⟨pins0, s0, hs0, hframe, hget, hput⟩ : ∃ pins0 s0, s0 = (if retains = true then s.get source else s) ∧
        Frame s s0 ∧ Reach C A ⟨s, pins, loose⟩ ⟨s0, pins0, loose⟩ ∧ ∀ (t : State α) (l : List Nat),
        Reach C A ⟨t, pins0, l⟩ ⟨if retains = true then t.put source else t, pins, l⟩ := by
      have hmem : source ∈ s.shared := by simp [shared, hheld]
      cases retains with
      | true => exact ⟨source :: pins, _, rfl, ⟨rfl, rfl, rfl⟩, .single (.pin (.inl hmem)), fun _ _ => .single .unpin⟩
      | false => exact ⟨pins, _, rfl, Frame.refl s, .refl, fun _ _ => .refl⟩
    rw [← hs0]
    have hmem : source ∈ s0.shared := by simp [shared, hframe.held, hheld]
    by_cases hw : (write && !isShared r.flag) = true
    · rw [if_pos hw]
      have hcopy := copy_map hget hframe (.pin (.inl hmem)) hw hplace o
      rcases hx : pfCopyPrivatePage s0 source o with ⟨s1, _ | p⟩ <;> rw [hx] at hcopy
      · exact hcopy.trans (hput s1 loose)
      · dsimp only
        split
        · exact hcopy.2.trans (hput _ loose)
        · exact (hcopy.1.trans (hput s1 (p :: loose))).tail .give
    · rw [if_neg hw]
      split
      · have hback : Backed C s0 (r.attrAt va) source := by
          intro g hg _
          cases hfp.symm.trans hg
          constructor <;> intro hk <;> rw [hkind] at hk <;> cases hk
        have hmap := hget.tail (.map (hframe.place (hplace source (canWrite r.prot && isShared r.flag))) rfl
          (.inr hmem) (fun hs => by rw [show isShared r.flag = false from hs, Bool.and_false]) hback)
        exact hmap.trans (hput _ loose)
      · exact hget.trans (hput s0 loose)

private theorem mapDirectPage_reach (hdirect : C.isDirect r.fp = true) (offset : UInt64) (o : Choices α) :
    Reach C A ⟨s, pins, loose⟩ ⟨(mapDirectPage s a va r offset o).1, pins, loose⟩ := by
  have hplace := place_of_region hmm hr hcov hva habs
  rw [hdirect] at hplace
  unfold mapDirectPage
  split_ifs
  · exact .single (.mapDirect (hplace _ _) rfl rfl)
  · exact .refl

private theorem mapFilePage_reach_cached (hfp : r.fp = some f) (hkind : C.kind (C.fileId f) = .cached) (write : Bool)
    (o : Choices α) : Reach C A ⟨s, pins, loose⟩
      ⟨(mapFilePage s a va r .cached (C.keyOf f (r.attrAt va).offset) write o).1, pins, loose⟩ := by
  have hplace := place_plain hmm hr hcov hva habs (by simp [isDirect, kindOf, hfp, hkind])
  obtain ⟨hf, hcase⟩ := fsPageCacheGet_steps pins loose s (C.keyOf f (r.attrAt va).offset) o
  unfold mapFilePage pfGetFilePage
  rw [if_pos rfl]
  rcases hx : s.fsPageCacheGet (C.keyOf f (r.attrAt va).offset) o with ⟨s1, _ | ⟨p, hit⟩⟩ <;> rw [hx] at hf hcase
  · exact hcase
  obtain ⟨hr1, hlook⟩ := hcase
  dsimp only at hr1 hlook ⊢
  by_cases hw : (write && !isShared r.flag) = true
  · rw [if_pos hw]
    have hcopy := copy_map hr1 hf (.pin (.inl (mem_shared_of_cached hlook))) hw hplace o
    rcases hy : pfCopyPrivatePage s1 p o with ⟨s2, _ | q⟩ <;> rw [hy] at hcopy
    · exact hcopy.tail .unpin
    · dsimp only
      split
      · exact hcopy.2.tail .unpin
      · exact (hcopy.1.tail .give).tail .unpin
  · rw [if_neg hw]
    -- the page is mapped itself, and it is dirty first if it becomes writable
    obtain ⟨s2, hs2, hf2, hr2, hlook2⟩ : ∃ s2, s2 = (if write = true then s1.markDirty p else s1) ∧ Frame s s2 ∧
        Reach C A ⟨s, pins, loose⟩ ⟨s2, p :: pins, loose⟩ ∧
        s2.pageCache.lookup (C.keyOf f (r.attrAt va).offset) = some p := by
      cases write with
      | true => exact ⟨_, rfl, { hf with }, hr1.tail .mark, hlook⟩
      | false => exact ⟨_, rfl, hf, hr1, hlook⟩
    rw [← hs2]
    have hwpriv : isShared (r.attrAt va).flag = false → write = false := by
      intro hs
      have hs' : isShared r.flag = false := hs
      simpa [hs'] using hw
    by_cases hok : o.mapOk = true
    swap
    · rw [if_neg hok]
      exact hr2.tail .unpin
    rw [if_pos hok]
    have hmap := hr2.tail (.map (hf2.place (hplace p write)) rfl (.inl mem_cons_self) hwpriv
      (.cached hfp hkind hlook2))
    simp only [Bool.and_false, Bool.false_eq_true, if_false]
    by_cases hn : (!write && hit && true) = true
    swap
    · rw [if_neg hn]
      exact hmap.tail .unpin
    rw [if_pos hn]
    have hmm2 : MmOk C.arch ((s2.mapPage ⟨a, va, p, write, false⟩).mm a) := by
      show MmOk C.arch (s2.mm a)
      rw [hf2.mm]
      exact hmm
    have hreg2 : r ∈ ((s2.mapPage ⟨a, va, p, write, false⟩).mm a).regions := by
      show r ∈ (s2.mm a).regions
      rw [hf2.mm]
      exact hr
    exact (hmap.trans (neighbours_reach o.around hmm2 hreg2 hfp hkind)).tail .unpin

/-- A page that is read for the fault, or shared with other mappings of the file. -/
theorem mapFilePage_reach_uncached (hfp : r.fp = some f) (hkind : C.kind (C.fileId f) = .uncached)
    (write : Bool) (o : Choices α) : Reach C A ⟨s, pins, loose⟩
      ⟨(mapFilePage s a va r .uncached (C.keyOf f (r.attrAt va).offset) write o).1, pins, loose⟩ := by
  have hplace := place_plain hmm hr hcov hva habs (by simp [isDirect, kindOf, hfp, hkind])
  -- marking the page dirty first does not change what follows
  have hmark : ∀ (s1 : State α) (p : Nat) (l : List Nat), ∃ s2, s2 = (if write = true then s1.markDirty p else s1) ∧
      Frame s1 s2 ∧ s2.fileShared = s1.fileShared ∧ Reach C A ⟨s1, pins, l⟩ ⟨s2, pins, l⟩ := by
    intro s1 p l
    cases write with
    | true => exact ⟨_, rfl, ⟨rfl, rfl, rfl⟩, rfl, .single .mark⟩
    | false => exact ⟨_, rfl, Frame.refl s1, rfl, .refl⟩
  unfold mapFilePage pfGetFilePage
  rw [if_neg (by decide)]
  cases hfind : (if isShared r.flag = true then s.fileShared.lookup (C.keyOf f (r.attrAt va).offset) else none) with
  | some p =>
    -- another mapping has the page
    have hsh : isShared r.flag = true := by
      by_contra hns
      rw [if_neg hns] at hfind
      cases hfind
    rw [if_pos hsh] at hfind
    simp only [hsh, Bool.not_true, Bool.and_false, Bool.false_eq_true, if_false, Bool.and_self, if_true]
    obtain ⟨s2, hs2, hf2, hfs, hr2⟩ := hmark s p loose
    rw [← hs2]
    split
    swap
    · exact hr2
    have hlook : s2.fileShared.lookup (C.keyOf f (r.attrAt va).offset) = some p := by rw [hfs, hfind]
    have hback : Backed C s2 (r.attrAt va) p := by
      intro g hg _
      cases hfp.symm.trans hg
      exact ⟨fun hc => FileKind.noConfusion (hkind.symm.trans hc), fun _ => hlook⟩
    have hmem : p ∈ s2.shared := mem_append_right _ (mem_append_left _ (mem_map_of_mem (lookup_mem hlook)))
    have hmap := hr2.tail (.map (hf2.place (hplace p write)) rfl (.inr hmem)
      (fun hs => Bool.noConfusion (hs.symm.trans hsh)) hback)
    have hadd : (s2.mapPage ⟨a, va, p, write, false⟩).fileSharedAdd (C.keyOf f (r.attrAt va).offset) p =
        s2.mapPage ⟨a, va, p, write, false⟩ := by
      rw [fileSharedAdd, show (s2.mapPage ⟨a, va, p, write, false⟩).fileShared = s2.fileShared from rfl, hlook]
    rw [hadd]
    exact hmap
  | none =>
    obtain ⟨hr1, hf⟩ := loadPage_steps pins loose s o
    rcases hx : s.loadPage o with ⟨s1, _ | p⟩ <;> rw [hx] at hr1 hf
    · exact hr1
    dsimp only
    by_cases hw : (write && !isShared r.flag) = true
    · rw [if_pos hw]
      have hcopy := copy_map hr1 hf .pinLoose hw hplace o
      rcases hy : pfCopyPrivatePage s1 p o with ⟨s2, _ | q⟩ <;> rw [hy] at hcopy
      · exact hcopy
      · dsimp only
        split
        · exact hcopy.2
        · exact hcopy.1.tail .give
    · rw [if_neg hw]
      obtain ⟨s2, hs2, hf2, -, hr2⟩ := hmark s1 p (p :: loose)
      rw [← hs2]
      by_cases hok : o.mapOk = true
      swap
      · rw [if_neg hok]
        exact (hr1.trans hr2).tail .lose
      rw [if_pos hok]
      have hp2 := (hf.trans hf2).place (hplace p write)
      have hmap := (hr1.trans hr2).tail (.mapLoose hp2 rfl fun _ hk => by
        rw [show (r.attrAt va).fp = some f from hfp] at hk
        simp [kindOf, hkind] at hk)
      simp only [Bool.and_false, Bool.false_eq_true, if_false, Bool.and_self]
      by_cases hsh : isShared r.flag = true
      · rw [if_pos hsh]
        unfold fileSharedAdd
        cases (s2.mapPage ⟨a, va, p, write, false⟩).fileShared.lookup (C.keyOf f (r.attrAt va).offset) with
        | some _ => exact hmap
        | none =>
          exact hmap.tail (.addFile (e := ⟨a, va, p, write, false⟩) mem_cons_self hp2.attr hsh hfp hkind)
      · rw [if_neg hsh]
        exact hmap

private theorem pfHandleInvalidFileMap_reach (hfp : r.fp = some f) (write : Bool) (o : Choices α) :
    Reach C A ⟨s, pins, loose⟩ ⟨(pfHandleInvalidFileMap C s a va r f (r.attrAt va).offset write o).1, pins,
    loose⟩ := by
  unfold pfHandleInvalidFileMap
  cases hkind : C.kind (C.fileId f) with
  | mapPage retains => exact mapHookPage_reach hmm hr hcov hva habs hfp hkind write o
  | directPhys =>
    refine mapDirectPage_reach hmm hr hcov hva habs ?_ _ o
    simp [isDirect, kindOf, hfp, hkind]
  | cached => exact mapFilePage_reach_cached hmm hr hcov hva habs hfp hkind write o
  | uncached => exact mapFilePage_reach_uncached hmm hr hcov hva habs hfp hkind write o

variable [Zero α]

variable (pins loose) in
theorem mapNewPage_reach (hfp : r.fp = none) (o : Choices α) :
    let r := mapNewPage s a va o
    Reach C A ⟨s, pins, loose⟩ ⟨r.1, pins, loose⟩ ∧ r.1.mm = s.mm ∧
      ∀ p, r.2 = some p → ⟨a, va, p, true, false⟩ ∈ r.1.ptes := by
  have hplace := place_plain hmm hr hcov hva habs (by simp [isDirect, kindOf, hfp])
  obtain ⟨hr1, hf⟩ := alloc_steps pins loose s o.copy
  unfold mapNewPage
  rcases hx : s.alloc o.copy with ⟨s1, _ | p⟩ <;> rw [hx] at hr1 hf
  · exact ⟨hr1, hf.mm, by simp⟩
  split_ifs
  swap
  · exact ⟨hr1.tail .give, hf.mm, by simp⟩
  refine ⟨?_, hf.mm, fun q hq => ?_⟩
  · -- the page may as well be cleared before it is mapped
    have hmap : Micro C A ⟨s1.fill p zeros, pins, p :: loose⟩
        ⟨(s1.fill p zeros).mapPage ⟨a, va, p, true, false⟩, pins, loose⟩ := by
      refine .mapLoose (e := ⟨a, va, p, true, false⟩) (t := r.attrAt va) ?_ rfl fun _ hk => ?_
      · exact ⟨(hf.place (hplace p true)).absent, hva, (hf.place (hplace p true)).attr, (hplace p true).direct⟩
      · rw [show (r.attrAt va).fp = none from hfp] at hk
        cases hk
    exact (hr1.tail .fill).tail hmap
  · cases hq
    exact mem_cons_self

theorem pfHandleInvalidMemory_reach (hfp : r.fp = none) (hzero : C.zeroPage ∈ s.held) (o : Choices α) :
    Reach C A ⟨s, pins, loose⟩ ⟨(pfHandleInvalidMemory C s a va r (r.attrAt va).offset o).1, pins, loose⟩ := by
  have hplace := place_plain hmm hr hcov hva habs (by simp [isDirect, kindOf, hfp])
  have hback : ∀ p, Backed C s (r.attrAt va) p := by
    intro p g hg _
    cases hfp.symm.trans hg
  obtain ⟨hnew, hnmm, hmem⟩ := mapNewPage_reach pins loose hmm hr hcov hva habs hfp o
  unfold pfHandleInvalidMemory
  by_cases hsh : (isShared r.flag && decide (r.anonId ≠ 0)) = true
  · rw [if_pos hsh]
    have hshared : isShared (r.attrAt va).flag = true := (Bool.and_eq_true_iff.1 hsh).1
    cases hlook : s.anonShared.lookup (anonKey r.anonId (r.attrAt va).offset) with
    | some p =>
      split_ifs
      · refine .single (.map (hplace p false) rfl (.inr ?_) (fun _ => rfl) (hback p))
        exact mem_append_right _ (mem_append_right _ (mem_append_left _ (mem_map_of_mem (lookup_mem hlook))))
      · exact .refl
    | none =>
      rcases hx : mapNewPage s a va o with ⟨s1, _ | p⟩ <;> rw [hx] at hnew hnmm hmem
      · exact hnew
      dsimp only
      unfold anonSharedAdd
      cases s1.anonShared.lookup (anonKey r.anonId (r.attrAt va).offset) with
      | some _ => exact hnew
      | none =>
        have hattr : s1.attr ⟨a, va, p, true, false⟩ = some (r.attrAt va) := by
          rw [attr, hnmm]
          exact hmm.view_of_mem hr hcov
        exact hnew.tail (.addAnon (hmem p rfl) hattr hshared hfp)
  · rw [if_neg hsh]
    by_cases hw : canWrite r.prot = true
    · rw [if_pos hw]
      rcases hx : mapNewPage s a va o with ⟨s1, _ | p⟩ <;> rw [hx] at hnew
      · exact hnew
      · exact hnew
    · rw [if_neg hw]
      split_ifs
      · refine .single (.map (hplace C.zeroPage false) rfl (.inr ?_) (fun _ => rfl) (hback _))
        simp [shared, hzero]
      · exact .refl

end Missing

end Region

/-! ### Dispatch -/

theorem pageOf_dvd (addr : Nat) : pageSize ∣ pageOf addr := Nat.dvd_mul_left _ _

variable {a va : Nat} {r : VmRegion}

theorem regionAt_some (hmm : MmOk C.arch (s.mm a)) (hva : pageSize ∣ va)
    (h : regionAt s a va = some r) : r ∈ (s.mm a).regions ∧ r.Covers va := by
  unfold regionAt at h
  cases hf : vmFindVma (s.mm a) va with
  | none =>
    rw [hf] at h
    cases h
  | some q =>
    rw [hf] at h
    dsimp only at h
    split_ifs at h with hc
    cases h
    exact ⟨(vmFindVma_some hmm hva hf).1, hc⟩

theorem regionAt_of_mem (hmm : MmOk C.arch (s.mm a)) (hva : pageSize ∣ va)
    (hr : r ∈ (s.mm a).regions) (hcov : r.Covers va) : regionAt s a va = some r := by
  unfold regionAt
  cases hf : vmFindVma (s.mm a) va with
  | none =>
    have := vmFindVma_none hmm hva hf r hr
    exact absurd hcov.2 (by omega)
  | some o =>
    obtain ⟨-, hstop, hfirst⟩ := vmFindVma_some hmm hva hf
    rcases hfirst r hr hcov.2 with rfl | hlater
    · exact if_pos hcov
    · have := hcov.1
      omega

theorem doWpPage_reach (hinv : Inv C ⟨s, pins, loose⟩) (hva : pageSize ∣ va) (o : Choices α) :
    Reach C A ⟨s, pins, loose⟩ ⟨(doWpPage s a va o).1, pins, loose⟩ := by
  unfold doWpPage
  cases hreg : regionAt s a va with
  | none => exact .refl
  | some r =>
    obtain ⟨hr, hcov⟩ := regionAt_some (hinv.mm a) hva hreg
    dsimp only
    by_cases hprot : (!canWrite r.prot) = true
    · rw [if_pos hprot]
    rw [if_neg hprot]
    cases he : s.pte a va with
    | none => exact .refl
    | some e =>
      dsimp only
      obtain ⟨hmem, rfl, rfl⟩ := pte_some he
      have hattr : s.attr e = some (r.attrAt e.va) := (hinv.mm e.space).view_of_mem hr hcov
      by_cases hwr : e.writable = true
      · rw [if_pos hwr]
      rw [if_neg hwr]
      -- a direct entry of a region that may be written is writable
      have hd : e.direct = false := by
        obtain ⟨-, t, ht, -, hdw⟩ := hinv.entry e hmem
        cases hattr.symm.trans ht
        by_contra hd
        have := hdw (by simpa using hd)
        simp only [VmRegion.attrAt] at this
        simp [this] at hwr
        simp [hwr] at hprot
      by_cases hsh : isShared r.flag = true
      · rw [if_pos hsh]
        have hset : Micro C A ⟨s, pins, loose⟩ ⟨s.setPte { e with writable := true }, pins, loose⟩ :=
          .writable he hd hattr (.inl hsh)
        cases r.fp with
        | none => exact .single hset
        | some f => exact (Relation.ReflTransGen.single hset).tail .mark
      rw [if_neg hsh]
      have hpriv : isShared r.flag = false := by simpa using hsh
      by_cases hcow : s.pool.count e.pfn > 1
      swap
      · rw [if_neg hcow]
        exact .single (.writable he hd hattr (.inr (Nat.not_lt.1 hcow)))
      rw [if_pos hcow]
      unfold wpPageCopy
      obtain ⟨hc, hf⟩ := copy_steps pins loose s (.pin (.inr hcow)) o
      rcases hx : pfCopyPrivatePage s e.pfn o with ⟨s1, _ | p⟩ <;> rw [hx] at hc hf
      · exact hc
      split_ifs
      · have he1 : s1.pte e.space e.va = some e := (hf.pte _ _).trans he
        have hattr1 : s1.attr e = some (r.attrAt e.va) := by
          rw [attr, show s1.mm = s.mm from hf.mm]
          exact hattr
        exact (hc.tail (.replace he1 hd hattr1 hpriv)).tail .unpin
      · exact hc.tail .give

theorem pfProcess_reach [Zero α] {addr : Nat} (hinv : Inv C ⟨s, pins, loose⟩) (write : Bool) (o : Choices α) :
    Reach C A ⟨s, pins, loose⟩ ⟨(pfProcess C s a addr write o).1, pins, loose⟩ := by
  have hva := pageOf_dvd addr
  unfold pfProcess
  dsimp only
  cases habs : s.pte a (pageOf addr) with
  | some e =>
    cases write with
    | true => exact doWpPage_reach hinv hva o
    | false => exact .refl
  | none =>
    unfold pfHandlePageInvalid
    cases hreg : regionAt s a (pageOf addr) with
    | none => exact .refl
    | some r =>
      obtain ⟨hr, hcov⟩ := regionAt_some (hinv.mm a) hva hreg
      dsimp only
      by_cases hprot : (decide (r.prot = 0) || write && !canWrite r.prot) = true
      · rw [if_pos hprot]
      rw [if_neg hprot, habs, if_neg (by simp)]
      cases hfp : r.fp with
      | some f => exact pfHandleInvalidFileMap_reach (hinv.mm a) hr hcov hva habs hfp write o
      | none => exact pfHandleInvalidMemory_reach (hinv.mm a) hr hcov hva habs hfp hinv.zero o

end Mos.Paging
