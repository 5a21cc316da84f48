import Mos.FsCache.Table
import Mos.Lib.Run
import Mathlib.Data.List.Nodup

/-!
# What the page cache keeps

The tree and the list have the same entries, a cached page is referenced by the cache once and by everybody who got
it, and a page that somebody got is not freed (`Inv`).
-/

namespace Mos.FsCache

open Lib List State Entry Get

variable {α : Type*} {s s' : State α} {loose : List Nat} {e : Entry} {g : Get} {p : Nat} {bal : Balancing Entry}

variable {k k' : Key}

private theorem keyComp_eq_iff : keyComp k k' = .eq ↔ k = k' := by
  obtain ⟨tag, ino, offset⟩ := k
  obtain ⟨tag', ino', offset'⟩ := k'
  simp only [keyComp, Key.mk.injEq]
  split_ifs <;> simp <;> omega

private theorem keyComp_lt_iff : keyComp k k' = .lt ↔
    k.tag < k'.tag ∨ k.tag = k'.tag ∧ (k.ino < k'.ino ∨ k.ino = k'.ino ∧ k.offset < k'.offset) := by
  simp only [keyComp]
  split_ifs <;> simp <;> omega

private theorem keyComp_gt_iff : keyComp k k' = .gt ↔ keyComp k' k = .lt := by
  rw [keyComp_lt_iff]
  simp only [keyComp]
  split_ifs <;> simp <;> omega

private theorem keyComp_trans {k'' : Key} (h : keyComp k k' = .lt) (h' : keyComp k' k'' = .lt) :
    keyComp k k'' = .lt := by
  rw [keyComp_lt_iff] at h h' ⊢
  omega

private theorem keyComp_ne (h : keyComp k k' = .lt) : k ≠ k' := by
  intro heq
  rw [keyComp_eq_iff.2 heq] at h
  cases h

/-- The order of the tree. -/
def Before (e e' : Entry) : Prop := keyComp e.key e'.key = .lt

variable {l : List Entry}

private theorem cut_find (h : l.Pairwise Before) (key : Key) : Tree.Cut (fun e => keyComp key e.key) l := by
  refine h.imp fun {x y} hxy => ⟨fun hx => keyComp_trans hx hxy, fun hy => ?_⟩
  rw [keyComp_gt_iff] at hy ⊢
  exact keyComp_trans hxy hy

/-- The page that a get has read. -/
def Get.page (g : Get) : Option Nat :=
  match g.stage with
  | .loaded p => some p
  | _ => none

/-- The invariant, while the pages `loose` are in use and neither referenced nor in the hands of a get. -/
structure Inv (loose : List Nat) (s : State α) : Prop where
  sorted : s.tree.toList.Pairwise Before
  same : s.lru.Perm s.tree.toList
  count : s.pages = s.tree.toList.length
  once : (s.tree.toList.map Entry.phy).Nodup
  sound : s.pool.Sound (s.tree.toList.map Entry.phy ++ s.held) (loose ++ s.gets.filterMap Get.page)
  ready : s.ready = false → s.tree.toList = [] ∧ s.gets = []

private theorem init_inv (owns : Nat → Bool) (mem : Nat → Nat → α) : Inv [] (.init owns mem) := by
  refine ⟨.nil, .nil, rfl, nodup_nil, ?_, fun _ => ⟨rfl, rfl⟩⟩
  refine ⟨fun _ => rfl, fun p => ?_, fun p hp => ?_, nodup_nil, fun p hp => ?_⟩
  · exact ⟨fun h => ⟨h, not_mem_nil, not_mem_nil⟩, And.left⟩
  · exact absurd hp (by simp [init, Tree.toList])
  · cases hp

variable {key : Key}

private theorem find_some (h : s.find key = some e) : e ∈ s.tree.toList ∧ e.key = key := by
  obtain ⟨hmem, heq⟩ := Tree.find_mem h
  exact ⟨hmem, (keyComp_eq_iff.1 heq).symm⟩

section

variable (h : Inv loose s)

include h

theorem Inv.find_none (hfind : s.find key = none) : ∀ x ∈ s.tree.toList, x.key ≠ key := by
  intro x hx heq
  exact Tree.find_eq_none (cut_find h.sorted key) hfind x hx (keyComp_eq_iff.2 heq.symm)

theorem Inv.nodup : s.tree.toList.Nodup := Nodup.of_map _ h.once

theorem Inv.keys : (s.tree.toList.map Entry.key).Nodup := by
  rw [Nodup, pairwise_map]
  exact h.sorted.imp fun {x y} hxy => keyComp_ne hxy

theorem Inv.refs (he : e ∈ s.tree.toList) : s.pool.count e.phy = 1 + s.held.count e.phy := by
  rw [h.sound.count_eq, count_append, count_eq_one_of_mem h.once (mem_map_of_mem he)]

theorem Inv.not_free (hp : p ∈ s.held) : s.pool.free p = false :=
  h.sound.not_free (.inl (mem_append_right _ hp))

/-! ### What the operations keep -/

theorem Inv.touch (he : e ∈ s.tree.toList) : Inv loose (s.touch e) := by
  have hperm : (s.lru.erase e ++ [e]).Perm s.tree.toList :=
    perm_append_comm.trans ((perm_cons_erase (h.same.mem_iff.2 he)).symm.trans h.same)
  exact { h with same := hperm }

theorem Inv.hold (hp : p ∈ s.tree.toList.map phy ++ s.held) : Inv loose (s.hold p) :=
  { h with sound := (h.sound.get hp).perm perm_middle.symm (.refl _) }

end

theorem Inv.drop (bal : Balancing Entry) (h : Inv loose s) (he : e ∈ s.tree.toList) :
    Inv loose ({ s with lru := s.lru.erase e }.remove bal e).2 := by
  have htree : (bal.erase s.tree e).toList = s.tree.toList.erase e := bal.erase_toList s.tree e he
  have hsub : (s.tree.toList.erase e).Sublist s.tree.toList := erase_sublist
  have hrefs : (s.tree.toList.map phy ++ s.held).Perm (e.phy :: ((s.tree.toList.erase e).map phy ++ s.held)) :=
    ((perm_cons_erase he).map phy).append_right s.held
  constructor
  any_goals
    dsimp only [remove]
    rw [htree]
  · exact h.sorted.sublist hsub
  · exact h.same.erase e
  · rw [length_erase_of_mem he, h.count]
  · exact h.once.sublist (hsub.map phy)
  · exact (h.sound.perm hrefs (.refl _)).put
  · intro hready
    obtain ⟨hnil, hgets⟩ := h.ready hready
    rw [hnil] at he
    cases he

theorem Inv.ensureInit (h : Inv loose s) : Inv loose s.ensureInit := by
  unfold State.ensureInit
  split_ifs with hready
  · exact h
  obtain ⟨hnil, hgets⟩ := h.ready (Bool.eq_false_iff.2 hready)
  refine ⟨.nil, .nil, ?_, nodup_nil, ?_, fun _ => ⟨rfl, hgets⟩⟩
  · show s.pages = 0
    rw [h.count, hnil]
    rfl
  · have := h.sound
    rw [hnil] at this
    exact this

theorem Inv.give (h : Inv (p :: loose) s) : Inv loose { s with pool := s.pool.give p } :=
  { h with sound := h.sound.give }

theorem Inv.take (h : Inv loose s) (hfree : s.pool.free p = true) : Inv (p :: loose)
    { s with pool := s.pool.take p } :=
  { h with sound := h.sound.take hfree }

theorem Inv.holdNew (h : Inv (p :: loose) s) : Inv loose (s.hold p) :=
  { h with sound := h.sound.get_idle.perm perm_middle.symm (.refl _) }

private theorem filterMap_page (g : Get) (l : List Get) : (g :: l).filterMap page = g.page.toList ++
    l.filterMap page := by
  rw [filterMap_cons]
  cases g.page <;> rfl

theorem Inv.finish (h : Inv loose s) (hg : g ∈ s.gets) : Inv (g.page.toList ++ loose) (s.finish g) := by
  have hperm : (loose ++ s.gets.filterMap page).Perm (g.page.toList ++ loose ++ (s.gets.erase g).filterMap page) := by
    refine (((perm_cons_erase hg).filterMap page).append_left loose).trans ?_
    rw [filterMap_page, ← append_assoc]
    exact perm_append_comm.append_right _
  refine { h with sound := h.sound.perm (.refl _) hperm, ready := fun hready => ?_ }
  obtain ⟨hnil, hgets⟩ := h.ready hready
  rw [hgets] at hg
  cases hg

theorem Inv.start (h : Inv (g.page.toList ++ loose) s) (hready : s.ready = true) :
    Inv loose { s with gets := g :: s.gets } := by
  have hperm : (g.page.toList ++ loose ++ s.gets.filterMap page).Perm (loose ++ (g :: s.gets).filterMap page) := by
    rw [filterMap_page, ← append_assoc]
    exact perm_append_comm.append_right _
  refine { h with sound := h.sound.perm (.refl _) hperm, ready := fun hnot => ?_ }
  rw [hready] at hnot
  cases hnot

theorem Inv.ready_of_mem (h : Inv loose s) (hg : g ∈ s.gets) : s.ready = true := by
  cases hready : s.ready with
  | true => rfl
  | false =>
    rw [(h.ready hready).2] at hg
    cases hg

/-- What a loop over the cache leaves alone. -/
structure Shrinks (s s' : State α) : Prop where
  held : s'.held = s.held
  gets : s'.gets = s.gets
  ready : s'.ready = s.ready

/-- Only entries on which nobody has a reference are gone. -/
structure Evicts (s s' : State α) : Prop extends Shrinks s s' where
  kept : ∀ e ∈ s.tree.toList, e ∈ s'.tree.toList ∨ e.phy ∉ s.held

theorem Evicts.refl (s : State α) : Evicts s s := ⟨⟨rfl, rfl, rfl⟩, fun _ he => .inl he⟩

theorem Evicts.trans {s'' : State α} (h : Evicts s s') (h' : Evicts s' s'') : Evicts s s'' := by
  refine ⟨⟨h'.held.trans h.held, h'.gets.trans h.gets, h'.ready.trans h.ready⟩, fun e he => ?_⟩
  rcases h.kept e he with hmem | hfree
  · rcases h'.kept e hmem with hmem' | hfree'
    · exact .inl hmem'
    · exact .inr (h.held ▸ hfree')
  · exact .inr hfree

section

variable (bal : Balancing Entry)

private theorem evictOne_spec (h : Inv loose s) : Inv loose (s.evictOne bal).2 ∧ Evicts s (s.evictOne bal).2 := by
  unfold evictOne
  split
  swap
  · exact ⟨h, .refl s⟩
  rename_i e hfind
  have he : e ∈ s.tree.toList := h.same.mem_iff.1 (mem_of_find?_eq_some hfind)
  have hone : s.pool.count e.phy = 1 := by simpa using find?_some hfind
  refine ⟨h.drop bal he, ⟨⟨rfl, rfl, rfl⟩, fun x hx => ?_⟩⟩
  by_cases hxe : x = e
  · right
    rw [hxe, ← count_eq_zero]
    have := h.refs he
    omega
  · left
    show x ∈ (bal.erase s.tree e).toList
    rw [bal.erase_toList _ _ he]
    exact (mem_erase_of_ne hxe).mpr hx

private theorem trim_spec (filePages n : Nat) (h : Inv loose s) :
    Inv loose (s.trim bal filePages n) ∧ Evicts s (s.trim bal filePages n) := by
  induction n generalizing s with
  | zero => exact ⟨h, .refl s⟩
  | succ n ih =>
    rw [trim]
    split_ifs
    · obtain ⟨h1, he1⟩ := evictOne_spec bal h
      obtain ⟨h2, he2⟩ := ih h1
      exact ⟨h2, he1.trans he2⟩
    · exact ⟨h, .refl s⟩

private theorem reclaim_spec (n : Nat) (h : Inv loose s) : Inv loose (s.reclaim bal n) ∧
    Evicts s (s.reclaim bal n) := by
  induction n generalizing s with
  | zero => exact ⟨h, .refl s⟩
  | succ n ih =>
    obtain ⟨h1, he1⟩ := evictOne_spec bal h
    rw [reclaim]
    split_ifs
    · exact ⟨h, .refl s⟩
    · exact ⟨h1, he1⟩
    · obtain ⟨h2, he2⟩ := ih h1
      exact ⟨h2, he1.trans he2⟩

end

private theorem probe_spec (tag ino n offset : Nat) (h : Inv loose s) :
    let r := s.probe tag ino n offset
    Inv loose r.2 ∧ r.2.held.Perm (r.1 ++ s.held) := by
  induction n generalizing s offset with
  | zero => exact ⟨h, .refl _⟩
  | succ n ih =>
    rw [probe]
    split
    · exact ih _ h
    rename_i e hfind
    obtain ⟨he, -⟩ := find_some hfind
    have h1 : Inv loose ((s.hold e.phy).touch e) := (h.hold (mem_append_left _ (mem_map_of_mem he))).touch he
    obtain ⟨h2, hperm⟩ := ih ((offset + pageSize) % 2 ^ 64) h1
    exact ⟨h2, hperm.trans perm_middle⟩

private theorem update_spec (s : State α) (tag ino : Nat) (mapped : Nat → Bool) (data : Nat → α) (offset size : Nat) :
    ∃ mem, s.update tag ino mapped data offset size = { s with mem := mem } := by
  induction hn : size using Nat.strongRecOn generalizing s data offset size with
  | _ n ih =>
    subst hn
    rw [update]
    by_cases h0 : size = 0
    · rw [dif_pos h0]
      exact ⟨s.mem, rfl⟩
    rw [dif_neg h0]
    have hpos := updateCount_pos offset h0
    exact ih (size - updateCount offset size) (by omega)
      { s with mem := s.updatePage tag ino mapped data offset (updateCount offset size) }
      (fun i => data (i + updateCount offset size)) ((offset + updateCount offset size) % 2 ^ 64) _ rfl

private theorem insert_eq (bal : Balancing Entry) (h : s.tree.toList.Pairwise Before)
    (hnew : ∀ x ∈ s.tree.toList, x.key ≠ e.key) :
    ∃ tree l₁ l₂, s.insert bal e = { s with tree := tree } ∧ s.tree.toList = l₁ ++ l₂ ∧ tree.toList = l₁ ++ e :: l₂ ∧
      tree.toList.Pairwise Before := by
  have hcut : Tree.Cut (fun x => if keyComp e.key x.key = .lt then .lt else .gt) s.tree.toList := by
    refine h.imp fun {x y} hxy => ?_
    dsimp only
    constructor
    · intro hx
      have hex : keyComp e.key x.key = .lt := by simpa using hx
      rw [if_pos (keyComp_trans hex hxy)]
    · intro hy
      have hey : keyComp e.key y.key ≠ .lt := by simpa using hy
      rw [if_neg fun hex => hey (keyComp_trans hex hxy)]
  have hne : ∀ x ∈ s.tree.toList, (if keyComp e.key x.key = .lt then Ordering.lt else .gt) ≠ .eq := by
    intro x _
    split_ifs <;> simp
  obtain ⟨tree, l₁, l₂, hins, hl, hl', hbefore, hafter⟩ := Tree.insert_spec e hcut hne
  refine ⟨bal.insertColor tree, l₁, l₂, ?_, hl, ?_, ?_⟩
  · rw [State.insert, hins]
  · rw [bal.insertColor_toList, hl']
  rw [bal.insertColor_toList, hl', pairwise_append, pairwise_cons]
  rw [hl, pairwise_append] at h
  have hbefore' : ∀ x ∈ l₁, Before x e := by
    intro x hx
    have hkey := hnew x (hl ▸ mem_append_left _ hx)
    have hlt : keyComp e.key x.key ≠ .lt := by simpa using hbefore x hx
    cases hcomp : keyComp x.key e.key with
    | lt => exact hcomp
    | eq => exact absurd (keyComp_eq_iff.1 hcomp) hkey
    | gt => exact absurd (keyComp_gt_iff.1 hcomp) hlt
  have hafter' : ∀ x ∈ l₂, Before e x := fun x hx => by simpa [Before] using hafter x hx
  refine ⟨h.1, ⟨hafter', h.2.1⟩, ?_⟩
  intro x hx y hy
  rcases mem_cons.1 hy with rfl | hy
  · exact hbefore' x hx
  · exact h.2.2 x hx y hy

private theorem insertPage_spec (bal : Balancing Entry) (key : Key) (alloc : Bool) (h : Inv (p :: loose) s)
    (hready : s.ready = true) :
    let r := s.insertPage bal key p alloc
    Inv loose r.2 ∧ r.2.held = r.1 ++ s.held := by
  unfold insertPage
  split
  · rename_i e hfind
    obtain ⟨he, -⟩ := find_some hfind
    exact ⟨(h.hold (mem_append_left _ (mem_map_of_mem he))).give, rfl⟩
  rename_i hfind
  split_ifs
  swap
  · exact ⟨h.give, rfl⟩
  have hnew : ∀ x ∈ s.tree.toList, x.key ≠ key := h.find_none hfind
  obtain ⟨tree, l1, l2, hins, hl, hl', hsorted⟩ :=
    insert_eq (s := { s with lru := s.lru ++ [⟨key, p⟩] }) (e := ⟨key, p⟩) bal h.sorted hnew
  dsimp only
  rw [hins]
  have hperm : tree.toList.Perm (⟨key, p⟩ :: s.tree.toList) := by
    rw [hl', hl]
    exact perm_middle
  have hphys : (tree.toList.map phy).Perm (p :: s.tree.toList.map phy) := hperm.map phy
  have hp : p ∉ s.tree.toList.map phy := fun hmem =>
    h.sound.apart p mem_cons_self (mem_append_left _ hmem)
  have hsound : (s.pool.get p).Sound (tree.toList.map phy ++ s.held) (loose ++ s.gets.filterMap page) :=
    h.sound.get_idle.perm (hphys.symm.append_right s.held) (.refl _)
  refine ⟨?_, rfl⟩
  refine Inv.hold (s := { s with tree := tree, lru := s.lru ++ [⟨key, p⟩], pool := s.pool.get p, pages :=
    s.pages + 1 }) ⟨hsorted, ?_, ?_, ?_, hsound, ?_⟩ (mem_append_left _ (hphys.mem_iff.2 mem_cons_self))
  · exact perm_append_comm.trans ((h.same.cons _).trans hperm.symm)
  · show s.pages + 1 = tree.toList.length
    rw [hperm.length_eq, h.count]
    rfl
  · exact hphys.nodup_iff.2 (nodup_cons.2 ⟨hp, h.once⟩)
  · intro hnot
    exact absurd (hready.symm.trans hnot) (by decide)

/-! ### Invalidation -/

variable {fp : File} {x : Entry}

/-- Behind an entry that is not one of the file and not before its first page there is none of the file. -/
theorem later_not_of (h : keyComp ⟨fp.tag, fp.ino, 0⟩ e.key ≠ .gt) (hne : e.isOf fp = false)
    (hlt : Before e x) : x.isOf fp = false := by
  rw [Ne, keyComp_gt_iff, keyComp_lt_iff] at h
  rw [Before, keyComp_lt_iff] at hlt
  dsimp only at h
  simp [isOf] at hne ⊢
  omega

private theorem earlier_not_of (h : keyComp ⟨fp.tag, fp.ino, 0⟩ x.key = .gt) : x.isOf fp = false := by
  rw [keyComp_gt_iff, keyComp_lt_iff] at h
  dsimp only at h
  simp [isOf]
  omega

private theorem filter_not_of (h : ∀ x ∈ l, x.isOf fp = false) : l.filter (fun x => !x.isOf fp) = l :=
  filter_eq_self.2 fun x hx => by rw [h x hx]; rfl

/-- The loop, from an entry behind which every entry of the file lies. -/
theorem invalidateLoop_spec (bal : Balancing Entry) (fp : File) {n : Nat} {l₁ : List Entry} (rest : List Entry)
    (h : Inv loose s) (hl : s.tree.toList = l₁ ++ rest) (hn : rest.length < n) (hl1 : ∀ x ∈ l₁, x.isOf fp = false)
    (hrest : ∀ x ∈ rest, keyComp ⟨fp.tag, fp.ino, 0⟩ x.key ≠ .gt) :
    let r := s.invalidateLoop bal fp n rest.head?
    Inv loose r ∧ Shrinks s r ∧ r.tree.toList = s.tree.toList.filter fun x => !x.isOf fp := by
  induction n generalizing s rest with
  | zero => omega
  | succ n ih =>
    cases rest with
    | nil =>
      rw [append_nil] at hl
      exact ⟨h, ⟨rfl, rfl, rfl⟩, (filter_not_of (hl ▸ hl1)).symm⟩
    | cons e rest =>
      have hnd := h.nodup
      have hsorted := h.sorted
      rw [hl] at hnd hsorted
      rw [head?_cons, invalidateLoop]
      by_cases hof : e.isOf fp = true
      · have he : e ∉ l₁ := fun hmem => (nodup_append.1 hnd).2.2 e hmem e mem_cons_self rfl
        have hmem : e ∈ s.tree.toList := hl ▸ mem_append_right _ mem_cons_self
        have hl' : (bal.erase s.tree e).toList = l₁ ++ rest := by
          rw [bal.erase_toList _ _ hmem, hl, erase_append_right _ he, erase_cons_head]
        rw [if_pos hof, Tree.next_middle hl he]
        obtain ⟨h1, hsh, hlist⟩ := ih rest (h.drop bal hmem) hl' (by simpa using hn)
          fun x hx => hrest x (mem_cons_of_mem _ hx)
        refine ⟨h1, { hsh with }, hlist.trans ?_⟩
        show (bal.erase s.tree e).toList.filter _ = _
        rw [hl', hl, filter_append, filter_append, filter_cons_of_neg (by simp [hof])]
      · rw [if_neg hof]
        refine ⟨h, ⟨rfl, rfl, rfl⟩, (filter_not_of ?_).symm⟩
        have hfalse : e.isOf fp = false := Bool.eq_false_iff.2 hof
        rw [hl]
        refine forall_mem_append.2 ⟨hl1, forall_mem_cons.2 ⟨hfalse, fun x hx => ?_⟩⟩
        have hlt := (pairwise_cons.1 (pairwise_append.1 hsorted).2.1).1 x hx
        exact later_not_of (hrest e mem_cons_self) hfalse hlt

theorem Inv.first_eq (h : Inv loose s) (key : Key) :
    s.first key = s.tree.toList.find? fun x => decide (keyComp key x.key ≠ .gt) := by
  have hcut : Tree.StrictCut (fun e : Entry => if keyComp key e.key = .gt then .gt else .lt) s.tree.toList := by
    refine h.sorted.imp fun {x y} hxy hy => ?_
    dsimp only at hy ⊢
    have hgt : keyComp key y.key = .gt := by simpa using hy
    rw [if_pos]
    rw [keyComp_gt_iff] at hgt ⊢
    exact keyComp_trans hxy hgt
  rw [first, Tree.lowerBound_eq none hcut, Option.or_none]
  congr 1
  funext x
  by_cases hx : keyComp key x.key = .gt <;> simp [hx]

private theorem invalidate_spec (bal : Balancing Entry) (fp : File) (h : Inv loose s) :
    Inv loose (s.invalidate bal fp) ∧ Shrinks s (s.invalidate bal fp) ∧
    (s.invalidate bal fp).tree.toList = s.tree.toList.filter fun x => !x.isOf fp := by
  rw [invalidate, h.first_eq]
  cases hfind : s.tree.toList.find? fun x => decide (keyComp ⟨fp.tag, fp.ino, 0⟩ x.key ≠ .gt) with
  | none =>
    refine invalidateLoop_spec bal fp [] h (append_nil _).symm (Nat.succ_pos _) (fun x hx => ?_)
      fun x hx => absurd hx not_mem_nil
    exact earlier_not_of (by simpa using find?_eq_none.1 hfind x hx)
  | some e =>
    obtain ⟨he, l1, l2, hl, hbefore⟩ := find?_eq_some_iff_append.1 hfind
    have hsorted := h.sorted
    rw [hl] at hsorted
    refine invalidateLoop_spec bal fp (e :: l2) h hl ?_ (fun x hx => ?_) fun x hx => ?_
    · rw [hl, length_append]
      omega
    · exact earlier_not_of (by simpa using hbefore x hx)
    · have hge : keyComp ⟨fp.tag, fp.ino, 0⟩ e.key ≠ .gt := of_decide_eq_true he
      rcases mem_cons.1 hx with rfl | hx
      · exact hge
      · have hlt := (pairwise_cons.1 (pairwise_append.1 hsorted).2.1).1 x hx
        intro hgt
        rw [keyComp_gt_iff] at hgt
        exact hge (keyComp_gt_iff.2 (keyComp_trans hlt hgt))

/-! ### Runs -/

/-- The references that a step gives back. -/
def Op.released : Op α → List Nat
  | .put p => [p]
  | _ => []

/-- A step and the references before and after it. -/
def Keeps (s : State α) (op : Op α) (ret : List Nat) (s' : State α) : Prop :=
  Inv [] s' ∧ (ret ++ s.held).Perm (op.released ++ s'.held)

private theorem getPage_spec (task : Nat) (fp : File) (offset : Nat) (h : Inv [] s) :
    Keeps s (.get task fp offset) (s.getPage task fp offset).1 (s.getPage task fp offset).2 := by
  unfold getPage
  split_ifs
  swap
  · exact ⟨h, .refl _⟩
  have h1 := h.ensureInit
  have hheld : s.ensureInit.held = s.held := by
    unfold ensureInit
    split_ifs <;> rfl
  have hready : s.ensureInit.ready = true := by
    unfold ensureInit
    split_ifs with hr
    · exact hr
    · rfl
  unfold Keeps
  rw [← hheld]
  dsimp only
  split
  · rename_i e hfind
    obtain ⟨he, -⟩ := find_some hfind
    exact ⟨(h1.touch he).hold (mem_append_left _ (mem_map_of_mem he)), .refl _⟩
  · exact ⟨Inv.start h1 hready, .refl _⟩

theorem Inv.put (h : Inv loose s) (hp : p ∈ s.held) :
    Inv loose { s with pool := s.pool.put p, held := s.held.erase p } := by
  have hrefs : (s.tree.toList.map phy ++ s.held).Perm (p :: (s.tree.toList.map phy ++ s.held.erase p)) :=
    ((perm_cons_erase hp).append_left _).trans perm_middle
  exact { h with sound := (h.sound.perm hrefs (.refl _)).put }

theorem Inv.setStage (h : Inv [] s) (hg : g ∈ s.gets) (hpage : g.page = none) {stage : Stage}
    (hstage : page { g with stage := stage } = none) : Inv [] (s.setStage g stage) := by
  have h1 := h.finish hg
  rw [hpage] at h1
  refine Inv.start (s := s.finish g) ?_ (h.ready_of_mem hg)
  rw [hstage]
  exact h1

theorem Inv.bytes (h : Inv loose s) (mem : Nat → Nat → α) : Inv loose { s with mem := mem } :=
  { h with }

private theorem load_spec (h : Inv [] s) (hg : g ∈ s.gets) (hstage : g.stage = .trimmed)
    (hfree : s.pool.free p = true)
    (mem : Nat → Nat → α) : Inv [] ({ s with pool := s.pool.take p, mem := mem }.setStage g (.loaded p)) := by
  have hpage : g.page = none := by rw [page, hstage]
  have h1 := h.finish hg
  rw [hpage] at h1
  exact Inv.start (g := { g with stage := .loaded p }) ((h1.take hfree).bytes mem) (h.ready_of_mem hg)

variable {ret : List Nat} {op : Op α}

private theorem eq_of_some {r : List Nat × State α} (h : some r = some (ret, s')) : ret = r.1 ∧ s' = r.2 := by
  rw [Option.some.inj h]
  exact ⟨rfl, rfl⟩

theorem Inv.trim {filePages : Nat} (h : Inv [] s) (hx : exec bal s (.trim g filePages) = some (ret, s')) :
    Keeps s (.trim g filePages) ret s' := by
  rw [exec] at hx
  split_ifs at hx with hc
  cases hx
  obtain ⟨h1, hev⟩ := trim_spec bal filePages 32 h
  refine ⟨h1.setStage (hev.gets ▸ hc.1) (by rw [page, hc.2]) rfl, ?_⟩
  show s.held.Perm (s.trim bal filePages 32).held
  rw [hev.held]

theorem Inv.loadFail (h : Inv [] s) (hx : exec bal s (.loadFail g) = some (ret, s')) :
    Keeps s (.loadFail g) ret s' := by
  rw [exec] at hx
  split_ifs at hx with hc
  have h1 := h.finish hc
  split at hx
  · cases hx
  · rename_i hstage
    cases hx
    rw [page, hstage] at h1
    exact ⟨h1, .refl _⟩
  · rename_i p hstage
    cases hx
    rw [page, hstage] at h1
    exact ⟨h1.give, .refl _⟩

theorem Inv.insert {alloc : Bool} (h : Inv [] s) (hx : exec bal s (.insert g alloc) = some (ret, s')) :
    Keeps s (.insert g alloc) ret s' := by
  rw [exec] at hx
  split_ifs at hx with hc
  have h1 := h.finish hc
  split at hx
  · rename_i p hstage
    rw [page, hstage] at h1
    obtain ⟨h2, hheld⟩ := insertPage_spec bal g.key alloc h1 (h.ready_of_mem hc)
    obtain ⟨rfl, rfl⟩ := eq_of_some hx
    refine ⟨h2, ?_⟩
    rw [hheld]
    exact .refl _
  · cases hx

theorem Inv.invalidate {fp : File} (h : Inv [] s) (hx : exec bal s (.invalidate fp) = some (ret, s')) :
    Keeps s (.invalidate fp) ret s' := by
  rw [exec] at hx
  split_ifs at hx with hc
  · cases hx
    obtain ⟨h1, hsh, -⟩ := invalidate_spec bal fp h
    refine ⟨h1, ?_⟩
    show s.held.Perm (s.invalidate bal fp).held
    rw [hsh.held]
  · cases hx
    exact ⟨h, .refl _⟩

theorem Inv.reclaim {target : Nat} (h : Inv [] s) (hx : exec bal s (.reclaim target) = some (ret, s')) :
    Keeps s (.reclaim target) ret s' := by
  rw [exec] at hx
  split_ifs at hx with hc
  · cases hx
    obtain ⟨h1, hev⟩ := reclaim_spec bal target h
    refine ⟨h1, ?_⟩
    show s.held.Perm (s.reclaim bal target).held
    rw [hev.held]
  · cases hx
    exact ⟨h, .refl _⟩

theorem Inv.step (h : Inv [] s) (hstep : Step bal s (op, ret) s') : Keeps s op ret s' := by
  unfold Step at hstep
  cases op with
  | get task fp offset =>
    obtain ⟨rfl, rfl⟩ := eq_of_some hstep
    exact getPage_spec task fp offset h
  | trim => exact h.trim hstep
  | loadFail => exact h.loadFail hstep
  | insert => exact h.insert hstep
  | invalidate => exact h.invalidate hstep
  | reclaim => exact h.reclaim hstep
  | load g p bytes =>
    rw [exec] at hstep
    split_ifs at hstep with hc
    cases hstep
    exact ⟨load_spec h hc.1 hc.2.1 hc.2.2 _, .refl _⟩
  | probe fp offset count =>
    rw [exec] at hstep
    split_ifs at hstep with hc
    · obtain ⟨rfl, rfl⟩ := eq_of_some hstep
      obtain ⟨h1, hperm⟩ := probe_spec fp.tag fp.ino count (pageOf offset) h
      exact ⟨h1, hperm.symm⟩
    · cases hstep
      exact ⟨h, .refl _⟩
  | put p =>
    rw [exec] at hstep
    split_ifs at hstep with hc
    cases hstep
    exact ⟨h.put hc, perm_cons_erase hc⟩
  | update fp mapped data offset size =>
    rw [exec] at hstep
    split_ifs at hstep with hc
    · obtain ⟨mem, heq⟩ := update_spec s fp.tag fp.ino mapped data offset size
      rw [heq] at hstep
      cases hstep
      exact ⟨h.bytes mem, .refl _⟩
    · cases hstep
      exact ⟨h, .refl _⟩
  | ref p =>
    rw [exec] at hstep
    split_ifs at hstep with hc
    cases hstep
    exact ⟨h.hold (mem_append_right _ hc), .refl _⟩
  | alloc p =>
    rw [exec] at hstep
    split_ifs at hstep with hc
    cases hstep
    exact ⟨(h.take hc).holdNew, .refl _⟩

/-- What an eviction may free: nothing on which somebody has a reference. -/
def EvictsUnreferenced (s s' : State α) : Prop :=
  (∀ e ∈ s.tree.toList, e ∉ s'.tree.toList → e.phy ∉ s.held) ∧
    ∀ p, s.pool.free p = false → s'.pool.free p = true → p ∉ s.held

private theorem evictsUnreferenced (hheld : s'.held = s.held) (hkept : ∀ e ∈ s.tree.toList, e ∈ s'.tree.toList ∨
    e.phy ∉ s.held) (h' : Inv loose s') : EvictsUnreferenced s s' := by
  refine ⟨fun e he hgone => (hkept e he).resolve_left hgone, fun p _ hfree hp => ?_⟩
  rw [← hheld] at hp
  rw [h'.not_free hp] at hfree
  cases hfree

theorem Inv.evicts (h : Inv [] s) (hstep : Step bal s (op, ret) s')
    (hop : (∃ g filePages, op = .trim g filePages) ∨ ∃ target, op = .reclaim target) : EvictsUnreferenced s s' := by
  have h' := (h.step hstep).1
  unfold Step at hstep
  rcases hop with ⟨g, filePages, rfl⟩ | ⟨target, rfl⟩
  · rw [exec] at hstep
    split_ifs at hstep with hc
    cases hstep
    obtain ⟨-, hev⟩ := trim_spec bal filePages 32 h
    exact evictsUnreferenced hev.held hev.kept h'
  rw [exec] at hstep
  split_ifs at hstep with hc
  · cases hstep
    obtain ⟨-, hev⟩ := reclaim_spec bal target h
    exact evictsUnreferenced hev.held hev.kept h'
  · cases hstep
    exact evictsUnreferenced rfl (fun _ he => .inl he) h'

theorem Inv.invalidates (h : Inv [] s) (hstep : Step bal s (.invalidate fp, ret) s') :
    s'.tree.toList = s.tree.toList.filter fun e => !(fp.canUse && e.isOf fp) := by
  rw [Step, exec] at hstep
  split_ifs at hstep with hc
  · cases hstep
    simpa [hc.1] using (invalidate_spec bal fp h).2.2
  cases hstep
  by_cases hcan : fp.canUse = true
  · have hready : s.ready = false := Bool.eq_false_iff.2 fun hr => hc ⟨hcan, hr⟩
    rw [(h.ready hready).1]
    rfl
  · simp [hcan]

/-- In every run the list and the tree hold the same entries, references are counted, an eviction frees only what
nobody refers to, and an invalidation drops just the entries of its file. -/
theorem page_cache_runs {owns : Nat → Bool} {mem : Nat → Nat → α} {tr : List (Op α × List Nat)}
    (hrun : Run (Step bal) (.init owns mem) tr s) :
    s.lru.Perm s.tree.toList ∧ (s.tree.toList.map Entry.key).Nodup ∧ s.pages = s.tree.toList.length ∧
    -- the references handed out are those given back and those outstanding
    (tr.flatMap Prod.snd).Perm (tr.flatMap (fun e => e.1.released) ++ s.held) ∧
    (∀ e ∈ s.tree.toList, s.pool.count e.phy = 1 + s.held.count e.phy) ∧ (∀ p ∈ s.held, s.pool.free p = false) ∧
    (∀ op ret s', Step bal s (op, ret) s' →
      ((∃ g filePages, op = .trim g filePages) ∨ (∃ target, op = .reclaim target)) → EvictsUnreferenced s s') ∧
    ∀ fp ret s', Step bal s (.invalidate fp, ret) s' →
      s'.tree.toList = s.tree.toList.filter fun e => !(fp.canUse && e.isOf fp) := by
  have hall : Inv [] s ∧ (tr.flatMap Prod.snd).Perm (tr.flatMap (fun e => e.1.released) ++ s.held) := by
    refine hrun.invariant (fun tr s => Inv [] s ∧
      (tr.flatMap Prod.snd).Perm (tr.flatMap (fun e => e.1.released) ++ s.held))
      ⟨init_inv owns mem, .refl _⟩ ?_
    intro tr t e u _ hinv hstep
    obtain ⟨h', hperm⟩ := hinv.1.step hstep
    refine ⟨h', ?_⟩
    rw [flatMap_append, flatMap_append, flatMap_singleton, flatMap_singleton, append_assoc]
    refine (hinv.2.append_right e.2).trans ?_
    rw [append_assoc]
    exact (perm_append_comm.trans hperm).append_left _
  obtain ⟨h, hrefs⟩ := hall
  exact ⟨h.same, h.keys, h.count, hrefs, fun e he => h.refs he, fun p hp => h.not_free hp,
    fun op ret s' hstep hop => h.evicts hstep hop, fun fp ret s' hstep => h.invalidates hstep⟩

/-- The first page of a file is read into page 5. -/
def firstGet : List (Op Nat × List Nat) :=
  let g : Get := ⟨1, ⟨7, 2, 0⟩, .missed⟩
  [(.get 1 ⟨7, 2, true⟩ 100, []), (.trim g 1, []), (.load { g with stage := .trimmed } 5 fun _ => 0, []),
    (.insert { g with stage := .loaded 5 } true, [5])]

private theorem step_of_bind (e : Op α × List Nat)
    (h : ((exec bal s e.1).bind fun r => if r.1 = e.2 then some r.2 else none) = some s') : Step bal s e s' := by
  obtain ⟨r, hr, hret⟩ := Option.bind_eq_some_iff.1 h
  split_ifs at hret with heq
  cases hret
  rw [Step, hr, ← heq]

/-- The page is in the cache, is referenced by the cache and by the task, and is not free. -/
theorem page_cache_runs_get : ∃ s, Run (Step (.none Entry)) (.init (fun p => p = 5) fun _ _ => 0) firstGet s ∧
    s.lru = [⟨⟨7, 2, 0⟩, 5⟩] ∧ s.pool.count 5 = 2 ∧ s.pool.free 5 = false := by
  obtain ⟨s, hrun, hs⟩ := Run.exists_of_foldlM (fun e _ _ _ => step_of_bind e)
    (show (firstGet.foldlM (fun s e => (exec (.none Entry) s e.1).bind fun r => if r.1 = e.2 then some r.2 else none)
      (init (fun p => p = 5) fun _ _ => 0)).any (fun s => s.lru = [⟨⟨7, 2, 0⟩, 5⟩] ∧
        s.tree.toList = [⟨⟨7, 2, 0⟩, 5⟩] ∧ s.held = [5]) = true by decide +kernel)
  obtain ⟨hlru, htree, hheld⟩ := of_decide_eq_true hs
  obtain ⟨-, -, -, -, hcount, hfree, -⟩ := page_cache_runs hrun
  refine ⟨s, hrun, hlru, ?_, hfree 5 (by simp [hheld])⟩
  rw [hcount ⟨⟨7, 2, 0⟩, 5⟩ (by simp [htree]), hheld]
  rfl

end Mos.FsCache
