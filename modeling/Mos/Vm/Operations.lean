import Mos.Lib.Run
import Mos.Vm.View
import Mathlib.Data.List.Find

/-!
# What the region operations do

Each loop of the region code is shown to end, to keep the invariant and to change the view as requested.  The loops of
`vm_add_map` and `do_munmap` are measured by the number of regions that still overlap the range, the loop of
`vm_mprotect` by the number of regions that still reach beyond the probe.
-/

namespace Mos.Vm

open Lib VmRegion Option
open List hiding lookup lookup_append lookup_eq_none_iff

variable {o p : VmRegion} {b e a probe ub ue : Nat} {mm mm' : MmStruct} {newProt : Int}

section Loops

variable {arch : Arch} {B : Balancing VmRegion} {fresh : Nat}

/-- The parts of `o` outside `[b, e)`. -/
private def outside (fresh : Nat) (o : VmRegion) (b e : Nat) : List VmRegion :=
  ([] ++ if o.begin < b then [(o.part o.begin b o.prot).region fresh] else []) ++
    if o.stop > e then [(o.part e o.stop o.prot).region fresh] else []

private theorem mem_outside (hp : p ∈ outside fresh o b e) (hb : b < o.stop)
    (he : o.begin < e) : o.begin ≤ p.begin ∧ p.begin < p.stop ∧ p.stop ≤ o.stop ∧ (p.stop ≤ b ∨ e ≤ p.begin) := by
  simp only [outside, nil_append, mem_append] at hp
  rcases hp with hp | hp <;> split_ifs at hp with hc
  · cases mem_singleton.1 hp
    simp only [MapArgs.region, part]
    omega
  · cases hp
  · cases mem_singleton.1 hp
    simp only [MapArgs.region, part]
    omega
  · cases hp

private theorem lookup_part {prot : Int} (c : Prop) [Decidable c] (hb : o.begin ≤ b) :
    lookup VmRegion.Covers attrAt (if c then [(o.part b e prot).region fresh] else []) a =
      if c ∧ b ≤ a ∧ a < e then some { o.attrAt a with prot := prot } else none := by
  by_cases hc : c
  · simp only [hc, if_true, lookup, valuesAt_cons, valuesAt_nil, true_and]
    by_cases ha : b ≤ a ∧ a < e
    · have hcov : ((o.part b e prot).region fresh).Covers a := ha
      rw [if_pos hcov, if_pos ha, List.head?_cons, part_attrAt o fresh hb ha.1]
    · have hcov : ¬((o.part b e prot).region fresh).Covers a := ha
      rw [if_neg hcov, if_neg ha, List.head?_nil]
  · simp [lookup, hc]

private theorem lookup_outside (he : o.begin < e) (ha : o.Covers a) :
    lookup VmRegion.Covers attrAt (outside fresh o b e) a =
      if b ≤ a ∧ a < e then none else some (o.attrAt a) := by
  obtain ⟨ha1, ha2⟩ := ha
  rw [outside, lookup_append, lookup_append, lookup_part _ le_rfl, lookup_part _ (Nat.le_of_lt he)]
  by_cases hin : b ≤ a ∧ a < e
  · rw [if_neg (by omega), if_neg (by omega), if_pos hin]
    rfl
  rw [if_neg hin]
  by_cases hl : a < b
  · rw [if_pos (by omega)]
    rfl
  · rw [if_neg (by omega), if_pos (by omega)]
    rfl

/-- Taking `[b, e)` out of a region that meets it, as `vm_add_map` and `do_munmap` do. -/
theorem cut_step (B : Balancing VmRegion) (fresh : Nat) (h : MmOk arch mm)
    (ho : o ∈ mm.regions) (hbe : b < e) (hov : Overlaps b e o) (hb : pageSize ∣ b) (he : pageSize ∣ e) : ∃ mm₁ mm₂,
      (∀ fuel, (if o.begin < b then vmAddMapWithLock B fresh (fuel + 1) (vmTreeRemove B mm o)
      (o.part o.begin b o.prot)
        else some (vmTreeRemove B mm o)) = some mm₁) ∧
      (∀ fuel, (if o.stop > e then vmAddMapWithLock B fresh (fuel + 1) mm₁ (o.part e o.stop o.prot) else some mm₁) =
        some mm₂) ∧ Recut arch mm o (outside fresh o b e) mm₂ := by
  obtain ⟨hov1, hov2⟩ := hov
  have hok := h.region o ho
  obtain ⟨mm₁, h1, r1⟩ := (Recut.start h B ho).add h ho B fresh (o.begin < b) o.prot
    (fun hc => ⟨hc, le_rfl, Nat.le_of_lt hov1, hok.begin_aligned, hb⟩) nofun
  obtain ⟨mm₂, h2, r2⟩ := r1.add h ho B fresh (o.stop > e) o.prot
    (fun hc => ⟨hc, Nat.le_of_lt hov2, le_rfl, he, hok.stop_aligned⟩) (fun _ p hp => by
      split_ifs at hp
      · cases mem_singleton.1 hp
        right
        simp only [MapArgs.region, part]
        omega
      · cases hp)
  exact ⟨mm₁, mm₂, h1, h2, r2⟩

theorem outside_view (h : MmOk arch mm) (ho : o ∈ mm.regions)
    (hov : Overlaps b e o) (hr : Recut arch mm o (outside fresh o b e) mm') (a : Nat) :
    mm'.view a = if o.Covers a ∧ b ≤ a ∧ a < e then none else mm.view a := by
  have hin : ∀ p ∈ outside fresh o b e, p.Covers a → o.Covers a := by
    rintro p hp ⟨h1, h2⟩
    have hm := mem_outside hp hov.1 hov.2
    exact ⟨by omega, by omega⟩
  rw [hr.view_eq h a hin]
  by_cases ha : o.Covers a
  · rw [if_pos ha, lookup_outside hov.2 ha, h.view_of_mem ho ha]
    simp [ha]
  · rw [if_neg ha, if_neg fun hc => ha hc.1]

theorem insert_view (B : Balancing VmRegion) (fresh : Nat) (h : MmOk arch mm) {a : MapArgs}
    (ha : RegionOk arch (a.region fresh)) (hfind : vmTreeFind mm ⟨a.begin, a.stop⟩ = none) :
    let mm' := vmTreeInsert B mm (a.region fresh)
    MmOk arch mm' ∧ mm'.regions.Perm (a.region fresh :: mm.regions) ∧
    ∀ x, mm'.view x = if a.begin ≤ x ∧ x < a.stop then some ((a.region fresh).attrAt x) else mm.view x := by
  have hclear : ∀ x ∈ mm.regions, Clear (a.region fresh) x := by
    intro x hx
    have hno := vmTreeFind_none h hfind x hx
    simp only [Overlaps, not_and, Nat.not_lt] at hno
    by_cases hx' : a.begin < x.stop
    · exact .inl (hno hx')
    · exact .inr (Nat.not_lt.1 hx')
  obtain ⟨h1, h2⟩ := vmTreeInsert_ok h ha hclear
  refine ⟨h1, h2, fun x => ?_⟩
  rw [MmStruct.view, lookup_perm h2 h1.apart, lookup, valuesAt_cons]
  by_cases hx : (a.region fresh).Covers x
  · rw [if_pos hx]
    exact (if_pos hx).symm
  · rw [if_neg hx]
    exact (if_neg hx).symm

/-- `vm_add_map_with_lock` overrides the view on the new range. -/
theorem vmAddMapWithLock_spec (h : MmOk arch mm) {a : MapArgs} (ha : RegionOk arch (a.region fresh)) :
    ∃ mm', (∀ fuel > mm.regions.countP (fun r => decide (Overlaps a.begin a.stop r)),
        vmAddMapWithLock B fresh fuel mm a = some mm') ∧ MmOk arch mm' ∧
      ∀ x, mm'.view x = if a.begin ≤ x ∧ x < a.stop then some ((a.region fresh).attrAt x) else mm.view x := by
  induction hn : mm.regions.countP (fun r => decide (Overlaps a.begin a.stop r)) using Nat.strongRecOn
    generalizing mm with
  | _ n ih =>
    cases hfind : vmTreeFind mm ⟨a.begin, a.stop⟩ with
    | none =>
      obtain ⟨h1, -, h2⟩ := insert_view B fresh h ha hfind
      refine ⟨_, fun fuel hf => ?_, h1, h2⟩
      obtain ⟨k, rfl⟩ : ∃ k, fuel = k + 1 := ⟨fuel - 1, by omega⟩
      rw [vmAddMapWithLock, hfind]
    | some o =>
      obtain ⟨ho, hov⟩ := vmTreeFind_some hfind
      obtain ⟨mm1, mm2, h1, h2, hr⟩ := cut_step B fresh h ho (b := a.begin) (e := a.stop) ha.lt
        hov ha.begin_aligned ha.stop_aligned
      have hgone : ∀ p ∈ outside fresh o a.begin a.stop, ¬Overlaps a.begin a.stop p := by
        rintro p hp ⟨h1, h2⟩
        have hm := mem_outside hp hov.1 hov.2
        omega
      have hcount := hr.countP_lt (P := Overlaps a.begin a.stop) hov hgone fun _ h => h
      obtain ⟨mm', h3, h4, h5⟩ := ih _ (by omega) hr.ok rfl
      refine ⟨mm', fun fuel hf => ?_, h4, fun x => ?_⟩
      · obtain ⟨k, rfl⟩ : ∃ k, fuel = k + 2 := ⟨fuel - 2, by omega⟩
        rw [vmAddMapWithLock, hfind]
        simp only [h1, bind_eq_bind, bind_some, h2]
        exact h3 _ (by omega)
      · rw [h5 x, outside_view h ho hov hr x]
        split_ifs with hx1 hx2
        · rfl
        · exact absurd hx2.2 hx1
        · rfl

/-- The part `[ub, ue)` of a region that lies in `[b, e)`, as the loops compute its bounds. -/
theorem clip (hok : RegionOk arch o) (hov : Overlaps b e o) (hbe : b < e) (hb : pageSize ∣ b) (he : pageSize ∣ e) :
    ∃ ub ue, (ub = if o.begin > b then o.begin else b) ∧ (ue = if o.stop < e then o.stop else e) ∧ pageSize ∣ ub ∧
      pageSize ∣ ue ∧ o.begin ≤ ub ∧ b ≤ ub ∧ ub < ue ∧ ue ≤ o.stop ∧ ue ≤ e ∧ (ub = o.begin ∨ ub = b) ∧
      (ue = o.stop ∨ ue = e) := by
  obtain ⟨hov1, hov2⟩ := hov
  have hlt := hok.lt
  refine ⟨_, _, rfl, rfl, ?_, ?_, by split_ifs <;> omega⟩
  · split_ifs
    exacts [hok.begin_aligned, hb]
  · split_ifs
    exacts [hok.stop_aligned, he]

/-- The loop of `do_munmap` erases the range from the view. -/
theorem munmapLoop_spec (B : Balancing VmRegion) (fresh : Nat) (hbe : b < e) (hb : pageSize ∣ b) (he : pageSize ∣ e)
    (h : MmOk arch mm) :
    ∃ mm', (∀ fuel > mm.regions.countP (fun r => decide (Overlaps b e r)),
    munmapLoop B fresh b e fuel mm = some mm') ∧
      MmOk arch mm' ∧ ∀ x, mm'.view x = if b ≤ x ∧ x < e then none else mm.view x := by
  induction hn : mm.regions.countP (fun r => decide (Overlaps b e r)) using Nat.strongRecOn generalizing mm with
  | _ n ih =>
    cases hfind : vmTreeFind mm ⟨b, e⟩ with
    | none =>
      refine ⟨mm, fun fuel hf => ?_, h, fun x => ?_⟩
      · obtain ⟨k, rfl⟩ : ∃ k, fuel = k + 1 := ⟨fuel - 1, by omega⟩
        rw [munmapLoop, hfind]
      by_cases hx : b ≤ x ∧ x < e
      · rw [if_pos hx]
        refine lookup_eq_none_iff.2 ?_
        rintro r hr ⟨h1, h2⟩
        exact vmTreeFind_none h hfind r hr ⟨by dsimp only; omega, by dsimp only; omega⟩
      · rw [if_neg hx]
    | some o =>
      obtain ⟨ho, hov⟩ : o ∈ mm.regions ∧ Overlaps b e o := vmTreeFind_some hfind
      obtain ⟨ub, ue, hub, hue, hub', hue', i1, i2, i3, i4, i5, i6, i7⟩ := clip (h.region o ho) hov hbe hb he
      have hov' : Overlaps ub ue o := ⟨by omega, by omega⟩
      obtain ⟨mm1, mm2, h1, h2, hr⟩ := cut_step B fresh h ho i3 hov' hub' hue'
      have hgone : ∀ p ∈ outside fresh o ub ue, ¬Overlaps b e p := by
        rintro p hp ⟨hp1, hp2⟩
        have hm := mem_outside hp hov'.1 hov'.2
        omega
      have hcount := hr.countP_lt hov hgone fun _ h => h
      obtain ⟨mm', h3, h4, h5⟩ := ih _ (by omega) hr.ok rfl
      refine ⟨mm', fun fuel hf => ?_, h4, fun x => ?_⟩
      · obtain ⟨k, rfl⟩ : ∃ k, fuel = k + 1 := ⟨fuel - 1, by omega⟩
        rw [munmapLoop, hfind]
        simp only [← hub, ← hue, h1, bind_eq_bind, bind_some, h2]
        exact h3 _ (by omega)
      · rw [h5 x, outside_view h ho hov' hr x]
        by_cases hx : b ≤ x ∧ x < e
        · rw [if_pos hx, if_pos hx]
        · rw [if_neg hx, if_neg hx, if_neg]
          rintro ⟨-, hx1, hx2⟩
          exact hx ⟨by omega, by omega⟩

/-! ### `vm_mprotect` -/

private theorem vmFindVma_eq (h : MmOk arch mm) (hp : pageSize ∣ probe) :
    vmFindVma mm probe = mm.regions.find? fun r => decide (probe < r.stop) := by
  unfold vmFindVma
  rw [pageOf, Nat.div_mul_cancel hp, Tree.lowerBound_eq, or_none]
  · refine List.find?_congr fun r hr => ?_
    have hlt := (h.region r hr).lt
    by_cases h1 : probe < r.begin
    · have h2 : probe < r.stop := by omega
      simp [h1, h2]
    · by_cases h2 : probe < r.stop
      · simp [h1, h2, Nat.not_le.2 h2]
      · simp [h1, h2, Nat.not_lt.1 h2]
  · -- a region before one that starts at or below the probe lies below the probe
    refine h.sorted.imp_of_mem fun {x y} hx hy hxy hy' => ?_
    have hlt := (h.region x hx).lt
    have hyb : ¬probe < y.begin := fun hc => hy' (if_pos hc)
    dsimp only
    rw [if_neg (by omega), if_pos (by omega)]

/-- `vm_find_vma` finds the first region that ends above the address. -/
theorem vmFindVma_some (h : MmOk arch mm) (hp : pageSize ∣ probe) (ho : vmFindVma mm probe = some o) :
    o ∈ mm.regions ∧ probe < o.stop ∧ ∀ r ∈ mm.regions, probe < r.stop → r = o ∨ o.stop ≤ r.begin := by
  rw [vmFindVma_eq h hp, List.find?_eq_some_iff_append] at ho
  obtain ⟨hstop, l1, l2, hl, hbefore⟩ := ho
  have hmem : o ∈ mm.regions := by simp [hl]
  refine ⟨hmem, by simpa using hstop, fun r hr hrp => ?_⟩
  have hs := h.sorted
  rw [hl] at hr hs
  rcases mem_append.1 hr with hr | hr
  · have hno := hbefore r hr
    simp only [Bool.not_eq_true', decide_eq_false_iff_not] at hno
    exact absurd hrp hno
  · rcases mem_cons.1 hr with rfl | hr
    · exact .inl rfl
    · exact .inr ((pairwise_cons.1 (pairwise_append.1 hs).2.1).1 r hr)

theorem vmFindVma_none (h : MmOk arch mm) (hp : pageSize ∣ probe)
    (ho : vmFindVma mm probe = none) : ∀ r ∈ mm.regions, r.stop ≤ probe := by
  rw [vmFindVma_eq h hp, List.find?_eq_none] at ho
  intro r hr
  have hno := ho r hr
  simp only [decide_eq_true_eq, Nat.not_lt] at hno
  exact hno

/-- The pieces that `vm_mprotect` makes of a region. -/
private def recoloured (fresh : Nat) (o : VmRegion) (ub ue : Nat) (newProt : Int) : List VmRegion :=
  (([] ++ if o.begin < ub then [(o.part o.begin ub o.prot).region fresh] else []) ++
    if True then [(o.part ub ue newProt).region fresh] else []) ++
    if ue < o.stop then [(o.part ue o.stop o.prot).region fresh] else []

private theorem mem_recoloured
    (hp : p ∈ recoloured fresh o ub ue newProt) (h1 : o.begin ≤ ub) (h2 : ub < ue) (h3 : ue ≤ o.stop) :
    o.begin ≤ p.begin ∧ p.begin < p.stop ∧ p.stop ≤ o.stop ∧ (p.stop ≤ ue ∨ ue ≤ p.begin ∧ ue < o.stop) := by
  have hsplit : p ∈ outside fresh o ub ue ∨ p = (o.part ub ue newProt).region fresh := by
    simp only [recoloured, outside, mem_append, if_true, mem_singleton] at hp ⊢
    tauto
  rcases hsplit with hp | rfl
  · have := mem_outside hp (by omega) (by omega)
    omega
  · simp only [MapArgs.region, part]
    omega

private theorem lookup_recoloured (h1 : o.begin ≤ ub) (h2 : ub < ue) (ha : o.Covers a) :
    lookup VmRegion.Covers attrAt (recoloured fresh o ub ue newProt) a =
      some (if ub ≤ a ∧ a < ue then { o.attrAt a with prot := newProt } else o.attrAt a) := by
  obtain ⟨ha1, ha2⟩ := ha
  rw [recoloured, lookup_append, lookup_append, lookup_append, lookup_part _ le_rfl, lookup_part _ h1,
    lookup_part _ (by omega)]
  by_cases hin : ub ≤ a ∧ a < ue
  · rw [if_neg (by omega), if_pos ⟨trivial, hin⟩, if_pos hin]
    rfl
  rw [if_neg hin]
  by_cases hl : a < ub
  · rw [if_pos (by omega)]
    rfl
  · rw [if_neg (by omega), if_neg fun hc => hin hc.2, if_pos (by omega)]
    rfl

theorem recolour_step (B : Balancing VmRegion) (fresh : Nat) (h : MmOk arch mm)
    (ho : o ∈ mm.regions) (newProt : Int) (h1 : o.begin ≤ ub) (h2 : ub < ue) (h3 : ue ≤ o.stop)
    (hub : pageSize ∣ ub) (hue : pageSize ∣ ue) : ∃ mm₁ mm₂ mm₃, (∀ fuel, (if o.begin < ub
        then vmAddMapWithLock B fresh (fuel + 1) (vmTreeRemove B mm o) (o.part o.begin ub o.prot)
        else some (vmTreeRemove B mm o)) = some mm₁) ∧
      (∀ fuel, vmAddMapWithLock B fresh (fuel + 1) mm₁ (o.part ub ue newProt) = some mm₂) ∧
      (∀ fuel, (if ue < o.stop then vmAddMapWithLock B fresh (fuel + 1) mm₂ (o.part ue o.stop o.prot) else some mm₂) =
        some mm₃) ∧ Recut arch mm o (recoloured fresh o ub ue newProt) mm₃ := by
  have hok := h.region o ho
  obtain ⟨mm₁, e1, r1⟩ := (Recut.start h B ho).add h ho B fresh (o.begin < ub) o.prot
    (fun hc => ⟨hc, le_rfl, by omega, hok.begin_aligned, hub⟩) nofun
  obtain ⟨mm₂, e2, r2⟩ := r1.add h ho B fresh True newProt (fun _ => ⟨h2, h1, h3, hub, hue⟩) (fun _ p hp => by
    split_ifs at hp
    · cases mem_singleton.1 hp
      exact .inr le_rfl
    · cases hp)
  obtain ⟨mm₃, e3, r3⟩ := r2.add h ho B fresh (ue < o.stop) o.prot
    (fun hc => ⟨hc, by omega, le_rfl, hue, hok.stop_aligned⟩) (fun _ p hp => by
      rcases mem_append.1 hp with hp | hp
      · split_ifs at hp
        · cases mem_singleton.1 hp
          exact .inr (Nat.le_of_lt h2)
        · cases hp
      · cases mem_singleton.1 hp
        exact .inr le_rfl)
  exact ⟨mm₁, mm₂, mm₃, e1, by simpa using e2, e3, r3⟩

private theorem recoloured_view (h : MmOk arch mm) (ho : o ∈ mm.regions) (h1 : o.begin ≤ ub) (h2 : ub < ue)
    (h3 : ue ≤ o.stop) (hr : Recut arch mm o (recoloured fresh o ub ue newProt) mm') (a : Nat) :
    mm'.view a =
      if ub ≤ a ∧ a < ue then (mm.view a).map (fun t => { t with prot := newProt }) else mm.view a := by
  have hin : ∀ p ∈ recoloured fresh o ub ue newProt, p.Covers a → o.Covers a := by
    rintro p hp ⟨hp1, hp2⟩
    have hm := mem_recoloured hp h1 h2 h3
    exact ⟨by omega, by omega⟩
  rw [hr.view_eq h a hin]
  by_cases ha : o.Covers a
  · rw [if_pos ha, lookup_recoloured h1 h2 ha, h.view_of_mem ho ha]
    split_ifs <;> rfl
  · rw [if_neg ha, if_neg]
    rintro ⟨ha1, ha2⟩
    exact ha ⟨by omega, by omega⟩

/-- The loop of `vm_mprotect` changes the protection from the probe on.  Once the probe has moved, no region reaches
across it. -/
theorem vmMprotectLoop_spec (B : Balancing VmRegion) (fresh : Nat) (newProt : Int) (hbe : b < e) (hb : pageSize ∣ b)
    (he : pageSize ∣ e) (h : MmOk arch mm) (hbp : b ≤ probe) (hpe : probe ≤ e) (hp : pageSize ∣ probe)
    (hclean : probe = b ∨ ∀ r ∈ mm.regions, ¬(r.begin < probe ∧ probe < r.stop)) :
    ∃ mm', (∀ fuel > mm.regions.countP (fun r => decide (probe < r.stop ∧ r.begin < e)),
        vmMprotectLoop B fresh b e newProt fuel mm probe = some mm') ∧ MmOk arch mm' ∧
      ∀ x, mm'.view x =
        if probe ≤ x ∧ x < e then (mm.view x).map (fun t => { t with prot := newProt }) else mm.view x := by
  induction hn : mm.regions.countP (fun r => decide (probe < r.stop ∧ r.begin < e)) using Nat.strongRecOn
    generalizing mm probe with
  | _ n ih =>
    -- nothing is mapped from the probe up to the region found
    have hgap : ∀ {z x}, (∀ r ∈ mm.regions, probe < r.stop → z ≤ r.begin) → probe ≤ x → x < z → mm.view x = none := by
      intro z x hz hx1 hx2
      refine lookup_eq_none_iff.2 ?_
      rintro r hr ⟨h1, h2⟩
      have := hz r hr (by omega)
      omega
    have hdone : (∀ r ∈ mm.regions, probe < r.stop → e ≤ r.begin) → ∀ x, mm.view x =
        if probe ≤ x ∧ x < e then (mm.view x).map (fun t => { t with prot := newProt }) else mm.view x := by
      intro hz x
      by_cases hx : probe ≤ x ∧ x < e
      · rw [if_pos hx, hgap hz hx.1 hx.2]
        rfl
      · rw [if_neg hx]
    cases hfind : vmFindVma mm probe with
    | none =>
      refine ⟨mm, fun fuel hf => ?_, h, hdone fun r hr hrp => ?_⟩
      · obtain ⟨k, rfl⟩ : ∃ k, fuel = k + 1 := ⟨fuel - 1, by omega⟩
        rw [vmMprotectLoop, hfind]
      · have := vmFindVma_none h hp hfind r hr
        omega
    | some o =>
      obtain ⟨ho, hop, hfirst⟩ := vmFindVma_some h hp hfind
      by_cases hoe : o.begin < e
      · obtain ⟨ub, ue, hub, hue, hub', hue', i1, i2, i3, i4, i5, i6, i7⟩ :=
          clip (h.region o ho) ⟨by omega, hoe⟩ hbe hb he
        have hstraddle : probe = b ∨ probe ≤ o.begin := by
          rcases hclean with hc | hc
          · exact .inl hc
          · have := hc o ho
            omega
        obtain ⟨mm1, mm2, mm3, e1, e2, e3, hr⟩ := recolour_step B fresh h ho newProt i1 i3 i4 hub' hue'
        have hpieces : ∀ p ∈ recoloured fresh o ub ue newProt, ¬(ue < p.stop ∧ p.begin < e) := by
          rintro p hpp ⟨hp1, hp2⟩
          have hm := mem_recoloured hpp i1 i3 i4
          omega
        have hcount := hr.countP_lt (P := fun r => probe < r.stop ∧ r.begin < e)
          ⟨hop, hoe⟩ hpieces fun r hrr => ⟨by omega, hrr.2⟩
        have hclean' : ∀ r ∈ mm3.regions, ¬(r.begin < ue ∧ ue < r.stop) := by
          rintro r hr3 ⟨hr1, hr2⟩
          rcases hr.mem h hr3 with hrp | hcl
          · have hm := mem_recoloured hrp i1 i3 i4
            omega
          · unfold Clear at hcl
            omega
        obtain ⟨mm', h3, h4, h5⟩ := ih _ (by omega) hr.ok (by omega) i5 hue' (.inr hclean') rfl
        refine ⟨mm', fun fuel hf => ?_, h4, fun x => ?_⟩
        · obtain ⟨k, rfl⟩ : ∃ k, fuel = k + 1 := ⟨fuel - 1, by omega⟩
          rw [vmMprotectLoop, hfind]
          simp only [if_pos hoe, ← hub, ← hue, e1, bind_eq_bind, bind_some, e2, e3]
          exact h3 _ (by omega)
        · rw [h5 x, recoloured_view h ho i1 i3 i4 hr x]
          by_cases hx : x < ub
          · -- below the region found: handled before, or not mapped
            rw [if_neg (by omega), if_neg (by omega)]
            by_cases hxp : probe ≤ x
            · have hnone : mm.view x = none := hgap (fun r hr hrp => by
                rcases hfirst r hr hrp with rfl | hlater <;> omega) hxp hx
              rw [hnone]
              simp
            · rw [if_neg (by omega)]
          · by_cases hx' : x < ue
            · rw [if_neg (by omega), if_pos (by omega), if_pos (by omega)]
            · have hiff : (ue ≤ x ∧ x < e) ↔ (probe ≤ x ∧ x < e) := by omega
              rw [if_neg (show ¬(ub ≤ x ∧ x < ue) by omega)]
              simp only [hiff]
      · refine ⟨mm, fun fuel hf => ?_, h, hdone fun r hr hrp => ?_⟩
        · obtain ⟨k, rfl⟩ : ∃ k, fuel = k + 1 := ⟨fuel - 1, by omega⟩
          rw [vmMprotectLoop, hfind]
          simp only [if_neg hoe]
        · have hlt := (h.region o ho).lt
          rcases hfirst r hr hrp with rfl | hlater
          · omega
          · omega

end Loops

end Mos.Vm
