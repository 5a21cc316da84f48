import Mos.Vm.Mmap

/-!
# The address space as a function of addresses

`MmStruct.view` forgets how the address space is cut into regions: it sends an address to its attributes.  Every
operation of the region code takes one region out and puts parts of it back; `Recut` follows the parts, and
`Recut.view` says what that does to the view.
-/

namespace Mos.Vm

open Lib List VmRegion

def VmRegion.Covers (r : VmRegion) (a : Nat) : Prop := r.begin ≤ a ∧ a < r.stop

instance (r : VmRegion) (a : Nat) : Decidable (r.Covers a) := by
  unfold VmRegion.Covers
  infer_instance

/-- What an address has from its region. -/
structure PageAttr where
  prot : Int
  flag : Int
  fp : Option Nat
  offset : UInt64
  anonId : Nat
  faultLock : Nat
  deriving DecidableEq

def VmRegion.attrAt (r : VmRegion) (a : Nat) : PageAttr :=
  ⟨r.prot, r.flag, r.fp, r.offset + UInt64.ofNat (a - r.begin), r.anonId, r.faultLock⟩

def MmStruct.view (mm : MmStruct) (a : Nat) : Option PageAttr :=
  lookup VmRegion.Covers VmRegion.attrAt mm.regions a

structure RegionOk (arch : Arch) (r : VmRegion) : Prop where
  lt : r.begin < r.stop
  begin_aligned : pageSize ∣ r.begin
  stop_aligned : pageSize ∣ r.stop
  stop_lt : r.stop < 2 ^ arch.vaddrBits

structure MmOk (arch : Arch) (mm : MmStruct) : Prop where
  region : ∀ r ∈ mm.regions, RegionOk arch r
  sorted : mm.regions.Pairwise fun a b => a.stop ≤ b.begin

def Overlaps (begin stop : Nat) (r : VmRegion) : Prop := begin < r.stop ∧ r.begin < stop

instance (begin stop : Nat) (r : VmRegion) : Decidable (Overlaps begin stop r) := by
  unfold Overlaps
  infer_instance

def Clear (a b : VmRegion) : Prop := a.stop ≤ b.begin ∨ b.stop ≤ a.begin

variable {b r : VmRegion} {a : Nat} {key : VmKey}

theorem Clear.symm {a : VmRegion} (h : Clear a b) : Clear b a := Or.symm h

theorem Clear.apart {a : VmRegion} (h : Clear a b) : Apart VmRegion.Covers a b := by
  rintro k ⟨h1, h2⟩ ⟨h3, h4⟩
  rcases h with h | h <;> omega

private theorem compare_lt_iff (key : VmKey) (r : VmRegion) : vmRegionCompare key r.key = .lt ↔
    key.stop ≤ r.begin := by
  unfold vmRegionCompare VmRegion.key
  by_cases h1 : key.stop ≤ r.begin
  · simp [h1]
  · by_cases h2 : key.begin ≥ r.stop <;> simp [h1, h2]

private theorem compare_gt_iff (key : VmKey) (r : VmRegion) :
    vmRegionCompare key r.key = .gt ↔ r.begin < key.stop ∧ r.stop ≤ key.begin := by
  unfold vmRegionCompare VmRegion.key
  by_cases h1 : key.stop ≤ r.begin
  · simp [h1, Nat.not_lt.2 h1]
  · by_cases h2 : key.begin ≥ r.stop
    · simp [h1, h2, Nat.not_le.1 h1]
    · simp [h1, h2]

private theorem compare_eq_iff (key : VmKey) (r : VmRegion) :
    vmRegionCompare key r.key = .eq ↔ Overlaps key.begin key.stop r := by
  unfold vmRegionCompare VmRegion.key Overlaps
  by_cases h1 : key.stop ≤ r.begin
  · simp [h1]
  · by_cases h2 : key.begin ≥ r.stop
    · simp [h1, h2]
    · simp [h1, h2, Nat.not_le.1 h1, Nat.not_le.1 h2]

section Tree

variable {arch : Arch} {B : Balancing VmRegion} {mm : MmStruct} (hmm : MmOk arch mm)

include hmm

theorem MmOk.clear : mm.regions.Pairwise Clear := hmm.sorted.imp .inl

theorem MmOk.apart : mm.regions.Pairwise (Apart VmRegion.Covers) := hmm.clear.imp fun h => h.apart

theorem MmOk.view_of_mem (hr : r ∈ mm.regions) (ha : r.Covers a) :
    mm.view a = some (r.attrAt a) := lookup_of_mem hmm.apart hr ha

theorem MmOk.mem_of_view {t : PageAttr} (h : mm.view a = some t) : ∃ r ∈ mm.regions, r.Covers a ∧ r.attrAt a = t := by
  by_contra hno
  have hnone : mm.view a = none := by
    refine lookup_eq_none_iff.2 fun r hr ha => hno ⟨r, hr, ha, ?_⟩
    exact Option.some.inj ((hmm.view_of_mem hr ha).symm.trans h)
  cases hnone.symm.trans h

theorem MmOk.cut (key : VmKey) : Tree.Cut (fun r => vmRegionCompare key r.key) mm.regions := by
  refine hmm.sorted.imp_of_mem fun {x y} hx hy hxy => ?_
  have hx := (hmm.region x hx).lt
  have hy := (hmm.region y hy).lt
  simp only [compare_lt_iff, compare_gt_iff]
  omega

omit hmm in
theorem vmTreeFind_some (h : vmTreeFind mm key = some r) : r ∈ mm.regions ∧ Overlaps key.begin key.stop r := by
  obtain ⟨h1, h2⟩ := Tree.find_mem h
  exact ⟨h1, (compare_eq_iff key r).mp h2⟩

theorem vmTreeFind_none (h : vmTreeFind mm key = none) : ∀ r ∈ mm.regions, ¬Overlaps key.begin key.stop r := by
  intro r hr hov
  exact Tree.find_eq_none (hmm.cut key) h r hr ((compare_eq_iff key r).mpr hov)

omit hmm in
theorem vmTreeFind_eq_none (h : ∀ r ∈ mm.regions, ¬Overlaps key.begin key.stop r) : vmTreeFind mm key = none := by
  cases hf : vmTreeFind mm key with
  | none => rfl
  | some r =>
    obtain ⟨h1, h2⟩ := vmTreeFind_some hf
    exact absurd h2 (h r h1)

theorem vmTreeRemove_ok (hr : r ∈ mm.regions) :
    MmOk arch (vmTreeRemove B mm r) ∧ mm.regions.Perm (r :: (vmTreeRemove B mm r).regions) := by
  have he : (vmTreeRemove B mm r).regions = mm.regions.erase r := B.erase_toList _ _ hr
  refine ⟨⟨?_, ?_⟩, ?_⟩
  · intro x hx
    rw [he] at hx
    exact hmm.region x (mem_of_mem_erase hx)
  · rw [he]
    exact hmm.sorted.sublist erase_sublist
  · rw [he]
    exact perm_cons_erase hr

theorem vmTreeInsert_ok (hr : RegionOk arch r) (hfree : ∀ x ∈ mm.regions, Clear r x) :
    MmOk arch (vmTreeInsert B mm r) ∧ (vmTreeInsert B mm r).regions.Perm (r :: mm.regions) := by
  have hne : ∀ x ∈ mm.regions, vmRegionCompare r.key x.key ≠ .eq := by
    intro x hx h
    obtain ⟨h1, h2⟩ := (compare_eq_iff r.key x).mp h
    simp only [key] at h1 h2
    rcases hfree x hx with h | h <;> omega
  obtain ⟨t, l1, l2, h1, h2, h3, h4, h5⟩ := Tree.insert_spec r (hmm.cut r.key) hne
  have hregs : (vmTreeInsert B mm r).regions = l1 ++ r :: l2 := by
    unfold vmTreeInsert
    rw [h1]
    exact (B.insertColor_toList t).trans h3
  have hsplit : mm.regions = l1 ++ l2 := h2
  have hleft : ∀ x ∈ l1, x.stop ≤ r.begin := fun x hx => ((compare_gt_iff r.key x).mp (h4 x hx)).2
  have hright : ∀ x ∈ l2, r.stop ≤ x.begin := fun x hx => (compare_lt_iff r.key x).mp (h5 x hx)
  have hs := hmm.sorted
  rw [hsplit, pairwise_append] at hs
  refine ⟨⟨?_, ?_⟩, ?_⟩
  · intro x hx
    rw [hregs, mem_append, mem_cons] at hx
    rcases hx with hx | rfl | hx
    · exact hmm.region x (hsplit ▸ mem_append_left _ hx)
    · exact hr
    · exact hmm.region x (hsplit ▸ mem_append_right _ hx)
  · rw [hregs, pairwise_append, pairwise_cons]
    refine ⟨hs.1, ⟨hright, hs.2.1⟩, ?_⟩
    intro x hx y hy
    rcases mem_cons.1 hy with rfl | hy
    · exact hleft x hx
    · exact hs.2.2 x hx y hy
  · rw [hregs, hsplit]
    exact perm_middle

omit hmm in
theorem vmAddMapWithLock_free {fresh : Nat} {a : MapArgs} (fuel : Nat)
    (hfree : ∀ x ∈ mm.regions, ¬Overlaps a.begin a.stop x) :
    vmAddMapWithLock B fresh (fuel + 1) mm a = some (vmTreeInsert B mm (a.region fresh)) := by
  rw [vmAddMapWithLock, vmTreeFind_eq_none hfree]

end Tree

theorem vmTreeInsert_taskSize {B : Balancing VmRegion} (mm : MmStruct) (r : VmRegion) :
    (vmTreeInsert B mm r).taskSize = mm.taskSize := by
  unfold vmTreeInsert
  split <;> rfl

/-- `mm` is `mm₀` with region `o` replaced by `pieces`. -/
structure Recut (arch : Arch) (mm₀ : MmStruct) (o : VmRegion) (pieces : List VmRegion) (mm : MmStruct) : Prop where
  ok : MmOk arch mm
  task : mm.taskSize = mm₀.taskSize
  perm : ∃ rest, mm₀.regions.Perm (o :: rest) ∧ mm.regions.Perm (pieces ++ rest)

/-- A nonempty part of a region with page-aligned bounds. -/
structure PartOk (o : VmRegion) (begin stop : Nat) : Prop where
  lt : begin < stop
  begin_ge : o.begin ≤ begin
  stop_le : stop ≤ o.stop
  begin_aligned : pageSize ∣ begin
  stop_aligned : pageSize ∣ stop

variable {e : Nat}

section Recutting

variable {arch : Arch} {mm₀ mm : MmStruct} {o : VmRegion} {pieces : List VmRegion} (h0 : MmOk arch mm₀)

include h0

theorem Recut.start (B : Balancing VmRegion) (ho : o ∈ mm₀.regions) : Recut arch mm₀ o [] (vmTreeRemove B mm₀ o) := by
  obtain ⟨h1, h2⟩ := vmTreeRemove_ok h0 ho
  exact ⟨h1, rfl, _, h2, List.Perm.refl _⟩

section

variable (h : Recut arch mm₀ o pieces mm)

include h

theorem Recut.mem (hr : r ∈ mm.regions) : r ∈ pieces ∨ Clear o r := by
  obtain ⟨rest, hperm0, hperm⟩ := h.perm
  have hpw := (hperm0.pairwise_iff fun {_ _} hab => Clear.symm hab).mp h0.clear
  rcases mem_append.1 (hperm.mem_iff.1 hr) with hr | hr
  · exact .inl hr
  · exact .inr ((pairwise_cons.1 hpw).1 r hr)

theorem Recut.add (ho : o ∈ mm₀.regions) (B : Balancing VmRegion) (fresh : Nat)
    (c : Prop) [Decidable c] {b : Nat} (prot : Int) (hpart : c → PartOk o b e)
    (hclear : c → ∀ p ∈ pieces, Clear ((o.part b e prot).region fresh) p) :
    ∃ mm', (∀ fuel, (if c then vmAddMapWithLock B fresh (fuel + 1) mm (o.part b e prot) else some mm) = some mm') ∧
      Recut arch mm₀ o (pieces ++ if c then [(o.part b e prot).region fresh] else []) mm' := by
  by_cases hc : c
  swap
  · simp only [if_neg hc, append_nil]
    exact ⟨mm, fun _ => rfl, h⟩
  simp only [if_pos hc]
  obtain ⟨rest, hperm0, hperm⟩ := h.perm
  have hp := hpart hc
  have hall : ∀ x ∈ mm.regions, Clear ((o.part b e prot).region fresh) x := by
    intro x hx
    rcases h.mem h0 hx with hx | hcl
    · exact hclear hc x hx
    have h1 := hp.begin_ge
    have h2 := hp.stop_le
    rcases hcl with hcl | hcl
    · left
      simp only [MapArgs.region, part]
      omega
    · right
      simp only [MapArgs.region, part]
      omega
  have hok : RegionOk arch ((o.part b e prot).region fresh) :=
    { hp with stop_lt := Nat.lt_of_le_of_lt hp.stop_le (h0.region o ho).stop_lt }
  have hfree : ∀ x ∈ mm.regions, ¬Overlaps b e x := by
    rintro x hx ⟨h1, h2⟩
    rcases hall x hx with hcl | hcl <;> simp only [MapArgs.region, part] at hcl <;> omega
  obtain ⟨h1, h2⟩ := vmTreeInsert_ok h.ok hok hall
  refine ⟨_, fun fuel => vmAddMapWithLock_free fuel hfree, h1, ?_, rest, hperm0, ?_⟩
  · rw [vmTreeInsert_taskSize, h.task]
  · have h3 := h2.trans (hperm.cons _)
    rw [append_assoc]
    exact h3.trans perm_middle.symm

/-- Recutting a region by parts of itself changes the view inside the region only. -/
theorem Recut.view_eq (a : Nat) (hin : ∀ p ∈ pieces, p.Covers a → o.Covers a) :
    mm.view a = if o.Covers a then lookup VmRegion.Covers attrAt pieces a else mm₀.view a := by
  obtain ⟨rest, hperm0, hperm⟩ := h.perm
  exact lookup_recut hperm0 hperm h0.apart h.ok.apart a hin

end

omit h0 in
theorem Recut.countP_lt (h : Recut arch mm₀ o pieces mm) {P Q : VmRegion → Prop} [DecidablePred P] [DecidablePred Q]
    (ho : P o) (hp : ∀ p ∈ pieces, ¬Q p) (hmono : ∀ r, Q r → P r) :
    mm.regions.countP (fun r => decide (Q r)) < mm₀.regions.countP (fun r => decide (P r)) := by
  obtain ⟨rest, hperm0, hperm⟩ := h.perm
  have hz : pieces.countP (fun r => decide (Q r)) = 0 := countP_eq_zero.2 fun p hpp => by simp [hp p hpp]
  have hle : rest.countP (fun r => decide (Q r)) ≤ rest.countP (fun r => decide (P r)) :=
    countP_mono_left fun r _ hr => by simpa using hmono r (by simpa using hr)
  rw [hperm0.countP_eq, hperm.countP_eq, countP_cons_of_pos (by simp [ho]), countP_append, hz]
  omega

end Recutting

/-- A part has the attributes of the whole, but for the protection given to it. -/
theorem part_attrAt (o : VmRegion) {b : Nat} {prot : Int} (fresh : Nat) (hb : o.begin ≤ b) (ha : b ≤ a) :
    ((o.part b e prot).region fresh).attrAt a = { o.attrAt a with prot := prot } := by
  have hoff : o.offset + UInt64.ofNat (b - o.begin) + UInt64.ofNat (a - b) = o.offset +
    UInt64.ofNat (a - o.begin) := by
    rw [UInt64.add_assoc, ← UInt64.ofNat_add]
    congr 2
    omega
  simp [attrAt, MapArgs.region, part, hoff]

end Mos.Vm
