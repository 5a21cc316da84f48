import Mos.Vm.Operations

/-!
# Runs of region calls on one address space

`exec` is one call with a bound on its loops, `Returns` says that it ends, and `Requested` states its purpose in terms
of the view alone.  `vm_map_runs` puts the loops together: along any sequence of calls the map stays well formed, and
the next call ends and does what it was asked for.
-/

namespace Mos.Vm

open Lib
open List hiding lookup lookup_append lookup_eq_none_iff

inductive Op
  | addMap (a : MapArgs)
  | mprotect (begin stop : Nat) (newProt : Int)
  | munmap (addr length : Nat)
  | extendMap (begin oldEnd newEnd : Nat)
  | delMap (addr : Nat)

/-- A range that a caller may pass: page-aligned, nonempty, within the machine's addresses. -/
structure RangeOk (arch : Arch) (begin stop : Nat) : Prop where
  lt : begin < stop
  begin_aligned : pageSize ∣ begin
  stop_aligned : pageSize ∣ stop
  stop_lt : stop < 2 ^ arch.vaddrBits

def Op.Valid (arch : Arch) : Op → Prop
  | .addMap a => RangeOk arch a.begin a.stop
  | .mprotect begin stop _ => RangeOk arch begin stop
  | .munmap addr length => addr < 2 ^ arch.vaddrBits ∧ length < 2 ^ arch.vaddrBits
  | .extendMap _ oldEnd newEnd => RangeOk arch oldEnd newEnd
  | .delMap addr => addr < 2 ^ arch.vaddrBits

def exec (arch : Arch) (B : Balancing VmRegion) (fresh fuel : Nat) (mm : MmStruct) : Op → Option (Int × MmStruct)
  | .addMap a => (vmAddMap B fresh fuel mm a).map fun mm => (0, mm)
  | .mprotect begin stop newProt => (vmMprotect B fresh fuel mm begin stop newProt).map fun mm => (0, mm)
  | .munmap addr length => doMunmap arch B fresh fuel mm addr length
  | .extendMap begin oldEnd newEnd => some (vmExtendMap arch mm begin oldEnd newEnd)
  | .delMap addr => some (0, vmDelMap arch B mm addr)

/-- The call ends with result `r` and map `mm'`: its loops need only finitely many rounds. -/
def Returns (arch : Arch) (B : Balancing VmRegion) (fresh : Nat) (mm : MmStruct) (op : Op) (r : Int)
    (mm' : MmStruct) : Prop :=
  ∃ bound, ∀ fuel ≥ bound, exec arch B fresh fuel mm op = some (r, mm')

/-- The bytes that `do_munmap` is asked for, rounded up to whole pages. -/
def roundUp (length : Nat) : Nat := (length + pageSize - 1) / pageSize * pageSize

/-- The purpose of a call, as a change of the view. -/
def Requested (arch : Arch) (fresh : Nat) (mm : MmStruct) (op : Op) (r : Int) (mm' : MmStruct) : Prop :=
  match op with
  | .addMap a => ∀ x, mm'.view x =
      if a.begin ≤ x ∧ x < a.stop
      then some ⟨a.prot, a.flag, a.fp, a.offset + UInt64.ofNat (x - a.begin), a.anonId, fresh⟩ else mm.view x
  | .mprotect begin stop newProt => ∀ x, mm'.view x =
      if begin ≤ x ∧ x < stop then (mm.view x).map (fun t => { t with prot := newProt }) else mm.view x
  | .munmap addr length =>
      if pageOf addr < mm.taskSize ∧ length ≤ mm.taskSize - pageOf addr ∧ arch.userRangeValid (pageOf addr) length
      then r = 0 ∧ ∀ x, mm'.view x =
        if pageOf addr ≤ x ∧ x < pageOf addr + roundUp length then none else mm.view x
      else r = einval ∧ mm' = mm
  | .extendMap begin oldEnd newEnd =>
      (r = 0 ∧ mm' = mm) ∨
      (r = 1 ∧ ∃ region ∈ mm.regions, region.begin = begin ∧ region.stop = oldEnd ∧ ∀ x, mm'.view x =
        if oldEnd ≤ x ∧ x < newEnd then some (region.attrAt x) else mm.view x)
  | .delMap addr =>
      (mm' = mm ∧ mm.view (pageOf addr) = none) ∨
      (∃ region ∈ mm.regions, region.Covers (pageOf addr) ∧ ∀ x, mm'.view x =
        if region.Covers x then none else mm.view x)

/-- What is to be shown of every call. -/
def CallOk (arch : Arch) (B : Balancing VmRegion) (fresh : Nat) (mm : MmStruct) (op : Op) : Prop :=
  ∃ r mm', Returns arch B fresh mm op r mm' ∧ MmOk arch mm' ∧ Requested arch fresh mm op r mm'

variable {begin addr newEnd : Nat} {mm mm' : MmStruct} {o : VmRegion}

section Calls

variable {arch : Arch} {B : Balancing VmRegion} {mm : MmStruct} (h : MmOk arch mm)

include h

private theorem addMap_ok (fresh : Nat) {a : MapArgs} (ha : RangeOk arch a.begin a.stop) :
    CallOk arch B fresh mm (.addMap a) := by
  have hreg : RegionOk arch (({ a with faultLock := none } : MapArgs).region fresh) :=
    { ha with }
  obtain ⟨mm', h1, h2, h4⟩ := vmAddMapWithLock_spec h hreg
  refine ⟨0, mm', ⟨mm.regions.length + 1, fun fuel hf => ?_⟩, h2, h4⟩
  rw [exec, vmAddMap, h1 fuel (countP_le_length.trans_lt hf)]
  rfl

private theorem mprotect_ok (fresh : Nat) {stop : Nat} (newProt : Int) (hr : RangeOk arch begin stop) :
    CallOk arch B fresh mm (.mprotect begin stop newProt) := by
  obtain ⟨mm', h1, h2, h4⟩ := vmMprotectLoop_spec B fresh newProt hr.lt hr.begin_aligned hr.stop_aligned h
    le_rfl (Nat.le_of_lt hr.lt) hr.begin_aligned (.inl rfl)
  refine ⟨0, mm', ⟨mm.regions.length + 1, fun fuel hf => ?_⟩, h2, h4⟩
  rw [exec, vmMprotect, h1 fuel (countP_le_length.trans_lt hf)]
  rfl

omit h in
private theorem pageSize_dvd (arch : Arch) : pageSize ∣ 2 ^ arch.vaddrBits := Nat.pow_dvd_pow 2 arch.bits_ge

omit h in
/-- Within the architecture's user range, the end of an unmapped range does not wrap. -/
theorem munmapEnd_eq {length : Nat} (hv : arch.userRangeValid (pageOf addr) length = true) (hl : length ≠ 0) :
    munmapEnd arch (pageOf addr) length = pageOf addr + roundUp length ∧
      RangeOk arch (pageOf addr) (pageOf addr + roundUp length) := by
  have hrange : pageOf addr < arch.nativeTaskSize ∧ length ≤ arch.nativeTaskSize - pageOf addr := by
    unfold Arch.userRangeValid at hv
    split_ifs at hv with hc
    omega
  obtain ⟨k, hk⟩ := arch.task_aligned
  obtain ⟨m, hm⟩ := pageSize_dvd arch
  have hlt := arch.task_lt
  have hpage : pageOf addr = pageSize * (addr / pageSize) := Nat.mul_comm _ _
  simp only [pageSize] at hk hm hpage
  have hlen : (length + pageSize - 1) % 2 ^ arch.vaddrBits = length + pageSize - 1 := by
    refine Nat.mod_eq_of_lt ?_
    simp only [pageSize]
    omega
  have hend : pageOf addr + roundUp length < 2 ^ arch.vaddrBits := by
    simp only [roundUp, pageSize]
    omega
  refine ⟨?_, ⟨?_, ⟨addr / pageSize, by simpa [pageSize] using hpage⟩, ?_, hend⟩⟩
  · rw [munmapEnd, hlen]
    exact Nat.mod_eq_of_lt hend
  · simp only [roundUp, pageSize]
    omega
  · exact Nat.dvd_add ⟨addr / pageSize, by simpa [pageSize] using hpage⟩ (Nat.dvd_mul_left _ _)

private theorem munmap_ok (fresh : Nat) (addr length : Nat) : CallOk arch B fresh mm (.munmap addr length) := by
  by_cases hcheck : pageOf addr < mm.taskSize ∧ length ≤ mm.taskSize - pageOf addr ∧
      arch.userRangeValid (pageOf addr) length = true
  · have hexec : ∀ fuel, exec arch B fresh fuel mm (.munmap addr length) = if length = 0 then some (0, mm)
        else (munmapLoop B fresh (pageOf addr) (munmapEnd arch (pageOf addr) length) fuel mm).map fun mm =>
          (0, mm) := by
      intro fuel
      rw [exec, doMunmap]
      simp only [hcheck.2.2]
      rw [if_neg (by omega), if_neg (by simp)]
    by_cases hl : length = 0
    · refine ⟨0, mm, ⟨0, fun fuel _ => by rw [hexec, if_pos hl]⟩, h, ?_⟩
      rw [Requested, if_pos hcheck]
      refine ⟨rfl, fun x => ?_⟩
      rw [if_neg]
      subst hl
      simp only [roundUp, pageSize]
      omega
    · obtain ⟨hend, hr⟩ := munmapEnd_eq hcheck.2.2 hl
      obtain ⟨mm', h1, h2, h4⟩ := munmapLoop_spec B fresh hr.lt hr.begin_aligned hr.stop_aligned h
      refine ⟨0, mm', ⟨mm.regions.length + 1, fun fuel hf => ?_⟩, h2, ?_⟩
      · rw [hexec, if_neg hl, hend, h1 fuel (countP_le_length.trans_lt hf)]
        rfl
      · rw [Requested, if_pos hcheck]
        exact ⟨rfl, h4⟩
  · refine ⟨einval, mm, ⟨0, fun fuel _ => ?_⟩, h, ?_⟩
    · rw [exec, doMunmap]
      by_cases h1 : pageOf addr ≥ mm.taskSize ∨ length > mm.taskSize - pageOf addr
      · rw [if_pos h1]
      have h2 : arch.userRangeValid (pageOf addr) length = false := by
        by_contra hv
        exact hcheck ⟨by omega, by omega, by simpa using hv⟩
      rw [if_neg h1, h2]
      rfl
    · rw [Requested, if_neg hcheck]
      exact ⟨rfl, rfl⟩

omit h in
private theorem view_cons (h : MmOk arch mm) {rest : List VmRegion} (hp : mm.regions.Perm (o :: rest)) (x : Nat) :
    mm.view x = if o.Covers x then some (o.attrAt x) else lookup VmRegion.Covers VmRegion.attrAt rest x := by
  rw [MmStruct.view, lookup_perm hp h.apart, lookup, valuesAt_cons]
  split_ifs <;> rfl

/-- Moving the end of a region into free space keeps the map well formed and adds the new range to the view. -/
theorem extend_region (ho : o ∈ mm.regions) (hr : RangeOk arch o.stop newEnd)
    (hfree : ∀ r ∈ mm.regions, ¬Overlaps o.stop newEnd r)
    (hmm' : mm'.regions = mm.regions.map fun r => if r = o then { r with stop := newEnd } else r) :
    MmOk arch mm' ∧ ∀ x, mm'.view x = if o.stop ≤ x ∧ x < newEnd then some (o.attrAt x) else mm.view x := by
  have hok := h.region o ho
  have hlt := hok.lt
  have hnew := hr.lt
  have hmm'ok : MmOk arch mm' := by
    constructor
    · intro r hr'
      rw [hmm', mem_map] at hr'
      obtain ⟨x, hx, rfl⟩ := hr'
      by_cases hxo : x = o
      · rw [if_pos hxo]
        exact ⟨by dsimp only; rw [hxo]; omega, (h.region x hx).begin_aligned, hr.stop_aligned, hr.stop_lt⟩
      · rw [if_neg hxo]
        exact h.region x hx
    · rw [hmm', pairwise_map]
      refine h.sorted.imp_of_mem fun {x y} hx hy hxy => ?_
      have hylt := (h.region y hy).lt
      have hbegin : (if y = o then { y with stop := newEnd } else y).begin = y.begin := by split_ifs <;> rfl
      rw [hbegin]
      by_cases hxo : x = o
      · -- a later region cannot start inside the new range
        rw [if_pos hxo]
        have hno := hfree y hy
        simp only [Overlaps] at hno
        rw [hxo] at hxy
        dsimp only
        omega
      · rw [if_neg hxo]
        exact hxy
  refine ⟨hmm'ok, fun x => ?_⟩
  have hperm := perm_cons_erase ho
  have hnot : o ∉ mm.regions.erase o := by
    intro hmem
    have hpw := (hperm.pairwise_iff fun {_ _} hab => Clear.symm hab).mp h.clear
    have hself := (pairwise_cons.1 hpw).1 o hmem
    unfold Clear at hself
    omega
  have hperm' : mm'.regions.Perm ({ o with stop := newEnd } :: mm.regions.erase o) := by
    rw [hmm']
    refine (hperm.map _).trans ?_
    rw [map_cons, if_pos rfl]
    refine List.Perm.cons _ (List.Perm.of_eq ?_)
    refine (map_congr_left fun r hr' => ?_).trans (map_id _)
    exact if_neg fun hro : r = o => hnot (hro ▸ hr')
  rw [view_cons hmm'ok hperm', view_cons h hperm]
  have hcov : ({ o with stop := newEnd } : VmRegion).Covers x ↔ o.Covers x ∨ (o.stop ≤ x ∧ x < newEnd) := by
    simp only [VmRegion.Covers]
    omega
  by_cases h1 : o.stop ≤ x ∧ x < newEnd
  · rw [if_pos (hcov.2 (.inr h1)), if_pos h1]
    rfl
  rw [if_neg h1]
  by_cases h2 : o.Covers x
  · rw [if_pos (hcov.2 (.inl h2)), if_pos h2]
    rfl
  · rw [if_neg fun hc => (hcov.1 hc).elim h2 h1, if_neg h2]

private theorem extendMap_ok (fresh : Nat) {oldEnd : Nat} (hr : RangeOk arch oldEnd newEnd) :
    CallOk arch B fresh mm (.extendMap begin oldEnd newEnd) := by
  have hsame : vmExtendMap arch mm begin oldEnd newEnd = (0, mm) →
      CallOk arch B fresh mm (.extendMap begin oldEnd newEnd) := fun he =>
    ⟨0, mm, ⟨0, fun fuel _ => by rw [exec, he]⟩, h, .inl ⟨rfl, rfl⟩⟩
  by_cases h1 : begin ≥ oldEnd ∨ oldEnd ≥ newEnd
  · exact hsame (if_pos h1)
  cases hfind : vmFindRegion arch mm begin with
  | none => exact hsame (by rw [vmExtendMap, if_neg h1, hfind])
  | some o =>
    by_cases h2 : o.begin ≠ begin ∨ o.stop ≠ oldEnd
    · refine hsame ?_
      rw [vmExtendMap, if_neg h1, hfind]
      exact if_pos h2
    by_cases h3 : (vmTreeFind mm ⟨oldEnd, newEnd⟩).isSome
    · refine hsame ?_
      rw [vmExtendMap, if_neg h1, hfind]
      dsimp only
      rw [if_neg h2, if_pos h3]
    have ho : o ∈ mm.regions := (vmTreeFind_some hfind).1
    obtain ⟨rfl, rfl⟩ : o.begin = begin ∧ o.stop = oldEnd := by simpa using h2
    have hfree := vmTreeFind_none h (Option.not_isSome_iff_eq_none.1 h3)
    obtain ⟨mm', hexec, hregs⟩ : ∃ mm', vmExtendMap arch mm o.begin o.stop newEnd = (1, mm') ∧
        mm'.regions = mm.regions.map fun r => if r = o then { r with stop := newEnd } else r := by
      refine ⟨{ mm with
        vmaIndex := mm.vmaIndex.map fun r => if r = o then { r with stop := newEnd } else r,
        vmaGeneration := mm.vmaGeneration + 1 }, ?_, Tree.toList_map _ _⟩
      rw [vmExtendMap, if_neg h1, hfind]
      dsimp only
      rw [if_neg h2, if_neg h3]
    obtain ⟨hok, hview⟩ := extend_region h ho hr hfree hregs
    exact ⟨1, mm', ⟨0, fun fuel _ => by rw [exec, hexec]⟩, hok, .inr ⟨rfl, o, ho, rfl, rfl, hview⟩⟩

private theorem delMap_ok (fresh : Nat) (ha : addr < 2 ^ arch.vaddrBits) : CallOk arch B fresh mm (.delMap addr) := by
  have hpage : pageOf (pageOf addr) = pageOf addr := by
    simp only [pageOf, Nat.mul_div_cancel _ (show 0 < pageSize by decide)]
  have hle : pageOf addr ≤ addr := Nat.div_mul_le_self _ _
  have hdvd : pageSize ∣ pageOf addr := Nat.dvd_mul_left _ _
  obtain ⟨m, hm⟩ := pageSize_dvd arch
  obtain ⟨q, hq⟩ := hdvd
  cases hfind : vmFindRegion arch mm (pageOf addr) with
  | none =>
    refine ⟨0, mm, ⟨0, fun fuel _ => by rw [exec, vmDelMap, hfind]⟩, h, .inl ⟨rfl, ?_⟩⟩
    refine lookup_eq_none_iff.2 ?_
    rintro r hr ⟨h1, h2⟩
    have hno := vmTreeFind_none h hfind r hr
    obtain ⟨k, hk⟩ := (h.region r hr).stop_aligned
    have hlt := (h.region r hr).stop_lt
    simp only [Overlaps, hpage] at hno
    -- no region reaches the last page, where the end of the probe wraps
    rw [Nat.mod_eq_of_lt (by simp only [pageSize] at *; omega)] at hno
    simp only [pageSize] at *
    omega
  | some o =>
    obtain ⟨ho, h1, h2⟩ := vmTreeFind_some hfind
    obtain ⟨hok, hperm⟩ := vmTreeRemove_ok h ho
    have hcov : o.Covers (pageOf addr) := by
      obtain ⟨k, hk⟩ := (h.region o ho).begin_aligned
      simp only [hpage] at h1 h2
      by_cases hwrap : pageOf addr + pageSize = 2 ^ arch.vaddrBits
      · rw [hwrap, Nat.mod_self] at h2
        omega
      · rw [Nat.mod_eq_of_lt (by simp only [pageSize] at *; omega)] at h2
        refine ⟨?_, h1⟩
        simp only [pageSize] at *
        omega
    refine ⟨0, vmTreeRemove B mm o, ⟨0, fun fuel _ => by rw [exec, vmDelMap, hfind]⟩, hok, .inr ⟨o, ho, hcov, ?_⟩⟩
    intro x
    rw [view_cons h hperm]
    by_cases hx : o.Covers x
    · rw [if_pos hx, MmStruct.view, lookup_eq_none_iff]
      exact fun r hr => (pairwise_cons.1 ((pairwise_apart_perm hperm).mp h.apart)).1 r hr x hx
    · rw [if_neg hx, if_neg hx]
      rfl

end Calls

variable {arch : Arch} {B : Balancing VmRegion} {op : Op}

theorem call_ok (h : MmOk arch mm) (fresh : Nat) (hv : op.Valid arch) : CallOk arch B fresh mm op := by
  cases op with
  | addMap a => exact addMap_ok h fresh hv
  | mprotect begin stop newProt => exact mprotect_ok h fresh newProt hv
  | munmap addr length => exact munmap_ok h fresh addr length
  | extendMap begin oldEnd newEnd => exact extendMap_ok h fresh hv
  | delMap addr => exact delMap_ok h fresh hv

/-- A call that returns. -/
def Step (arch : Arch) (B : Balancing VmRegion) (mm : MmStruct) (call : Op × Nat × Int) (mm' : MmStruct) : Prop :=
  call.1.Valid arch ∧ Returns arch B call.2.1 mm call.1 call.2.2 mm'

theorem Returns.unique {fresh : Nat} {mm1 mm2 : MmStruct}
    {r1 r2 : Int} (h₁ : Returns arch B fresh mm op r1 mm1) (h₂ : Returns arch B fresh mm op r2 mm2) :
    r1 = r2 ∧ mm1 = mm2 := by
  obtain ⟨n1, h₁⟩ := h₁
  obtain ⟨n2, h₂⟩ := h₂
  have e := (h₁ (n1 + n2) (Nat.le_add_right _ _)).symm.trans (h₂ (n1 + n2) (Nat.le_add_left _ _))
  simpa using e

theorem Step.ok {call : Op × Nat × Int} (h : MmOk arch mm) (hs : Step arch B mm call mm') : MmOk arch mm' := by
  obtain ⟨r, mm'', hret, hok, -⟩ := call_ok h call.2.1 hs.1
  rw [(hs.2.unique hret).2]
  exact hok

/-- From a well-formed map, along any calls: the map is well formed, and the next call returns a well-formed map that
shows the requested change of the view. -/
theorem vm_map_runs (arch : Arch) (B : Balancing VmRegion) (mm₀ : MmStruct) (h₀ : MmOk arch mm₀)
    (calls : List (Op × Nat × Int)) (mm : MmStruct) (hrun : Run (Step arch B) mm₀ calls mm) :
    (∀ r ∈ mm.regions, r.begin < r.stop ∧ pageSize ∣ r.begin ∧ pageSize ∣ r.stop) ∧
    mm.regions.Pairwise (fun a b => a.stop ≤ b.begin ∨ b.stop ≤ a.begin) ∧
    ∀ op fresh, op.Valid arch → ∃ r mm', Returns arch B fresh mm op r mm' ∧ MmOk arch mm' ∧
      Requested arch fresh mm op r mm' := by
  have h : MmOk arch mm := hrun.invariant_state (MmOk arch) h₀ fun t call u ht hs => hs.ok ht
  refine ⟨fun r hr => ?_, h.clear, fun op fresh hv => call_ok h fresh hv⟩
  have hr := h.region r hr
  exact ⟨hr.lt, hr.begin_aligned, hr.stop_aligned⟩

def twoPages : MmStruct :=
  { vmaIndex := .node .leaf ⟨0x1000, 0x3000, 3, 2, none, 0, 0, 5⟩ .leaf, vmaGeneration := 1, taskSize := 0xC0000000 }

theorem vm_map_runs_mprotect :
    MmOk x64 twoPages ∧ ∃ r mm', Returns x64 (.none VmRegion) 7 twoPages (.mprotect 0x2000 0x3000 1) r mm' ∧
      mm'.view 0x1000 = some ⟨3, 2, none, 0, 0, 5⟩ ∧ mm'.view 0x2000 = some ⟨1, 2, none, 0x1000, 0, 5⟩ := by
  have h0 : MmOk x64 twoPages := by
    refine ⟨fun r hr => ?_, pairwise_singleton _ _⟩
    cases mem_singleton.1 hr
    exact ⟨by decide, by decide, by decide, by decide⟩
  have hv : (Op.mprotect 0x2000 0x3000 1).Valid x64 := ⟨by decide, by decide, by decide, by decide⟩
  obtain ⟨r, mm', hret, -, hview⟩ := (vm_map_runs x64 (.none VmRegion) twoPages h0 [] twoPages .nil).2.2 _ 7 hv
  exact ⟨h0, r, mm', hret, (hview _).trans (by decide), (hview _).trans (by decide)⟩

end Mos.Vm
