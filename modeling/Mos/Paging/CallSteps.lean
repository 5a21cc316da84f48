import Mos.Paging.FaultSteps

/-!
# Calls are small steps

The loops of the calls on address spaces, as sequences of small steps of the page protocol.  A range is unmapped after
its region has been flushed, so that no page is dirty when it goes; regions are then changed where no page is left.
-/

namespace Mos.Paging

open Lib Vm Function List State Option Config VmRegion

variable {α : Type} {C : Config} {A : Allowed α} {s s' : State α} {a : Nat}

/-- Between two calls the kernel holds no page in its hands. -/
abbrev State.idle (s : State α) : Cfg α := ⟨s, [], []⟩

variable {begin stop va : Nat}

theorem pageRange_bounds (h : va ∈ pageRange begin stop) : begin ≤ va ∧ va < stop := by
  obtain ⟨i, hi, rfl⟩ := mem_map.1 h
  rw [mem_range, Nat.lt_div_iff_mul_lt (by decide)] at hi
  omega

private theorem mem_pageRange (hb : pageSize ∣ begin) (hva : pageSize ∣ va) (h1 : begin ≤ va)
    (h2 : va < stop) : va ∈ pageRange begin stop := by
  obtain ⟨i, hi⟩ := Nat.dvd_sub hva hb
  refine mem_map.2 ⟨i, ?_, by rw [Nat.mul_comm, ← hi]; omega⟩
  rw [mem_range, Nat.lt_div_iff_mul_lt (by decide)]
  unfold pageSize at *
  omega

/-- What write-back leaves alone. -/
structure Flushed (s s' : State α) : Prop where
  ptes : s'.ptes = s.ptes
  mm : s'.mm = s.mm
  dirty : ∀ p, s'.dirty p = true → s.dirty p = true

theorem Flushed.refl (s : State α) : Flushed s s := ⟨rfl, rfl, fun _ h => h⟩

variable {s1 s2 s3 : State α} {e : Pte}

theorem Flushed.trans (h : Flushed s1 s2) (h' : Flushed s2 s3) : Flushed s1 s3 :=
  ⟨h'.ptes.trans h.ptes, h'.mm.trans h.mm, fun p hp => h.dirty p (h'.dirty p hp)⟩

theorem Flushed.clean (h : Flushed s s') {p : Nat} (hp : s.dirty p = false) : s'.dirty p = false := by
  by_contra hd
  rw [h.dirty p (by simpa using hd)] at hp
  cases hp

theorem Inv.owned {pins loose : List Nat} (hinv : Inv C ⟨s, pins, loose⟩) (he : e ∈ s.ptes) {t : PageAttr}
    (ht : s.attr e = some t) (hfl : C.flushes t.flag t.fp = true) : e.direct = false ∧ s.pool.owns e.pfn = true := by
  obtain ⟨-, t', ht', hd, -⟩ := hinv.entry e he
  cases ht.symm.trans ht'
  have hdirect : e.direct = false := by
    rw [hd]
    simp only [flushes, Bool.and_eq_true, Bool.or_eq_true, decide_eq_true_eq] at hfl
    rcases hfl.2 with h | h <;> simp [isDirect, h]
  exact ⟨hdirect, hinv.pool.owned _ (.inl (mem_append_right _ (mem_append_left _ (mem_mapped he hdirect))))⟩

section Region

variable {r : VmRegion} {f : Nat}

open Flushed

theorem flushPage_flushed (file : Nat) (s : State α) (va : Nat) : Flushed s (flushPage C a file r s va) := by
  unfold flushPage
  split
  · exact refl s
  rename_i e _
  split_ifs
  · rw [clearDirty, writePage_eq]
    refine ⟨rfl, rfl, fun p hp => ?_⟩
    replace hp : update s.dirty e.pfn false p = true := hp
    by_cases hpe : p = e.pfn
    · rw [hpe, update_self] at hp
      cases hp
    · rwa [update_of_ne hpe] at hp
  · exact refl s

theorem vmFlushDirtyRegion_flushed (s : State α) (begin stop : Nat) :
    Flushed s (vmFlushDirtyRegion C s a r begin stop) := by
  unfold vmFlushDirtyRegion
  split
  · exact refl s
  · split_ifs
    · exact (foldl_loop (P := Flushed s) (Q := fun _ _ => True) _
        (fun s' va _ h => ⟨h.trans (flushPage_flushed _ s' va), trivial⟩) (fun _ _ _ _ h => h) (refl s)).1
    · exact refl s

private theorem flushPage_steps (hinv : Inv C s.idle) (hr : r ∈ (s.mm a).regions) (hfp : r.fp = some f)
    (hfl : C.flushes r.flag r.fp = true) (hcov : r.Covers va) :
    Reach C A s.idle (flushPage C a (C.fileId f) r s va).idle ∧
      ∀ e, s.pte a va = some e → (flushPage C a (C.fileId f) r s va).dirty e.pfn = false := by
  unfold flushPage
  cases he : s.pte a va with
  | none => exact ⟨.refl, nofun⟩
  | some e =>
    obtain ⟨hmem, rfl, rfl⟩ := pte_some he
    have hattr : s.attr e = some (r.attrAt e.va) := (hinv.mm e.space).view_of_mem hr hcov
    dsimp only
    by_cases hd : s.dirty e.pfn = true
    · rw [if_pos (by simp [(hinv.owned hmem hattr hfl).2, hd])]
      have hflush : Micro C A s.idle
          ((s.writePage C (C.fileId f) (r.attrAt e.va).offset (s.bytes e.pfn)).clearDirty e.pfn).idle :=
        .flush he hattr hfp hfl
      refine ⟨.single hflush, fun x hx => ?_⟩
      cases hx
      exact update_self ..
    · rw [if_neg (by simp [hd])]
      refine ⟨.refl, fun x hx => ?_⟩
      cases hx
      simpa using hd

/-- `vm_flush_dirty_region` leaves no dirty page in the range. -/
theorem vmFlushDirtyRegion_steps (hinv : Inv C s.idle) (hr : r ∈ (s.mm a).regions)
    (hb : pageSize ∣ begin) (h1 : r.begin ≤ begin) (h2 : stop ≤ r.stop) :
    Reach C A s.idle (vmFlushDirtyRegion C s a r begin stop).idle ∧
    (C.flushes r.flag r.fp = true → ∀ e ∈ s.ptes, e.space = a → begin ≤ e.va → e.va < stop →
      (vmFlushDirtyRegion C s a r begin stop).dirty e.pfn = false) := by
  unfold vmFlushDirtyRegion
  cases hfp : r.fp with
  | none => exact ⟨.refl, fun h => by simp [flushes, kindOf] at h⟩
  | some f =>
    dsimp only
    by_cases hfl : C.flushes r.flag (some f) = true
    swap
    · rw [if_neg hfl]
      exact ⟨.refl, fun h => absurd h hfl⟩
    rw [if_pos hfl]
    have hloop := foldl_loop (f := flushPage C a (C.fileId f) r)
      (P := fun s' => Reach C A s.idle s'.idle ∧ Flushed s s')
      (Q := fun va s' => ∀ e, s.pte a va = some e → s'.dirty e.pfn = false) (pageRange begin stop)
      (fun s' va hva hsofar => ?_) (fun s' x y _ hy e he => (flushPage_flushed _ s' x).clean (hy e he))
      ⟨.refl, refl s⟩
    · obtain ⟨⟨hreach, hfs⟩, hclean⟩ := hloop
      refine ⟨hreach, fun _ e he hea hlo hhi => ?_⟩
      exact hclean e.va (mem_pageRange hb (hinv.entry e he).1 hlo hhi) e (hea ▸ hinv.placed.pte_eq he)
    · obtain ⟨hreach, hfs⟩ := hsofar
      obtain ⟨hva1, hva2⟩ := pageRange_bounds hva
      have hr' : r ∈ (s'.mm a).regions := by rw [hfs.mm]; exact hr
      have hcov : r.Covers va := ⟨by omega, by omega⟩
      obtain ⟨hstep, hd⟩ := flushPage_steps (hinv.reach hreach) hr' hfp (hfp ▸ hfl) hcov
      refine ⟨⟨hreach.trans hstep, hfs.trans (flushPage_flushed _ s' va)⟩, fun e he => hd e ?_⟩
      rw [pte, hfs.ptes]
      exact he

end Region

section

variable (hinv : Inv C s.idle)

include hinv

/-- The loop over the regions of an address space that flushes those with `keep`. -/
theorem flushRegions_steps (keep : VmRegion → Bool) :
    let s' := (s.mm a).regions.foldl (fun s r =>
      if keep r then vmFlushDirtyRegion C s a r r.begin r.stop else s) s
    Reach C A s.idle s'.idle ∧ Flushed s s' ∧
    ∀ r ∈ (s.mm a).regions, keep r = true → C.flushes r.flag r.fp = true →
      ∀ e ∈ s.ptes, e.space = a → r.Covers e.va → s'.dirty e.pfn = false := by
  intro s'
  have hloop := foldl_loop (f := fun s r => if keep r then vmFlushDirtyRegion C s a r r.begin r.stop else s)
    (P := fun s' => Reach C A s.idle s'.idle ∧ Flushed s s')
    (Q := fun r s' => keep r = true → C.flushes r.flag r.fp = true → ∀ e ∈ s.ptes, e.space = a → r.Covers e.va →
      s'.dirty e.pfn = false)
    (s.mm a).regions (fun s1 r hr ⟨hreach, hfs⟩ => ?_) (fun s1 r y hP hy hk hfl e he hea hcov => ?_)
    ⟨.refl, Flushed.refl s⟩
  · exact ⟨hloop.1.1, hloop.1.2, hloop.2⟩
  · by_cases hk : keep r = true
    · have hr1 : r ∈ (s1.mm a).regions := by rw [hfs.mm]; exact hr
      obtain ⟨h1, h2⟩ := vmFlushDirtyRegion_steps (hinv.reach hreach) hr1
        ((hinv.mm a).region r hr).begin_aligned le_rfl le_rfl
      rw [if_pos hk]
      refine ⟨⟨hreach.trans h1, hfs.trans (vmFlushDirtyRegion_flushed s1 _ _)⟩, fun _ hfl e he hea hcov => ?_⟩
      exact h2 hfl e (by rw [hfs.ptes]; exact he) hea hcov.1 hcov.2
    · rw [if_neg hk]
      exact ⟨⟨hreach, hfs⟩, fun h => absurd h hk⟩
  · have hd := hy hk hfl e he hea hcov
    split_ifs
    · exact (vmFlushDirtyRegion_flushed s1 _ _).clean hd
    · exact hd

theorem vmFlushAllDirty_steps : Reach C A s.idle (vmFlushAllDirty C s a).idle ∧ Flushed s (vmFlushAllDirty C s a) ∧
    ∀ e ∈ s.ptes, e.space = a → ∀ t, s.attr e = some t → C.flushes t.flag t.fp = true →
      (vmFlushAllDirty C s a).dirty e.pfn = false := by
  obtain ⟨h1, h2, h3⟩ := flushRegions_steps hinv fun _ => true
  refine ⟨h1, h2, fun e he hea t ht hfl => ?_⟩
  subst hea
  obtain ⟨r, hr, hcov, rfl⟩ := (hinv.mm e.space).mem_of_view ht
  exact h3 r hr rfl hfl e he rfl hcov

theorem vmFlushFileDirty_steps (f : Nat) :
    let s' := vmFlushFileDirty C s a f
    Reach C A s.idle s'.idle ∧ Flushed s s' ∧
    ∀ e ∈ s.ptes, e.space = a → ∀ t g, s.attr e = some t → C.flushes t.flag t.fp = true → t.fp = some g →
      C.fileId g = C.fileId f → s'.dirty e.pfn = false := by
  obtain ⟨h1, h2, h3⟩ := flushRegions_steps hinv fun r =>
    r.fp.any fun g => decide (C.fileId g = C.fileId f)
  refine ⟨h1, h2, fun e he hea t g ht hfl hg hid => ?_⟩
  subst hea
  obtain ⟨r, hr, hcov, rfl⟩ := (hinv.mm e.space).mem_of_view ht
  exact h3 r hr (by simp [show r.fp = some g from hg, hid]) hfl e he rfl hcov

end

/-! ### Unmapping -/

/-- What unmapping leaves alone. -/
structure Shrunk (s s' : State α) : Prop where
  mm : s'.mm = s.mm
  dirty : s'.dirty = s.dirty
  log : s'.log = s.log
  ptes : ∀ e ∈ s'.ptes, e ∈ s.ptes

theorem Shrunk.refl (s : State α) : Shrunk s s := ⟨rfl, rfl, rfl, fun _ h => h⟩

theorem Shrunk.trans (h : Shrunk s1 s2) (h' : Shrunk s2 s3) : Shrunk s1 s3 :=
  ⟨h'.mm.trans h.mm, h'.dirty.trans h.dirty, h'.log.trans h.log, fun e he => h.ptes e (h'.ptes e he)⟩

section

variable (s : State α)

theorem release_eq (e : Pte) : s.release e = { s with pool := (s.release e).pool } := by
  unfold release
  split_ifs <;> rfl

theorem clear_shrunk (e : Pte) : Shrunk s ((s.clearPte e.space e.va).release e) := by
  rw [release_eq]
  exact ⟨rfl, rfl, rfl, fun x hx => mem_of_mem_eraseP hx⟩

private theorem unmapPage_shrunk (va : Nat) : Shrunk s (s.unmapPage a va) := by
  unfold unmapPage
  cases he : s.pte a va with
  | none => exact Shrunk.refl s
  | some e =>
    obtain ⟨-, rfl, rfl⟩ := pte_some he
    exact clear_shrunk s e

theorem unmapRange_shrunk (begin stop : Nat) : Shrunk s (unmapRange s a begin stop) :=
  (foldl_loop (Q := fun _ _ => True) _ (fun s' va _ h => ⟨h.trans (unmapPage_shrunk s' va), trivial⟩)
    (fun _ _ _ _ h => h) (Shrunk.refl s)).1

end

/-- The pages of a range can be unmapped if none of them would have to be written back. -/
theorem unmapRange_steps (hinv : Inv C s.idle) (stop : Nat) (hb : pageSize ∣ begin)
    (hclean : ∀ e ∈ s.ptes, e.space = a → begin ≤ e.va → e.va < stop → ∀ t, s.attr e = some t →
      C.flushes t.flag t.fp = true → s.dirty e.pfn = false) :
    Reach C A s.idle (unmapRange s a begin stop).idle ∧
    ∀ e ∈ (unmapRange s a begin stop).ptes, ¬(e.space = a ∧ begin ≤ e.va ∧ e.va < stop) := by
  have hone : ∀ s1 va, Reach C A s.idle s1.idle → Shrunk s s1 → begin ≤ va → va < stop →
      Reach C A s1.idle (s1.unmapPage a va).idle := by
    intro s1 va hreach hsh h1 h2
    unfold unmapPage
    cases he : s1.pte a va with
    | none => exact .refl
    | some e =>
      obtain ⟨hmem, rfl, rfl⟩ := pte_some he
      refine .single (.unmap he fun t ht hfl => .inl ?_)
      rw [attr, hsh.mm] at ht
      rw [hsh.dirty]
      exact hclean e (hsh.ptes e hmem) rfl h1 h2 t ht hfl
  have hloop := foldl_loop (f := fun (s : State α) va => s.unmapPage a va)
    (P := fun s' => Reach C A s.idle s'.idle ∧ Shrunk s s')
    (Q := fun va s' => ∀ e ∈ s'.ptes, ¬(e.space = a ∧ e.va = va)) (pageRange begin stop)
    (fun s1 va hva hsofar => ?_) (fun s1 x y _ hy e he => hy e ((unmapPage_shrunk s1 x).ptes e he))
    ⟨.refl, Shrunk.refl s⟩
  · obtain ⟨⟨hreach, hsh⟩, hgone⟩ := hloop
    refine ⟨hreach, fun e he hat => ?_⟩
    obtain ⟨hea, h1, h2⟩ := hat
    exact hgone e.va (mem_pageRange hb (hinv.entry e (hsh.ptes e he)).1 h1 h2) e he ⟨hea, rfl⟩
  · obtain ⟨hreach, hsh⟩ := hsofar
    obtain ⟨h1, h2⟩ := pageRange_bounds hva
    refine ⟨⟨hreach.trans (hone s1 va hreach hsh h1 h2), hsh.trans (unmapPage_shrunk s1 va)⟩, ?_⟩
    unfold unmapPage
    cases he : s1.pte a va with
    | none => exact pte_none he
    | some e =>
      rintro x hx hat
      dsimp only at hx
      rw [release_eq] at hx
      exact ((hinv.reach hreach).placed.mem_eraseP.1 hx).2 hat

/-! ### Changes of the region map -/

theorem cut_mm (s : State α) (a : Nat) (o : VmRegion) (lo hi : Nat) :
    (unmapRange (vmFlushDirtyRegion C s a o lo hi) a lo hi).mm = s.mm :=
  (unmapRange_shrunk _ lo hi).mm.trans (vmFlushDirtyRegion_flushed s lo hi).mm

/-- Flush a part of a region, unmap its pages, and take it out of the region map. -/
def State.cut (C : Config) (s : State α) (a : Nat) (o : VmRegion) (lo hi : Nat) (mm : MmStruct) : State α :=
  (unmapRange (vmFlushDirtyRegion C s a o lo hi) a lo hi).setMm a mm

/-- `[lo, hi)` is a part of the region `o`, and `mm` the region map without it. -/
structure Cut (C : Config) (s : State α) (a : Nat) (o : VmRegion) (lo hi : Nat) (mm : MmStruct) : Prop where
  mem : o ∈ (s.mm a).regions
  aligned : pageSize ∣ lo
  begin_le : o.begin ≤ lo
  le_stop : hi ≤ o.stop
  ok : MmOk C.arch mm
  view : ∀ x, mm.view x = if lo ≤ x ∧ x < hi then none else (s.mm a).view x

section Cut

variable {o : VmRegion} {lo hi : Nat} {mm : MmStruct}

/-- The pages of a cut are clean when they are unmapped, and then none of them is left. -/
theorem Cut.steps (hcut : Cut C s a o lo hi mm) (hinv : Inv C s.idle) :
    let s' := vmFlushDirtyRegion C s a o lo hi
    Reach C A s.idle (unmapRange s' a lo hi).idle ∧
      (∀ e ∈ (unmapRange s' a lo hi).ptes, ¬(e.space = a ∧ lo ≤ e.va ∧ e.va < hi)) ∧
      (C.flushes o.flag o.fp = true → ∀ e ∈ s.ptes, e.space = a → lo ≤ e.va → e.va < hi →
        s'.dirty e.pfn = false) := by
  obtain ⟨hflush, hclean⟩ := vmFlushDirtyRegion_steps (A := A) hinv hcut.mem hcut.aligned hcut.begin_le hcut.le_stop
  have hfs := vmFlushDirtyRegion_flushed (C := C) (a := a) (r := o) s lo hi
  have hle := hcut.begin_le
  have hstop := hcut.le_stop
  obtain ⟨hunmap, hgone⟩ := unmapRange_steps (a := a) (hinv.reach hflush) hi hcut.aligned
    fun e he hea he1 he2 t ht hfl => by
      subst hea
      rw [hfs.ptes] at he
      rw [attr, hfs.mm, (hinv.mm e.space).view_of_mem hcut.mem ⟨by omega, by omega⟩] at ht
      cases ht
      exact hclean hfl e he rfl he1 he2
  exact ⟨hflush.trans hunmap, hgone, hclean⟩

theorem Cut.reach (hcut : Cut C s a o lo hi mm) (hinv : Inv C s.idle) :
    Reach C A s.idle (s.cut C a o lo hi mm).idle := by
  obtain ⟨hsteps, hgone, -⟩ := hcut.steps hinv
  have hmm := cut_mm (C := C) s a o lo hi
  refine hsteps.tail (.remap hcut.ok (fun e he hea => ?_) fun x t hx => .inl ⟨a, ?_⟩)
  · rw [hcut.view, hmm, if_neg fun hin => hgone e he ⟨hea, hin⟩]
  · rw [hcut.view] at hx
    split_ifs at hx
    rw [hmm]
    exact hx

end Cut

/-- The loops over the regions in the way: `[begin, stop)` is cut until no region meets it. -/
inductive Cuts (C : Config) (a begin stop : Nat) : State α → State α → Prop
  | done {s : State α} : vmTreeFind (s.mm a) ⟨begin, stop⟩ = none → Cuts C a begin stop s s
  | cut {s s' : State α} {o : VmRegion} {lo hi : Nat} {mm : MmStruct} : Cut C s a o lo hi mm → begin ≤ lo →
      hi ≤ stop →
    Cuts C a begin stop (s.cut C a o lo hi mm) s' → Cuts C a begin stop s s'

theorem Cuts.reach (hcuts : Cuts C a begin stop s s') (hinv : Inv C s.idle) : Reach C A s.idle s'.idle := by
  induction hcuts with
  | done _ => exact .refl
  | cut hcut _ _ _ ih =>
    have hstep := hcut.reach (A := A) hinv
    exact hstep.trans (ih (hinv.reach hstep))

theorem Cuts.find_none (hcuts : Cuts C a begin stop s s') : vmTreeFind (s'.mm a) ⟨begin, stop⟩ = none := by
  induction hcuts with
  | done h => exact h
  | cut _ _ _ _ ih => exact ih

private theorem insert_reach (hinv : Inv C s.idle) (fresh : Nat) (args : MapArgs)
    (hargs : RegionOk C.arch (args.region fresh)) (hfind : vmTreeFind (s.mm a) ⟨args.begin, args.stop⟩ = none)
    (hA : ∀ x, args.begin ≤ x → x < args.stop →
      (∃ b, (s.mm b).view x = some ((args.region fresh).attrAt x)) ∨ A.attr x ((args.region fresh).attrAt x)) :
    Reach C A s.idle (s.setMm a (vmTreeInsert C.balancing (s.mm a) (args.region fresh))).idle := by
  obtain ⟨hok, -, hview⟩ := insert_view C.balancing fresh (hinv.mm a) hargs hfind
  refine .single (.remap hok (fun e he hea => ?_) fun x t hx => ?_)
  · -- a page is mapped inside a region, and no region meets the new one
    subst hea
    obtain ⟨-, t, ht, -⟩ := hinv.entry e he
    obtain ⟨r, hr, ⟨hc1, hc2⟩, -⟩ := (hinv.mm e.space).mem_of_view ht
    rw [hview, if_neg]
    rintro ⟨hx1, hx2⟩
    exact vmTreeFind_none (hinv.mm e.space) hfind r hr ⟨by dsimp only; omega, by dsimp only; omega⟩
  · rw [hview] at hx
    split_ifs at hx with hin
    · cases hx
      exact hA x hin.1 hin.2
    · exact .inl ⟨a, hx⟩

variable {fresh : Nat} {args : MapArgs} {o : VmRegion}

section

variable (hinv : Inv C s.idle)

include hinv

private theorem vmAddMap_round (hargs : RegionOk C.arch (args.region fresh))
    (hfind : vmTreeFind (s.mm a) ⟨args.begin, args.stop⟩ = some o) :
    ∃ lo hi mm, Cut C s a o lo hi mm ∧ args.begin ≤ lo ∧ hi ≤ args.stop ∧
      (∀ fuel, vmAddMap C fresh a args (fuel + 1) s = vmAddMap C fresh a args fuel (s.cut C a o lo hi mm)) ∧
      ∀ fuel, vmAddMapWithLock C.balancing fresh (fuel + 2) (s.mm a) args =
        vmAddMapWithLock C.balancing fresh (fuel + 1) ((s.cut C a o lo hi mm).mm a) args := by
  obtain ⟨ho, hov⟩ := vmTreeFind_some hfind
  obtain ⟨lo, hi, hlo, hhi, hlo', -, i1, i2, -, i4, i5, -⟩ :=
    clip (b := args.begin) (e := args.stop) ((hinv.mm a).region o ho) hov hargs.lt hargs.begin_aligned
      hargs.stop_aligned
  obtain ⟨mm1, mm2, e1, e2, hr⟩ := cut_step C.balancing fresh (hinv.mm a) ho (b := args.begin)
    (e := args.stop) hargs.lt hov hargs.begin_aligned hargs.stop_aligned
  refine ⟨lo, hi, mm2, ⟨ho, hlo', i1, i4, hr.ok, fun x => ?_⟩, i2, i5, fun fuel => ?_, fun fuel => ?_⟩
  · rw [outside_view (hinv.mm a) ho hov hr x]
    congr 1
    rw [hlo, hhi]
    unfold VmRegion.Covers
    split_ifs <;> simp only [eq_iff_iff] <;> omega
  · rw [vmAddMap, hfind]
    simp [← hlo, ← hhi, cut_mm, e1, e2, cut]
  · rw [vmAddMapWithLock, hfind, cut, setMm_self]
    simp [e1, e2]

theorem vmAddMap_cuts (args : MapArgs) (hargs : RegionOk C.arch (args.region fresh)) (fuel : Nat)
    (h : vmAddMap C fresh a args fuel s = some s') : ∃ s1, Cuts C a args.begin args.stop s s1 ∧
      s' = s1.setMm a (vmTreeInsert C.balancing (s1.mm a) (args.region fresh)) := by
  induction fuel generalizing s with
  | zero => cases h
  | succ fuel ih =>
    cases hfind : vmTreeFind (s.mm a) ⟨args.begin, args.stop⟩ with
    | none =>
      rw [vmAddMap, hfind] at h
      cases h
      exact ⟨s, .done hfind, rfl⟩
    | some o =>
      obtain ⟨lo, hi, mm, hcut, hlo, hhi, hround, -⟩ := vmAddMap_round hinv hargs hfind
      rw [hround] at h
      obtain ⟨s1, hcuts, heq⟩ := ih (hinv.reach (hcut.reach (A := Allowed.all) hinv)) h
      exact ⟨s1, .cut hcut hlo hhi hcuts, heq⟩

private theorem vmAddMap_reach (args : MapArgs) (hargs : RegionOk C.arch (args.region fresh))
    (hA : ∀ x, args.begin ≤ x → x < args.stop → A.attr x ((args.region fresh).attrAt x)) (fuel : Nat)
    (h : vmAddMap C fresh a args fuel s = some s') : Reach C A s.idle s'.idle := by
  obtain ⟨s1, hcuts, rfl⟩ := vmAddMap_cuts hinv args hargs fuel h
  have hsteps := hcuts.reach (A := A) hinv
  exact hsteps.trans (insert_reach (hinv.reach hsteps) fresh args hargs hcuts.find_none fun x h1 h2 =>
    .inr (hA x h1 h2))

private theorem munmapLoop_round (hlt : begin < stop) (hb : pageSize ∣ begin) (he : pageSize ∣ stop)
    (hfind : vmTreeFind (s.mm a) ⟨begin, stop⟩ = some o) :
    ∃ lo hi mm, Cut C s a o lo hi mm ∧ begin ≤ lo ∧ hi ≤ stop ∧ ∀ fuel, munmapLoop C fresh a begin stop (fuel + 1) s =
        munmapLoop C fresh a begin stop fuel (s.cut C a o lo hi mm) := by
  obtain ⟨ho, hov⟩ := vmTreeFind_some hfind
  obtain ⟨lo, hi, hlo, hhi, hlo', hhi', i1, i2, i3, i4, i5, -⟩ := clip ((hinv.mm a).region o ho) hov hlt hb he
  have hov' : Overlaps lo hi o := ⟨by omega, by omega⟩
  obtain ⟨mm1, mm2, e1, e2, hr⟩ := cut_step C.balancing fresh (hinv.mm a) ho i3 hov' hlo' hhi'
  refine ⟨lo, hi, mm2, ⟨ho, hlo', i1, i4, hr.ok, fun x => ?_⟩, i2, i5, fun fuel => ?_⟩
  · rw [outside_view (hinv.mm a) ho hov' hr x]
    congr 1
    unfold VmRegion.Covers
    simp only [eq_iff_iff]
    omega
  · rw [munmapLoop, hfind]
    simp [← hlo, ← hhi, cut_mm, e1, e2, cut]

private theorem munmapLoop_cuts (hlt : begin < stop) (hb : pageSize ∣ begin) (he : pageSize ∣ stop)
    (fuel : Nat) (h : munmapLoop C fresh a begin stop fuel s = some s') : Cuts C a begin stop s s' := by
  induction fuel generalizing s with
  | zero => cases h
  | succ fuel ih =>
    cases hfind : vmTreeFind (s.mm a) ⟨begin, stop⟩ with
    | none =>
      rw [munmapLoop, hfind] at h
      cases h
      exact .done hfind
    | some o =>
      obtain ⟨lo, hi, mm, hcut, hlo, hhi, hround⟩ := munmapLoop_round hinv hlt hb he hfind
      rw [hround] at h
      exact .cut hcut hlo hhi (ih (hinv.reach (hcut.reach (A := Allowed.all) hinv)) h)

end

/-- The checks of `do_munmap` pass, and there is something to do. -/
def MunmapOk (C : Config) (s : State α) (a addr length : Nat) : Prop :=
  pageOf addr < (s.mm a).taskSize ∧ length ≤ (s.mm a).taskSize - pageOf addr ∧
    C.arch.userRangeValid (pageOf addr) length = true ∧ length ≠ 0

variable {fuel addr length cursor b x : Nat} {res : Int} {r : VmRegion}

theorem doMunmap_cuts (hinv : Inv C s.idle) (h : doMunmap C fresh a fuel s addr length = some (s', res)) :
    MunmapOk C s a addr length ∧ Cuts C a (pageOf addr) (munmapEnd C.arch (pageOf addr) length) s s' ∨
      ¬MunmapOk C s a addr length ∧ s' = s := by
  unfold doMunmap at h
  dsimp only at h
  split_ifs at h with h1 h2 h3
  · cases h
    exact .inr ⟨fun hok => by have := hok.1; have := hok.2.1; omega, rfl⟩
  · cases h
    exact .inr ⟨fun hok => by simp [hok.2.2.1] at h2, rfl⟩
  · cases h
    exact .inr ⟨fun hok => hok.2.2.2 h3, rfl⟩
  obtain ⟨s1, hloop, heq⟩ := map_eq_some_iff.1 h
  cases heq
  have hv : C.arch.userRangeValid (pageOf addr) length = true := by simpa using h2
  obtain ⟨hend, hrange⟩ := munmapEnd_eq hv h3
  rw [hend] at hloop ⊢
  exact .inl ⟨⟨by omega, by omega, hv, h3⟩,
    munmapLoop_cuts hinv hrange.lt hrange.begin_aligned hrange.stop_aligned fuel hloop⟩

private theorem doMunmap_reach (hinv : Inv C s.idle)
    (h : doMunmap C fresh a fuel s addr length = some (s', res)) : Reach C A s.idle s'.idle := by
  rcases doMunmap_cuts hinv h with ⟨-, hcuts⟩ | ⟨-, rfl⟩
  · exact hcuts.reach hinv
  · exact .refl

private theorem madviseLoop_stops (fuel : Nat) (result : Int)
    (h : ¬∃ r, cursor < stop ∧ vmFindVma (s.mm a) cursor = some r ∧ r.begin < stop ∧ C.isDirect r.fp = false) :
    ∃ res, madviseLoop C a stop (fuel + 1) s cursor result = some (s, res) := by
  rw [madviseLoop]
  by_cases hlt : cursor < stop
  swap
  · rw [if_neg hlt]
    exact ⟨_, rfl⟩
  rw [if_pos hlt]
  cases hfind : vmFindVma (s.mm a) cursor with
  | none => exact ⟨_, rfl⟩
  | some r =>
    dsimp only
    by_cases hout : r.begin ≥ stop
    · rw [if_pos hout]
      exact ⟨_, rfl⟩
    · rw [if_neg hout, if_pos]
      · exact ⟨_, rfl⟩
      · by_contra hdir
        exact h ⟨r, hlt, hfind, Nat.not_le.1 hout, by simpa using hdir⟩

/-- The file of a shared region is flushed before pages of the region go. -/
theorem madviseRange_reach (hinv : Inv C s.idle) (hr : r ∈ (s.mm a).regions) {lo hi : Nat}
    (hlo : pageSize ∣ lo) (h1 : r.begin ≤ lo) (h2 : hi ≤ r.stop) :
    Reach C A s.idle (unmapRange (match r.fp with
      | some f => if isShared r.flag then vmFlushFileDirty C s a f else s
      | none => s) a lo hi).idle := by
  have hattr : ∀ e : Pte, e.space = a → lo ≤ e.va → e.va < hi → s.attr e = some (r.attrAt e.va) := by
    rintro e rfl he1 he2
    exact (hinv.mm e.space).view_of_mem hr ⟨by omega, by omega⟩
  cases hfp : r.fp with
  | none =>
    refine (unmapRange_steps hinv hi hlo fun e he hea he1 he2 t ht hfl => ?_).1
    cases (hattr e hea he1 he2).symm.trans ht
    simp [attrAt, hfp, flushes, kindOf] at hfl
  | some f =>
    dsimp only
    by_cases hsh : isShared r.flag = true
    · rw [if_pos hsh]
      obtain ⟨hflush, hfs, hclean⟩ := vmFlushFileDirty_steps hinv f
      refine hflush.trans (unmapRange_steps (hinv.reach hflush) hi hlo fun e he hea he1 he2 t ht hfl => ?_).1
      rw [hfs.ptes] at he
      rw [attr, hfs.mm] at ht
      cases (hattr e hea he1 he2).symm.trans ht
      exact hclean e he hea _ f ht hfl hfp rfl
    · rw [if_neg hsh]
      refine (unmapRange_steps hinv hi hlo fun e he hea he1 he2 t ht hfl => ?_).1
      cases (hattr e hea he1 he2).symm.trans ht
      simp [attrAt, flushes, hsh] at hfl

private theorem madviseLoop_round (hinv : Inv C s.idle) (hlt : cursor < stop)
    (hcur : pageSize ∣ cursor) (hfind : vmFindVma (s.mm a) cursor = some r) (hin : r.begin < stop)
    (hdir : C.isDirect r.fp = false) (result : Int) :
    ∃ s1 hi result', Reach C A s.idle s1.idle ∧ s1.mm = s.mm ∧ (hi = r.stop ∧ pageSize ∣ hi ∨ stop ≤ hi) ∧
      ∀ fuel, madviseLoop C a stop (fuel + 1) s cursor result = madviseLoop C a stop fuel s1 hi result' := by
  obtain ⟨hr, hstop, -⟩ := vmFindVma_some (hinv.mm a) hcur hfind
  have hreg := (hinv.mm a).region r hr
  obtain ⟨lo, hlo⟩ : ∃ lo, lo = if r.begin > cursor then r.begin else cursor := ⟨_, rfl⟩
  obtain ⟨hi, hhi⟩ : ∃ hi, hi = if r.stop < stop then r.stop else stop := ⟨_, rfl⟩
  have hlo' : pageSize ∣ lo ∧ r.begin ≤ lo := by
    rw [hlo]
    split_ifs with hc
    · exact ⟨hreg.begin_aligned, le_rfl⟩
    · exact ⟨hcur, by omega⟩
  have hhi' : (hi = r.stop ∧ pageSize ∣ hi ∨ stop ≤ hi) ∧ hi ≤ r.stop := by
    rw [hhi]
    split_ifs with hc
    · exact ⟨.inl ⟨rfl, hreg.stop_aligned⟩, le_rfl⟩
    · exact ⟨.inr le_rfl, by omega⟩
  refine ⟨_, hi, if r.begin > cursor then enomem else result, madviseRange_reach hinv hr hlo'.1 hlo'.2 hhi'.2, ?_,
    hhi'.1, fun fuel => ?_⟩
  · refine (unmapRange_shrunk _ lo hi).mm.trans ?_
    split
    · split_ifs
      · exact (vmFlushFileDirty_steps (A := Allowed.all) hinv _).2.1.mm
      · rfl
    · rfl
  · subst hlo hhi
    rw [madviseLoop, if_pos hlt, hfind]
    exact (if_neg (Nat.not_le.2 hin)).trans (if_neg (by simp [hdir]))

private theorem madviseLoop_reach (fuel : Nat) {result : Int} (hcur : pageSize ∣ cursor ∨ stop ≤ cursor)
    (hinv : Inv C s.idle) (h : madviseLoop C a stop fuel s cursor result = some (s', res)) :
    Reach C A s.idle s'.idle := by
  induction fuel generalizing s cursor result with
  | zero => cases h
  | succ fuel ih =>
    by_cases hgo : ∃ r, cursor < stop ∧ vmFindVma (s.mm a) cursor = some r ∧ r.begin < stop ∧ C.isDirect r.fp = false
    · obtain ⟨r, hlt, hfind, hin, hdir⟩ := hgo
      obtain ⟨s1, hi, res', hstep, -, hhi, hround⟩ := madviseLoop_round hinv hlt
        (hcur.resolve_right (by omega)) hfind hin hdir result
      rw [hround] at h
      exact hstep.trans (ih (hhi.imp (fun h => h.2) id) (hinv.reach hstep) h)
    · obtain ⟨res', hdone⟩ := madviseLoop_stops fuel result hgo
      cases hdone.symm.trans h
      exact .refl

private theorem sysMadvise_reach (hinv : Inv C s.idle)
    (h : sysMadvise C a fuel s begin length = some (s', res)) : Reach C A s.idle s'.idle := by
  unfold sysMadvise at h
  split_ifs at h with h1 h2
  · cases h
    exact .refl
  · cases h
    exact .refl
  · exact madviseLoop_reach fuel (.inl (Nat.dvd_of_mod_eq_zero (by omega))) hinv h

theorem empty_ok (arch : Arch) (mm : MmStruct) (h : mm.regions = []) : MmOk arch mm ∧ ∀ x, mm.view x = none := by
  refine ⟨⟨fun r hr => ?_, ?_⟩, fun x => lookup_eq_none_iff.2 fun r hr => ?_⟩
  · rw [h] at hr
    cases hr
  · rw [h]
    exact .nil
  · rw [h] at hr
    cases hr

private theorem clearAll_steps (l : List Pte) (hinv : Inv C s.idle) (hl : Placed l) (hmem : ∀ e ∈ l, e ∈ s.ptes)
    (hclean : ∀ e ∈ l, ∀ t, s.attr e = some t → C.flushes t.flag t.fp = true →
      s.dirty e.pfn = false ∨ A.forget s.log e.space e.va) :
    let s' := l.foldl (fun s e => (s.clearPte e.space e.va).release e) s
    Reach C A s.idle s'.idle ∧ Shrunk s s' ∧ ∀ e ∈ s'.ptes, e ∉ l := by
  induction l generalizing s with
  | nil => exact ⟨.refl, Shrunk.refl s, nofun⟩
  | cons x l ih =>
    have hx := hinv.placed.pte_eq (hmem x mem_cons_self)
    have hstep : Reach C A s.idle ((s.clearPte x.space x.va).release x).idle :=
      .single (.unmap hx (hclean x mem_cons_self))
    have hsh := clear_shrunk s x
    have hptes : ((s.clearPte x.space x.va).release x).ptes = s.ptes.eraseP (Pte.isAt x.space x.va) := by
      rw [release_eq]
      rfl
    obtain ⟨hrel, hl'⟩ := pairwise_cons.1 hl
    obtain ⟨h1, h2, h3⟩ := ih (hinv.reach hstep) hl'
      (fun e he => by
        rw [hptes]
        refine hinv.placed.mem_eraseP.2 ⟨hmem e (mem_cons_of_mem _ he), fun hat => ?_⟩
        exact hrel e he ⟨hat.1.symm, hat.2.symm⟩)
      (fun e he t ht hfl => by
        rw [attr, hsh.mm] at ht
        rw [hsh.dirty, hsh.log]
        exact hclean e (mem_cons_of_mem _ he) t ht hfl)
    refine ⟨hstep.trans h1, hsh.trans h2, fun e he hel => ?_⟩
    rcases mem_cons.1 hel with rfl | hel
    · have := h2.ptes e he
      rw [hptes] at this
      exact (hinv.placed.mem_eraseP.1 this).2 ⟨rfl, rfl⟩
    · exact h3 e he hel

private theorem releaseMm_reach (hinv : Inv C s.idle)
    (hclean : ∀ e ∈ s.ptes, e.space = a → ∀ t, s.attr e = some t → C.flushes t.flag t.fp = true →
      s.dirty e.pfn = false ∨ A.forget s.log e.space e.va) :
    Reach C A s.idle (releaseMm s a).idle := by
  have hmem : ∀ e ∈ s.ptes.filter (fun e => decide (e.space = a)), e ∈ s.ptes ∧ e.space = a := by
    intro e he
    simpa using mem_filter.1 he
  obtain ⟨h1, h2, h3⟩ := clearAll_steps (s.ptes.filter fun e => decide (e.space = a)) hinv
    (Pairwise.filter _ hinv.placed) (fun e he => (hmem e he).1)
    (fun e he => hclean e (hmem e he).1 (hmem e he).2)
  obtain ⟨hok, hnone⟩ := empty_ok C.arch { (s.mm a) with vmaIndex := .leaf } rfl
  rw [← h2.mm] at hok hnone
  refine h1.tail (.remap hok (fun e he hea => ?_) fun x t hx => by cases (hnone x).symm.trans hx)
  exact absurd (mem_filter.2 ⟨h2.ptes e he, by simpa using hea⟩) (h3 e he)

private theorem doExit_reach (hinv : Inv C s.idle) : Reach C A s.idle (doExit C s a).idle := by
  obtain ⟨h1, h2, h3⟩ := vmFlushAllDirty_steps hinv
  refine h1.trans (releaseMm_reach (hinv.reach h1) fun e he hea t ht hfl => .inl ?_)
  rw [h2.ptes] at he
  rw [attr, h2.mm] at ht
  exact h3 e he hea t ht hfl

/-! ### Fork -/

theorem pte_setPte_of_ne (h : ¬(e.space = b ∧ e.va = x)) : (s.setPte e).pte b x = s.pte b x := by
  have hno : ∀ y : Pte, y.isAt e.space e.va = true → y.isAt b x = false := by
    intro y hy
    obtain ⟨h1, h2⟩ := isAt_iff.1 hy
    by_contra hc
    obtain ⟨h3, h4⟩ := isAt_iff.1 (by simpa using hc)
    exact h ⟨h1.symm.trans h3, h2.symm.trans h4⟩
  unfold pte setPte
  rw [find?_cons, hno e (isAt_iff.2 ⟨rfl, rfl⟩)]
  -- the entry that was replaced is not the one looked for
  obtain he | ⟨y, l1, l2, -, hy, hl, he⟩ := exists_or_eq_self_of_eraseP (Pte.isAt e.space e.va) s.ptes
  · rw [he]
  · rw [he, hl, find?_append, find?_append, find?_cons, hno y hy]

private theorem cloneEntry_frame {c : Nat} (h : ¬(e.space = b ∧ e.va = x)) (hc : ¬(c = b ∧ e.va = x)) :
    (cloneEntry C c r s e).pte b x = s.pte b x ∧ (cloneEntry C c r s e).mm = s.mm := by
  unfold cloneEntry
  dsimp only
  obtain ⟨entry, hentry⟩ : ∃ entry, entry = if (!C.isDirect r.fp && s.pool.owns e.pfn && !isShared r.flag) = true
    then { e with writable := false } else e := ⟨_, rfl⟩
  rw [← hentry]
  have hplace : entry.space = e.space ∧ entry.va = e.va := by
    rw [hentry]
    split_ifs <;> exact ⟨rfl, rfl⟩
  have h2 : ((s.setPte entry).setPte { entry with space := c }).pte b x = s.pte b x := by
    rw [pte_setPte_of_ne (by rw [hplace.2]; exact hc), pte_setPte_of_ne (by rw [hplace.1, hplace.2]; exact h)]
  split_ifs
  · exact ⟨h2, rfl⟩
  · exact ⟨h2, rfl⟩

section Fork

variable {c : Nat} {r : VmRegion} (leafOk : Nat → Bool)

/-- The loop of `arch_mm_clone_region` over addresses of a region that parent and child have. -/
theorem cloneEntries_steps (l : List Nat) (hl : l.Nodup) (hac : a ≠ c) (hinv : Inv C s.idle)
    (hr : r ∈ (s.mm a).regions) (hview : ∀ x, r.Covers x → (s.mm c).view x = some (r.attrAt x))
    (hcov : ∀ va ∈ l, r.Covers va) (habs : ∀ va ∈ l, s.pte c va = none) :
    let q := cloneEntries C a c r leafOk l s
    Reach C A s.idle q.1.idle ∧ q.1.mm = s.mm ∧ ∀ x, x ∉ l → q.1.pte c x = s.pte c x := by
  induction l generalizing s with
  | nil => exact ⟨.refl, rfl, fun _ _ => rfl⟩
  | cons va l ih =>
    obtain ⟨hva, hl'⟩ := nodup_cons.1 hl
    have hcov' : ∀ x ∈ l, r.Covers x := fun x hx => hcov x (mem_cons_of_mem _ hx)
    have habs' : ∀ x ∈ l, s.pte c x = none := fun x hx => habs x (mem_cons_of_mem _ hx)
    rw [cloneEntries]
    cases he : s.pte a va with
    | none =>
      obtain ⟨h1, h2, h3⟩ := ih hl' hinv hr hview hcov' habs'
      exact ⟨h1, h2, fun x hx => h3 x fun hmem => hx (mem_cons_of_mem _ hmem)⟩
    | some e =>
      dsimp only
      by_cases hok : leafOk va = true
      swap
      · rw [if_neg hok]
        exact ⟨.refl, rfl, fun _ _ => rfl⟩
      rw [if_pos hok]
      obtain ⟨hmem, rfl, rfl⟩ := pte_some he
      have hcov0 := hcov e.va mem_cons_self
      have hattr : s.attr e = some (r.attrAt e.va) := (hinv.mm e.space).view_of_mem hr hcov0
      have hstep : Reach C A s.idle (cloneEntry C c r s e).idle :=
        .single (.clone he (habs e.va mem_cons_self) hattr (hview e.va hcov0) rfl rfl)
      -- only the entries at this address change
      have hframe : ∀ x, x ≠ e.va → (cloneEntry C c r s e).pte c x = s.pte c x ∧ (cloneEntry C c r s e).mm = s.mm :=
        fun x hx => cloneEntry_frame (fun h => hac h.1) fun h => hx h.2.symm
      have hmm := (hframe (e.va + 1) (by omega)).2
      obtain ⟨h1, h2, h3⟩ := ih hl' (hinv.reach hstep) (by rw [hmm]; exact hr) (by rw [hmm]; exact hview) hcov'
        fun x hx => by
          rw [(hframe x fun hc => hva (hc ▸ hx)).1]
          exact habs' x hx
      refine ⟨hstep.trans h1, h2.trans hmm, fun x hx => ?_⟩
      rw [h3 x fun hmem => hx (mem_cons_of_mem _ hmem)]
      exact (hframe x fun hc => hx (hc ▸ mem_cons_self)).1

theorem pageRange_nodup (begin stop : Nat) : (pageRange begin stop).Nodup := by
  refine Nodup.map (fun i j hij => ?_) nodup_range
  unfold pageSize at hij
  omega

theorem cloneArgs_region (r : VmRegion) (fresh : Nat) : (cloneArgs r).region fresh = r := rfl

/-- The calls of `copy_vma_callback` succeed as calls, and are small steps. -/
theorem copyVmas_steps (fresh : Nat) (l : List VmRegion) (hl : l.Pairwise Clear) (hac : a ≠ c)
    (hinv : Inv C s.idle) (hr : ∀ r ∈ l, r ∈ (s.mm a).regions)
    (hfree : ∀ r ∈ l, ∀ y ∈ (s.mm c).regions, Clear r y) (habs : ∀ r ∈ l, ∀ x, r.Covers x → s.pte c x = none) :
    ∃ s' ok, copyVmas C fresh a c leafOk l s = some (s', ok) ∧ Reach C A s.idle s'.idle := by
  induction l generalizing s with
  | nil => exact ⟨s, true, rfl, .refl⟩
  | cons r l ih =>
    obtain ⟨hclear, hl'⟩ := pairwise_cons.1 hl
    have hrmem := hr r mem_cons_self
    have hok := (hinv.mm a).region r hrmem
    have hno : ∀ y ∈ (s.mm c).regions, ¬Overlaps (cloneArgs r).begin (cloneArgs r).stop y := by
      rintro y hy ⟨h1, h2⟩
      have h1' : r.begin < y.stop := h1
      have h2' : y.begin < r.stop := h2
      rcases hfree r mem_cons_self y hy with h | h <;> omega
    have hfind : vmTreeFind (s.mm c) ⟨(cloneArgs r).begin, (cloneArgs r).stop⟩ = none := vmTreeFind_eq_none hno
    obtain ⟨hokc, hperm, hview⟩ := insert_view C.balancing fresh (hinv.mm c) (a := cloneArgs r) hok hfind
    rw [cloneArgs_region] at hokc hperm hview
    -- the child gets the region
    have hins : Reach C A s.idle (s.setMm c (vmTreeInsert C.balancing (s.mm c) r)).idle :=
      insert_reach hinv fresh (cloneArgs r) hok hfind fun x h1 h2 =>
        .inl ⟨a, (hinv.mm a).view_of_mem hrmem ⟨h1, h2⟩⟩
    obtain ⟨s1, hs1⟩ : ∃ s1, s1 = s.setMm c (vmTreeInsert C.balancing (s.mm c) r) := ⟨_, rfl⟩
    have hmma : s1.mm a = s.mm a := by rw [hs1, setMm_of_ne _ _ hac]
    have hmmc : s1.mm c = vmTreeInsert C.balancing (s.mm c) r := by rw [hs1, setMm_self]
    have hpte : ∀ x, s1.pte c x = s.pte c x := fun x => by rw [hs1]; rfl
    rw [← hs1] at hins
    -- then the pages
    obtain ⟨h1, h2, h3⟩ := cloneEntries_steps leafOk (pageRange r.begin r.stop)
      (pageRange_nodup _ _) hac (hinv.reach hins) (by rw [hmma]; exact hrmem)
      (fun x hx => by
        rw [hmmc, hview]
        exact if_pos hx)
      (fun va hva => pageRange_bounds hva)
      (fun va hva => by
        rw [hpte]
        exact habs r mem_cons_self va (pageRange_bounds hva))
    have hcopy : ∀ x, cloneEntries C a c r leafOk (pageRange r.begin r.stop) s1 = x →
        copyVmas C fresh a c leafOk (r :: l) s =
          if x.2 then copyVmas C fresh a c leafOk l x.1 else some (x.1, false) := by
      rintro ⟨s2, _ | _⟩ hx
      all_goals
        rw [copyVmas, vmAddMapWithLock_free 0 hno, cloneArgs_region]
        simp [← hs1, hx]
    rw [hcopy _ rfl]
    rcases hx : cloneEntries C a c r leafOk (pageRange r.begin r.stop) s1 with ⟨s2, _ | _⟩ <;> rw [hx] at h1 h2 h3
    · exact ⟨s2, false, rfl, hins.trans h1⟩
    have hreach := hins.trans h1
    obtain ⟨s', ok, h4, h5⟩ := ih hl' (hinv.reach hreach)
      (fun q hq => by
        rw [h2, hmma]
        exact hr q (mem_cons_of_mem _ hq))
      (fun q hq y hy => by
        rw [h2, hmmc, hperm.mem_iff] at hy
        rcases mem_cons.1 hy with rfl | hy
        · exact (hclear q hq).symm
        · exact hfree q (mem_cons_of_mem _ hq) y hy)
      (fun q hq x hx => by
        rw [h3 x fun hmem => (hclear q hq).apart x (pageRange_bounds hmem) hx, hpte]
        exact habs q (mem_cons_of_mem _ hq) x hx)
    exact ⟨s', ok, h4, hreach.trans h5⟩

theorem copyPageRange_steps (fresh : Nat) (hinv : Inv C s.idle) (hac : a ≠ c) (hptes : ∀ e ∈ s.ptes, e.space ≠ c) :
    ∃ s' ok, copyPageRange C fresh a c leafOk s = some (s', ok) ∧ Reach C A s.idle s'.idle := by
  obtain ⟨mm, hmm⟩ : ∃ mm : MmStruct, mm = ⟨.leaf, 1, (s.mm a).taskSize⟩ := ⟨_, rfl⟩
  have hempty : mm.regions = [] := by rw [hmm]; rfl
  obtain ⟨hok, hnone⟩ := empty_ok C.arch mm hempty
  have hnew : Reach C A s.idle (s.setMm c mm).idle :=
    .single (.remap hok (fun e he hec => absurd hec (hptes e he)) fun x t hx => by cases (hnone x).symm.trans hx)
  obtain ⟨s', ok, h1, h2⟩ := copyVmas_steps leafOk fresh (s.mm a).regions (hinv.mm a).clear hac
    (hinv.reach hnew) (fun r hr => by rw [setMm_of_ne _ _ hac]; exact hr)
    (fun r _ y hy => by
      rw [setMm_self, hempty] at hy
      cases hy)
    (fun r _ x _ => by
      refine find?_eq_none.2 fun e he => ?_
      rw [isAt_iff]
      exact fun hat => hptes e he hat.1)
  refine ⟨s', ok, ?_, hnew.trans h2⟩
  rw [copyPageRange, ← hmm]
  exact h1

end Fork

/-! ### The rest of the kernel -/

theorem fsPageCacheInvalidate_reach (file : Nat) (hA : A.invalidate) :
    Reach C A s.idle (fsPageCacheInvalidate s file).idle := by
  refine reach_foldl [] [] (fun s k => ?_) _ s
  cases hk : s.pageCache.lookup k with
  | none => exact .refl
  | some p => exact .single (.evict hk (.inr hA))

theorem mmAnonSharedPut_reach (anonId : Nat) : Reach C A s.idle (mmAnonSharedPut s anonId).idle := by
  refine reach_foldl [] [] (fun s k => ?_) _ s
  cases hk : s.anonShared.lookup k with
  | none => exact .refl
  | some p => exact .single (.dropAnon hk)

theorem allocOther_reach (g : Grant) (counted : Bool) : Reach C A s.idle (allocOther s g counted).idle := by
  obtain ⟨hr, -⟩ := alloc_steps [] [] s g
  unfold allocOther
  rcases hx : s.alloc g with ⟨s1, _ | p⟩ <;> rw [hx] at hr
  · exact hr
  · cases counted with
    | true => exact hr.tail .hold
    | false => exact hr.tail .keep

theorem dropHeld_reach (p : Nat) : Reach C A s.idle (dropHeld C s p).idle := by
  unfold dropHeld
  by_cases hp : p ∈ s.held ∧ p ≠ C.zeroPage
  · rw [if_pos hp]
    exact .single (.drop hp.1 hp.2)
  · rw [if_neg hp]

theorem readPage_reach (s : State α) (k : Key) (o : Choices α) :
    Reach C A s.idle (match s.fsPageCacheGet k o with | (s, none) => s | (s, some (p, _)) => s.put p).idle := by
  obtain ⟨-, hget⟩ := fsPageCacheGet_steps [] [] s k o
  rcases hx : s.fsPageCacheGet k o with ⟨s1, _ | ⟨p, hit⟩⟩ <;> rw [hx] at hget
  · exact hget
  · exact hget.1.tail .unpin

/-- What `A` allows of a call. -/
def Op.Permits (A : Allowed α) (s : State α) : Op α → Prop
  | .store a addr _ => ∀ e, s.pte a (pageOf addr) = some e → A.store s e
  | .mmap _ args => ∀ fresh x, args.begin ≤ x → x < args.stop →
      A.attr x (({ args with faultLock := none }.region fresh).attrAt x)
  | .release a => ∀ va, A.forget s.log a va
  | .invalidate _ => A.invalidate
  | _ => True

theorem Op.permits_all (s : State α) (op : Op α) : op.Permits Allowed.all s := by
  cases op with
  | store a addr v => exact fun _ _ => trivial
  | mmap a args => exact fun _ _ _ _ => trivial
  | release a => exact fun _ => trivial
  | _ => trivial

variable {op : Op α}

theorem Step.reach [Zero α] (hinv : Inv C s.idle) (hp : op.Permits A s) (h : Step C s op s') :
    Reach C A s.idle s'.idle := by
  obtain ⟨hv, fresh, fuel, hexec⟩ := h
  cases op with
  | fault a addr write o =>
    cases hexec
    exact pfProcess_reach hinv write o
  | store a addr v => exact .single (.store hexec hp)
  | fork a c leafOk =>
    obtain ⟨s1, ok, hcopy, hreach⟩ := copyPageRange_steps leafOk fresh hinv hv.1 hv.2.2
    rw [exec, hcopy] at hexec
    cases hexec
    exact hreach
  | mmap a args =>
    exact vmAddMap_reach hinv { args with faultLock := none }
      { hv with } (hp fresh) fuel hexec
  | munmap a addr length =>
    obtain ⟨⟨s1, res⟩, hcall, rfl⟩ := map_eq_some_iff.1 hexec
    exact doMunmap_reach hinv hcall
  | madvise a begin length =>
    obtain ⟨⟨s1, res⟩, hcall, rfl⟩ := map_eq_some_iff.1 hexec
    exact sysMadvise_reach hinv hcall
  | flushFile a f =>
    cases hexec
    exact (vmFlushFileDirty_steps hinv f).1
  | flushAll a =>
    cases hexec
    exact (vmFlushAllDirty_steps hinv).1
  | exit a =>
    cases hexec
    exact doExit_reach hinv
  | release a =>
    cases hexec
    exact releaseMm_reach hinv fun e _ hea _ _ _ => .inr (hea ▸ hp e.va)
  | readFile file offset o =>
    rw [exec] at hexec
    split_ifs at hexec
    · have hread := readPage_reach (C := C) (A := A) s ⟨file, pageFloor offset⟩ o
      rcases hx : s.fsPageCacheGet ⟨file, pageFloor offset⟩ o with ⟨s1, _ | ⟨p, hit⟩⟩ <;> rw [hx] at hexec hread
      · cases hexec
        exact hread
      · cases hexec
        exact hread
    · cases hexec
      exact .refl
  | invalidate file =>
    cases hexec
    exact fsPageCacheInvalidate_reach file hp
  | anonPut anonId =>
    cases hexec
    exact mmAnonSharedPut_reach anonId
  | alloc g counted =>
    cases hexec
    exact allocOther_reach g counted
  | drop p =>
    cases hexec
    exact dropHeld_reach p
  | releaseOther p =>
    cases hexec
    exact releaseOther_reach s p

end Mos.Paging
