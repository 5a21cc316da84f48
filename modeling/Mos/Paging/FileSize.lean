import Mos.Paging.Writeback

/-!
# Sizes of mapped files

Write-back hands whole pages to `write_page`.  A file on a filesystem whose `write_page` stores all of the page, and
makes the file longer for it, keeps its size exactly when every dirty page lies within the file
(`writeback_keeps_files`); nothing clips the last page.
-/

namespace Mos.Paging

open Lib Vm Function List State

variable {α : Type} {C : Config} {s s' s'' : State α} {a : Nat}

structure Disk (α : Type) where
  size : Nat → Nat
  bytes : Nat → Nat → Byte α

/-- `PAGE_SIZE` bytes are stored at the offset, past the end of the file as well. -/
def Disk.writePage (d : Disk α) (file offset : Nat) (data : Nat → Byte α) : Disk α where
  size := update d.size file (max (d.size file) (offset + pageSize))
  bytes := update d.bytes file fun o =>
    if offset ≤ o ∧ o < offset + pageSize then data (o - offset) else d.bytes file o

/-- What the calls of `write_page` do, the last of which comes first. -/
def Disk.replay (d : Disk α) : List (Event α) → Disk α
  | [] => d
  | .writePage file offset data :: evs => (d.replay evs).writePage file offset.toNat data
  | .store .. :: evs => d.replay evs

/-- No file has another size, and bytes differ only within files. -/
def Disk.Within (d d' : Disk α) : Prop :=
  ∀ file, d'.size file = d.size file ∧ ∀ o, d'.bytes file o ≠ d.bytes file o → o < d.size file

theorem Disk.Within.refl (d : Disk α) : d.Within d := fun _ => ⟨rfl, fun _ h => absurd rfl h⟩

variable {d : Disk α} {file : Nat} {evs : List (Event α)}

theorem Disk.Within.writePage {d' : Disk α} (h : d.Within d') {offset : Nat} (data : Nat → Byte α)
    (hle : offset + pageSize ≤ d.size file) : d.Within (d'.writePage file offset data) := by
  intro g
  by_cases hg : g = file
  · subst hg
    constructor
    · simp [Disk.writePage, (h g).1]
      omega
    · intro o ho
      simp only [Disk.writePage, update_self] at ho
      split_ifs at ho with hin
      · omega
      · exact (h g).2 o ho
  · simp only [Disk.writePage, update_of_ne hg]
    exact h g

theorem Disk.replay_within
    (h : ∀ file offset data, Event.writePage file offset data ∈ evs → offset.toNat + pageSize ≤ d.size file) :
    d.Within (d.replay evs) := by
  induction evs with
  | nil => exact .refl d
  | cons ev evs ih =>
    have hrest := ih fun file offset data hev => h file offset data (mem_cons_of_mem _ hev)
    cases ev with
    | store => exact hrest
    | writePage file offset data => exact hrest.writePage data (h file offset data mem_cons_self)

theorem Disk.le_replay_size {offset : UInt64} {data : Nat → Byte α}
    (h : Event.writePage file offset data ∈ evs) : offset.toNat + pageSize ≤ (d.replay evs).size file := by
  induction evs with
  | nil => cases h
  | cons ev evs ih =>
    cases ev with
    | store =>
      rcases mem_cons.1 h with h | h
      · cases h
      · exact ih h
    | writePage g o b =>
      simp only [Disk.replay, Disk.writePage]
      by_cases hg : file = g
      · subst hg
        rw [update_self]
        rcases mem_cons.1 h with h | h
        · cases h
          omega
        · have := ih h
          omega
      · rw [update_of_ne hg]
        rcases mem_cons.1 h with h | h
        · cases h
          exact absurd rfl hg
        · exact ih h

/-- The event hands page `p` to `write_page`, for an entry of `W`. -/
def Writes (C : Config) (W : Pte → PageAttr → Nat → Prop) (p : Nat) (ev : Event α) : Prop :=
  ∃ e t f data, W e t f ∧ e.pfn = p ∧ ev = .writePage (C.fileId f) t.offset data

/-- Between the two states the dirty pages of entries of `W` are written, and nothing else.  A page that is clean
afterwards and was not before has been written. -/
structure Wrote (C : Config) (W : Pte → PageAttr → Nat → Prop) (s s' : State α) (evs : List (Event α)) : Prop where
  log : s'.log = evs ++ s.log
  dirty : ∀ p, s'.dirty p = true → s.dirty p = true
  sound : ∀ ev ∈ evs, ∃ p, s.dirty p = true ∧ Writes C W p ev
  complete : ∀ p, s.dirty p = true → s'.dirty p = false → ∃ ev ∈ evs, Writes C W p ev

variable {f begin stop : Nat} {r : VmRegion}

section Wrote

variable {W : Pte → PageAttr → Nat → Prop} {evs evs' : List (Event α)}

theorem Wrote.quiet (hlog : s'.log = s.log) (hdirty : s'.dirty = s.dirty) : Wrote C W s s' [] := by
  refine ⟨hlog, fun p hp => hdirty ▸ hp, fun ev hev => absurd hev not_mem_nil, ?_⟩
  intro p hp hp'
  rw [hdirty, hp] at hp'
  cases hp'

theorem Wrote.trans (h : Wrote C W s s' evs) (h' : Wrote C W s' s'' evs') : Wrote C W s s'' (evs' ++ evs) := by
  constructor
  · rw [h'.log, h.log, append_assoc]
  · intro p hp
    exact h.dirty p (h'.dirty p hp)
  · intro ev hev
    rcases mem_append.1 hev with hev | hev
    · obtain ⟨p, hp, hw⟩ := h'.sound ev hev
      exact ⟨p, h.dirty p hp, hw⟩
    · exact h.sound ev hev
  · intro p hp hp'
    cases hmid : s'.dirty p with
    | false =>
      obtain ⟨ev, hev, hw⟩ := h.complete p hp hmid
      exact ⟨ev, mem_append_right _ hev, hw⟩
    | true =>
      obtain ⟨ev, hev, hw⟩ := h'.complete p hmid hp'
      exact ⟨ev, mem_append_left _ hev, hw⟩

theorem Wrote.clean (h : Wrote C W s s' evs) {p : Nat} (hp : s.dirty p = false) : s'.dirty p = false := by
  cases hp' : s'.dirty p with
  | false => rfl
  | true => rw [h.dirty p hp'] at hp; exact hp

private theorem flushPage_wrote {va : Nat} (hW : ∀ e, s.pte a va = some e → W e (r.attrAt e.va) f) :
    ∃ evs, Wrote C W s (flushPage C a (C.fileId f) r s va) evs := by
  unfold flushPage
  cases he : s.pte a va with
  | none => exact ⟨[], .quiet rfl rfl⟩
  | some e =>
    obtain ⟨-, rfl, rfl⟩ := pte_some he
    dsimp only
    split_ifs with hd
    swap
    · exact ⟨[], .quiet rfl rfl⟩
    simp only [Bool.and_eq_true] at hd
    have hw : Writes C W e.pfn
        (Event.writePage (C.fileId f) (r.offset + UInt64.ofNat (e.va - r.begin)) (s.bytes e.pfn)) :=
      ⟨e, r.attrAt e.va, f, _, hW e he, rfl, rfl⟩
    rw [clearDirty, writePage_eq]
    refine ⟨[_], rfl, fun p hp => ?_, fun ev hev => ?_, fun p hp hp' => ?_⟩
    · by_cases hpe : p = e.pfn
      · rw [hpe]
        exact hd.2
      · simpa [update_of_ne hpe] using hp
    · cases mem_singleton.1 hev
      exact ⟨e.pfn, hd.2, hw⟩
    · by_cases hpe : p = e.pfn
      · subst hpe
        exact ⟨_, mem_singleton_self _, hw⟩
      · simp only [update_of_ne hpe, hp] at hp'
        cases hp'

private theorem vmFlushDirtyRegion_wrote
    (hW : C.flushes r.flag r.fp = true → ∀ f, r.fp = some f → ∀ e ∈ s.ptes, e.space = a → begin ≤ e.va → e.va < stop →
      W e (r.attrAt e.va) f) : ∃ evs, Wrote C W s (vmFlushDirtyRegion C s a r begin stop) evs := by
  unfold vmFlushDirtyRegion
  cases hfp : r.fp with
  | none => exact ⟨[], .quiet rfl rfl⟩
  | some f =>
    rw [hfp] at hW
    split_ifs with hfl
    swap
    · exact ⟨[], .quiet rfl rfl⟩
    have hloop : Flushed s ((pageRange begin stop).foldl (flushPage C a (C.fileId f) r) s) ∧
        ∃ evs, Wrote C W s ((pageRange begin stop).foldl (flushPage C a (C.fileId f) r) s) evs := by
      apply List.foldlRecOn (motive := fun s' => Flushed s s' ∧ ∃ evs, Wrote C W s s' evs)
      · exact ⟨.refl s, [], .quiet rfl rfl⟩
      · intro s1 h1 va hva
        obtain ⟨hfs, evs, hwrote⟩ := h1
        obtain ⟨hlo, hhi⟩ := pageRange_bounds hva
        obtain ⟨evs', hround⟩ : ∃ evs', Wrote C W s1 (flushPage C a (C.fileId f) r s1 va) evs' := by
          apply flushPage_wrote
          intro e he
          obtain ⟨hmem, hspace, hva⟩ := pte_some he
          rw [hfs.ptes] at hmem
          exact hW hfl f rfl e hmem hspace (hva ▸ hlo) (hva ▸ hhi)
        exact ⟨hfs.trans (flushPage_flushed _ s1 va), _, hwrote.trans hround⟩
    exact hloop.2

private theorem flushRegions_wrote (keep : VmRegion → Bool) (hinv : Inv C s.idle)
    (hW : ∀ r ∈ (s.mm a).regions, keep r = true → ∀ e t f, Live C s e t f → e.space = a → r.Covers e.va → W e t f) :
    ∃ evs, Wrote C W s ((s.mm a).regions.foldl (fun s r =>
      if keep r then vmFlushDirtyRegion C s a r r.begin r.stop else s) s) evs := by
  have hloop := List.foldlRecOn (motive := fun s' => Flushed s s' ∧ ∃ evs, Wrote C W s s' evs) (s.mm a).regions
    (fun s r => if keep r then vmFlushDirtyRegion C s a r r.begin r.stop else s) ⟨.refl s, [], .quiet rfl rfl⟩
    (fun s1 h1 r hr => by
      obtain ⟨hfs, evs, hwrote⟩ := h1
      by_cases hk : keep r = true
      · rw [if_pos hk]
        obtain ⟨evs', hround⟩ : ∃ evs', Wrote C W s1 (vmFlushDirtyRegion C s1 a r r.begin r.stop) evs' := by
          apply vmFlushDirtyRegion_wrote
          intro hfl f hfp e he hea hlo hhi
          rw [hfs.ptes] at he
          have hattr : s.attr e = some (r.attrAt e.va) := by
            rw [attr, hea]
            exact (hinv.mm a).view_of_mem hr ⟨hlo, hhi⟩
          exact hW r hr hk e _ f ⟨he, hattr, hfl, hfp⟩ hea ⟨hlo, hhi⟩
        exact ⟨hfs.trans (vmFlushDirtyRegion_flushed s1 _ _), _, hwrote.trans hround⟩
      · rw [if_neg hk]
        exact ⟨hfs, evs, hwrote⟩)
  exact hloop.2

/-! ### Cutting a range out of a space -/

private theorem unmapRange_keeps {e : Pte} {lo hi : Nat} (he : e ∈ s.ptes)
    (hout : ¬(e.space = a ∧ lo ≤ e.va ∧ e.va < hi)) : e ∈ (unmapRange s a lo hi).ptes := by
  apply List.foldlRecOn (motive := fun s' : State α => e ∈ s'.ptes)
  · exact he
  · intro s1 h₁ va hva
    obtain ⟨h1, h2⟩ := pageRange_bounds hva
    unfold unmapPage
    split
    · exact h₁
    rw [release_eq]
    apply (mem_eraseP_of_neg ?_).mpr h₁
    intro hat
    obtain ⟨hspace, hva⟩ := isAt_iff.1 hat
    exact hout ⟨hspace, by omega, by omega⟩

variable {o : VmRegion} {lo hi : Nat} {mm : MmStruct}

/-- A cut takes away the entries in its range and leaves the attributes of the others alone. -/
theorem Cut.live_iff (hcut : Cut C s a o lo hi mm) (hinv : Inv C s.idle) (e : Pte) (t : PageAttr) (f : Nat) :
    Live C (s.cut C a o lo hi mm) e t f ↔ Live C s e t f ∧ ¬(e.space = a ∧ lo ≤ e.va ∧ e.va < hi) := by
  obtain ⟨-, hgone, -⟩ := hcut.steps (A := Allowed.all) hinv
  have hfs := vmFlushDirtyRegion_flushed (C := C) (a := a) (r := o) s lo hi
  have hattr : ¬(e.space = a ∧ lo ≤ e.va ∧ e.va < hi) → (s.cut C a o lo hi mm).attr e = s.attr e := by
    intro hout
    unfold attr cut setMm
    dsimp only
    by_cases hea : e.space = a
    · rw [hea, update_self, hcut.view, if_neg fun hin => hout ⟨hea, hin⟩]
    · rw [update_of_ne hea, cut_mm]
  constructor
  · intro hl
    have hout := hgone e hl.mem
    have hmem := (unmapRange_shrunk _ lo hi).ptes e hl.mem
    rw [hfs.ptes] at hmem
    exact ⟨⟨hmem, (hattr hout).symm.trans hl.attr, hl.flushes, hl.file⟩, hout⟩
  · intro h
    obtain ⟨hl, hout⟩ := h
    exact ⟨unmapRange_keeps (hfs.ptes ▸ hl.mem) hout, (hattr hout).trans hl.attr, hl.flushes, hl.file⟩

theorem Cut.wrote (hcut : Cut C s a o lo hi mm) (hinv : Inv C s.idle)
    (hW : ∀ e t f, Live C s e t f → e.space = a → lo ≤ e.va → e.va < hi → W e t f) :
    (∃ evs, Wrote C W s (s.cut C a o lo hi mm) evs) ∧
      ∀ e t f, Live C s e t f → e.space = a → lo ≤ e.va → e.va < hi → (s.cut C a o lo hi mm).dirty e.pfn = false := by
  have hle := hcut.begin_le
  have hstop := hcut.le_stop
  have hattr : ∀ e, e.space = a → lo ≤ e.va → e.va < hi → s.attr e = some (o.attrAt e.va) := by
    intro e hea h1 h2
    rw [attr, hea]
    exact (hinv.mm a).view_of_mem hcut.mem ⟨by omega, by omega⟩
  have hsh := unmapRange_shrunk (a := a) (vmFlushDirtyRegion C s a o lo hi) lo hi
  constructor
  · obtain ⟨evs, hflush⟩ : ∃ evs, Wrote C W s (vmFlushDirtyRegion C s a o lo hi) evs := by
      apply vmFlushDirtyRegion_wrote
      intro hfl f hfp e he hea h1 h2
      exact hW e _ f ⟨he, hattr e hea h1 h2, hfl, hfp⟩ hea h1 h2
    exact ⟨_, hflush.trans (.quiet hsh.log hsh.dirty)⟩
  · intro e t f hl hea h1 h2
    obtain ⟨-, -, hclean⟩ := hcut.steps (A := Allowed.all) hinv
    cases (hattr e hea h1 h2).symm.trans hl.attr
    have := hclean hl.flushes e hl.mem hea h1 h2
    rw [← hsh.dirty] at this
    exact this

/-- Every dirty page in the range is written and clean in the end. -/
theorem Cuts.wrote (hcuts : Cuts C a begin stop s s') (hinv : Inv C s.idle)
    (hW : ∀ e t f, Live C s e t f → e.space = a → begin ≤ e.va → e.va < stop → W e t f) :
    (∃ evs, Wrote C W s s' evs) ∧
      ∀ e t f, Live C s e t f → e.space = a → begin ≤ e.va → e.va < stop → s'.dirty e.pfn = false := by
  induction hcuts with
  | done hnone =>
    refine ⟨⟨[], .quiet rfl rfl⟩, ?_⟩
    -- a page is mapped inside a region, and no region meets the range
    intro e t f hl hea h1 h2
    subst hea
    obtain ⟨r, hr, ⟨hc1, hc2⟩, -⟩ := (hinv.mm e.space).mem_of_view hl.attr
    exact absurd ⟨by dsimp only; omega, by dsimp only; omega⟩ (vmTreeFind_none (hinv.mm e.space) hnone r hr)
  | @cut s s' o lo hi mm hcut hlo hhi _ ih =>
    have hlive := hcut.live_iff hinv
    obtain ⟨⟨evs, hfirst⟩, hclean⟩ := hcut.wrote hinv fun e t f hl hea h1 h2 => hW e t f hl hea (by omega) (by omega)
    obtain ⟨⟨evs', hrest⟩, hrestClean⟩ := ih (hinv.reach (hcut.reach (A := Allowed.all) hinv))
      fun e t f hl hea h1 h2 => hW e t f ((hlive e t f).mp hl).1 hea h1 h2
    refine ⟨⟨_, hfirst.trans hrest⟩, ?_⟩
    intro e t f hl hea h1 h2
    by_cases hin : lo ≤ e.va ∧ e.va < hi
    · exact hrest.clean (hclean e t f hl hea hin.1 hin.2)
    · exact hrestClean e t f ((hlive e t f).mpr ⟨hl, fun h => hin h.2⟩) hea h1 h2

private theorem releaseMm_quiet (s : State α) (a : Nat) : (releaseMm s a).log = s.log ∧
    (releaseMm s a).dirty = s.dirty := by
  have hsh := List.foldlRecOn (motive := Shrunk s) (s.ptes.filter fun e => decide (e.space = a))
    (fun s e => (s.clearPte e.space e.va).release e) (.refl s) fun s1 h1 e _ => h1.trans (clear_shrunk s1 e)
  exact ⟨hsh.log, hsh.dirty⟩

end Wrote

/-! ### The calls -/

/-- The calls that write back: `munmap`, a new mapping in the place of others, `fsync`, and exit. -/
def Op.WritesBack : Op α → Prop
  | .munmap .. | .mmap .. | .flushFile .. | .flushAll _ | .exit _ => True
  | _ => False

/-- The entries that a call looks at. -/
def Op.Flushes (C : Config) (s : State α) : Op α → Pte → PageAttr → Prop
  | .munmap a addr length, e, _ => MunmapOk C s a addr length ∧ e.space = a ∧
    pageOf addr ≤ e.va ∧ e.va < munmapEnd C.arch (pageOf addr) length
  | .mmap a args, e, _ => e.space = a ∧ args.begin ≤ e.va ∧ e.va < args.stop
  | .flushFile a f, e, t => e.space = a ∧ ∃ g, t.fp = some g ∧ C.fileId g = C.fileId f
  | .flushAll a, e, _ => e.space = a
  | .exit a, e, _ => e.space = a
  | _, _, _ => False

/-- The dirty pages of shared mappings that a call writes back. -/
structure Due (C : Config) (s : State α) (op : Op α) (e : Pte) (t : PageAttr) (f : Nat) : Prop where
  live : Live C s e t f
  flushes : op.Flushes C s e t
  dirty : s.dirty e.pfn = true

/-- The call hands the dirty pages in its range to `write_page`, and no others. -/
theorem Step.wrote [Zero α] {op : Op α} (hinv : Inv C s.idle) (hop : op.WritesBack) (hstep : Step C s op s') :
    (∃ evs, Wrote C (fun e t f => Live C s e t f ∧ op.Flushes C s e t) s s' evs) ∧
      ∀ e t f, Live C s e t f → op.Flushes C s e t → s'.dirty e.pfn = false := by
  obtain ⟨hvalid, fresh, fuel, hexec⟩ := hstep
  cases op with
  | munmap a addr length =>
    obtain ⟨⟨s1, res⟩, hcall, rfl⟩ := Option.map_eq_some_iff.1 hexec
    rcases doMunmap_cuts hinv hcall with ⟨hok, hcuts⟩ | ⟨hno, rfl⟩
    · obtain ⟨hwrote, hclean⟩ := hcuts.wrote
        (W := fun e t f => Live C s e t f ∧ Op.Flushes C s (.munmap a addr length) e t) hinv
        fun e t f hl hea h1 h2 => ⟨hl, hok, hea, h1, h2⟩
      exact ⟨hwrote, fun e t f hl hfl => hclean e t f hl hfl.2.1 hfl.2.2.1 hfl.2.2.2⟩
    · exact ⟨⟨[], .quiet rfl rfl⟩, fun e t f _ hfl => absurd hfl.1 hno⟩
  | mmap a args =>
    obtain ⟨s1, hcuts, rfl⟩ := vmAddMap_cuts hinv { args with faultLock := none }
      { hvalid with } fuel hexec
    obtain ⟨⟨evs, hwrote⟩, hclean⟩ := hcuts.wrote
      (W := fun e t f => Live C s e t f ∧ Op.Flushes C s (.mmap a args) e t) hinv
      fun e t f hl hea h1 h2 => ⟨hl, hea, h1, h2⟩
    exact ⟨⟨_, hwrote.trans (.quiet rfl rfl)⟩, fun e t f hl hfl => hclean e t f hl hfl.1 hfl.2.1 hfl.2.2⟩
  | flushFile a f =>
    cases hexec
    constructor
    · apply flushRegions_wrote _ hinv
      intro r hr hkeep e t g hl hea hcov
      refine ⟨hl, hea, ?_⟩
      have hattr := hl.attr
      rw [attr, hea, (hinv.mm a).view_of_mem hr hcov] at hattr
      cases hattr
      exact ⟨g, hl.file, by simpa [show r.fp = some g from hl.file] using hkeep⟩
    · intro e t g hl hfl
      obtain ⟨hea, g', hg', hid⟩ := hfl
      obtain ⟨-, -, hclean⟩ := vmFlushFileDirty_steps (A := Allowed.all) hinv f
      exact hclean e hl.mem hea t g' hl.attr hl.flushes hg' hid
  | flushAll a =>
    cases hexec
    obtain ⟨-, -, hclean⟩ := vmFlushAllDirty_steps (A := Allowed.all) hinv
    exact ⟨flushRegions_wrote (fun _ => true) hinv fun r _ _ e t g hl hea _ => ⟨hl, hea⟩,
      fun e t g hl hea => hclean e hl.mem hea t hl.attr hl.flushes⟩
  | exit a =>
    cases hexec
    obtain ⟨-, -, hclean⟩ := vmFlushAllDirty_steps (A := Allowed.all) hinv
    obtain ⟨hlog, hdirty⟩ := releaseMm_quiet (vmFlushAllDirty C s a) a
    constructor
    · obtain ⟨evs, hwrote⟩ := flushRegions_wrote
        (W := fun e t f => Live C s e t f ∧ Op.Flushes C s (.exit a) e t) (fun _ => true) hinv
        fun r _ _ e t g hl hea _ => ⟨hl, hea⟩
      exact ⟨_, hwrote.trans (.quiet hlog hdirty)⟩
    · intro e t g hl hea
      rw [doExit, hdirty]
      exact hclean e hl.mem hea t hl.attr hl.flushes
  | _ => exact hop.elim

/-- In a tracked run, a page that is mapped twice is mapped at one place of one file. -/
theorem Track.same_place (h : Track C s) (hinv : Inv C s.idle) {e e' : Pte} {t t' : PageAttr} {f' : Nat}
    (hl : Live C s e t f) (hl' : Live C s e' t' f') (hp : e.pfn = e'.pfn) :
    C.fileId f = C.fileId f' ∧ t.offset = t'.offset := by
  have hkey := h.key e'.pfn _ _ (.inl ⟨e, t, f, hl, hp, rfl⟩) (.inl ⟨e', t', f', hl', rfl, rfl⟩)
  have hal := h.aligned e.space e.va t hl.attr hl.flushes (hinv.entry e hl.mem).1
  have hal' := h.aligned e'.space e'.va t' hl'.attr hl'.flushes (hinv.entry e' hl'.mem).1
  simp only [Config.keyOf, Key.mk.injEq, pageFloor_of_aligned hal, pageFloor_of_aligned hal'] at hkey
  exact hkey

/-- **Sizes of files.**  The calls of `write_page` that a write-back makes change bytes only within files and leave
their sizes alone if every dirty page that is due lies within its file.  Where a page is mapped at one place of one
file only, which is so in tracked runs, they do so only then. -/
theorem writeback_keeps_files [Zero α] {s₀ : State α} {tr : List (Op α)} {op : Op α} (h₀ : Boot C s₀)
    (hrun : Run (Step C) s₀ tr s) (hop : op.WritesBack) (hstep : Step C s op s') (d : Disk α) :
    ∃ evs, s'.log = evs ++ s.log ∧
      ((∀ e t f, Due C s op e t f → t.offset.toNat + pageSize ≤ d.size (C.fileId f)) → d.Within (d.replay evs)) ∧
      (Run (TrackedStep C) s₀ tr s ∨ (∀ e t f e' t' f', Live C s e t f → Live C s e' t' f' → e.pfn = e'.pfn →
          C.fileId f = C.fileId f' ∧ t.offset = t'.offset) →
        d.Within (d.replay evs) → ∀ e t f, Due C s op e t f → t.offset.toNat + pageSize ≤ d.size (C.fileId f)) := by
  have hinv := h₀.run_inv hrun
  obtain ⟨⟨evs, hwrote⟩, hclean⟩ := hstep.wrote hinv hop
  refine ⟨evs, hwrote.log, ?_, ?_⟩
  · intro hfit
    apply Disk.replay_within
    intro file offset data hev
    obtain ⟨p, hp, e, t, f, data', ⟨hl, hfl⟩, rfl, heq⟩ := hwrote.sound _ hev
    cases heq
    exact hfit e t f ⟨hl, hfl, hp⟩
  · intro hplaces hwithin e t f hdue
    have hsame : ∀ e' t' f', Live C s e' t' f' → e'.pfn = e.pfn → C.fileId f' = C.fileId f ∧
      t'.offset = t.offset := by
      intro e' t' f' hl' hp
      rcases hplaces with htracked | hplaces
      · exact (h₀.run_track htracked).2.same_place hinv hl' hdue.live hp
      · exact hplaces e' t' f' e t f hl' hdue.live hp
    obtain ⟨ev, hev, e', t', f', data, ⟨hl', -⟩, hp, rfl⟩ :=
      hwrote.complete e.pfn hdue.dirty (hclean e t f hdue.live hdue.flushes)
    obtain ⟨hfile, hoffset⟩ := hsame e' t' f' hl' hp
    have hle := Disk.le_replay_size (d := d) hev
    rw [(hwithin _).1, hfile, hoffset] at hle
    exact hle

/-- The first page of a file is mapped shared, and a byte of it is written. -/
private def oneStore : List (Op Nat) :=
  [.mmap 1 (onePage 1 (some 1) 0), .fault 1 0x1000 true (grants 5), .store 1 0x1000 7]

private theorem oneStore_valid : ∀ op ∈ oneStore, ∀ t, op.Valid sampleConfig t := by
  simp only [oneStore, forall_mem_cons]
  exact ⟨onePage_valid _ _ _ _, fun _ => trivial, fun _ => trivial, nofun⟩

def evenFiles (size : Nat) : Disk Nat := ⟨fun _ => size, fun _ _ => ⟨0, 0⟩⟩

theorem writeback_keeps_files_page : ∃ s s' evs, Run (Step sampleConfig) sampleBoot oneStore s ∧
    Step sampleConfig s (.munmap 1 0x1000 0x1000) s' ∧ s'.log = evs ++ s.log ∧
    (evenFiles 4096).Within ((evenFiles 4096).replay evs) := by
  obtain ⟨s, hrun, hs⟩ := exists_run (s := sampleBoot) 4 oneStore_valid (P := fun s =>
    (exec sampleConfig 0 4 s (.munmap 1 0x1000 0x1000)).isSome &&
      (decide (s.ptes = [⟨1, 0x1000, 5, true, false⟩]) && (s.mm 1).view 0x1000 = some ⟨3, 1, some 1, 0, 0, 0⟩))
        (by decide)
  simp only [Bool.and_eq_true, decide_eq_true_eq] at hs
  obtain ⟨hexec, hptes, hview⟩ := hs
  obtain ⟨s', hexec⟩ := Option.isSome_iff_exists.1 hexec
  have hstep : Step sampleConfig s (.munmap 1 0x1000 0x1000) s' := ⟨trivial, 0, 4, hexec⟩
  have hop : (Op.munmap 1 0x1000 0x1000 : Op Nat).WritesBack := trivial
  obtain ⟨evs, hlog, hkeeps, -⟩ := writeback_keeps_files sampleBoot_boot hrun hop hstep (evenFiles 4096)
  refine ⟨s, s', evs, hrun, hstep, hlog, hkeeps ?_⟩
  intro e t f hdue
  have hmem := hdue.live.mem
  rw [hptes, mem_singleton] at hmem
  have hattr := hdue.live.attr
  rw [attr, hmem, hview] at hattr
  cases hattr
  exact Nat.le_refl 4096

/-- `munmap` of the first page of a file of 100 bytes makes it 4096 bytes long. -/
theorem writeback_extends_file : ∃ s s' evs, Run (Step sampleConfig) sampleBoot oneStore s ∧
    Step sampleConfig s (.munmap 1 0x1000 0x1000) s' ∧ s'.log = evs ++ s.log ∧ (evenFiles 100).size 1 = 100 ∧
    ((evenFiles 100).replay evs).size 1 = 4096 := by
  obtain ⟨s, hrun, hs⟩ := exists_run (s := sampleBoot) 4 oneStore_valid (P := fun s =>
    (exec sampleConfig 0 4 s (.munmap 1 0x1000 0x1000)).any fun s' =>
      s'.log.length = s.log.length + 1 && ((evenFiles 100).replay (s'.log.take 1)).size 1 = 4096) (by decide)
  obtain ⟨s', hexec, hs'⟩ := (Option.any_eq_true _ _).mp hs
  simp only [Bool.and_eq_true, decide_eq_true_eq] at hs'
  obtain ⟨hlength, hsize⟩ := hs'
  have hstep : Step sampleConfig s (.munmap 1 0x1000 0x1000) s' := ⟨trivial, 0, 4, hexec⟩
  have hop : (Op.munmap 1 0x1000 0x1000 : Op Nat).WritesBack := trivial
  obtain ⟨⟨evs, hwrote⟩, -⟩ := hstep.wrote (sampleBoot_boot.run_inv hrun) hop
  have hone : evs.length = 1 := by
    rw [hwrote.log, length_append] at hlength
    omega
  rw [hwrote.log, take_left' hone] at hsize
  exact ⟨s, s', evs, hrun, hstep, hwrote.log, rfl, hsize⟩

end Mos.Paging
