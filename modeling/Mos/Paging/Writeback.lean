import Mos.Paging.Isolation

/-!
# Stores to shared file mappings

A store through a shared mapping of a file is *pending* while its page is mapped there and dirty, and *handed* once
`write_page` has been called with the byte that it wrote or a newer one.  If every store goes to a page whose dirty
flag is set, each store is pending or handed at all times (`Track`), so that it is handed when its page is unmapped or
flushed.  The condition is needed: write-back clears the flag and leaves the entries writable.
-/

namespace Mos.Paging

open Lib Vm Function List State Option Config

variable {α : Type} {C : Config} {s s' : State α} {pins loose : List Nat}

/-- The store has been handed to `write_page`, or a later one to the same byte. -/
def Handed (log : List (Event α)) (pos file : Nat) (offset : UInt64) (stamp : Nat) : Prop :=
  ∃ data, Event.writePage file offset data ∈ log ∧ stamp ≤ (data pos).stamp

/-- A mapped page that is written back to file `f`. -/
structure Live (C : Config) (s : State α) (e : Pte) (t : PageAttr) (f : Nat) : Prop where
  mem : e ∈ s.ptes
  attr : s.attr e = some t
  flushes : C.flushes t.flag t.fp = true
  file : t.fp = some f

/-- Stores go to dirty pages, files are mapped at page-aligned offsets, pages are unmapped without write-back only
when no store would be lost, and mapped pages stay in the page cache. -/
def Tracked (C : Config) : Allowed α where
  store s e := ∀ t f, Live C s e t f → s.dirty e.pfn = true
  attr x t := C.flushes t.flag t.fp = true → pageSize ∣ x → t.offset % 4096 = 0
  forget log a va := ∀ pos file offset stamp, Event.store a va pos file offset stamp ∈ log →
    Handed log pos file offset stamp
  invalidate := False

/-- Page `p` holds the page of a file with key `k`. -/
def Keyed (C : Config) (s : State α) (p : Nat) (k : Key) : Prop :=
  (∃ e t f, Live C s e t f ∧ e.pfn = p ∧ C.keyOf f t.offset = k) ∨ (k, p) ∈ s.pageCache ∨ (k, p) ∈ s.fileShared

/-- The byte of the store, or a newer one, is in a dirty page that is mapped where the store was made. -/
def Pending (C : Config) (s : State α) (a va pos file : Nat) (offset : UInt64) (stamp : Nat) : Prop :=
  ∃ e t f, Live C s e t f ∧ e.space = a ∧ e.va = va ∧ C.fileId f = file ∧ t.offset = offset ∧
    s.dirty e.pfn = true ∧ stamp ≤ (s.bytes e.pfn pos).stamp

structure Track (C : Config) (s : State α) : Prop where
  key : ∀ p k k', Keyed C s p k → Keyed C s p k' → k = k'
  cached : ∀ e t f, Live C s e t f → C.kind (C.fileId f) = .cached →
    s.pageCache.lookup (C.keyOf f t.offset) = some e.pfn
  aligned : ∀ a x t, (s.mm a).view x = some t → C.flushes t.flag t.fp = true → pageSize ∣ x → t.offset % 4096 = 0
  stamp : ∀ a va pos file offset stamp, Event.store a va pos file offset stamp ∈ s.log → stamp ≤ s.clock
  pending : ∀ a va pos file offset stamp, Event.store a va pos file offset stamp ∈ s.log →
    Handed s.log pos file offset stamp ∨ Pending C s a va pos file offset stamp

/-! ### Steps that leave the log alone -/

variable {e : Pte} {t : PageAttr} {f p : Nat} {k : Key}

theorem Live.unique {t' : PageAttr} {f' : Nat} (h : Live C s e t f) (h' : Live C s e t' f') : t = t' ∧
    f = f' := by
  have ht := some.inj (h.attr.symm.trans h'.attr)
  subst ht
  exact ⟨rfl, some.inj (h.file.symm.trans h'.file)⟩

/-- The mapped and the cached pages are the same. -/
structure Same (s s' : State α) : Prop where
  ptes : s'.ptes = s.ptes
  mm : s'.mm = s.mm
  pageCache : s'.pageCache = s.pageCache
  fileShared : s'.fileShared = s.fileShared

theorem Live.congr (hptes : s'.ptes = s.ptes) (hmm : s'.mm = s.mm) : Live C s' e t f ↔ Live C s e t f := by
  have hattr : s'.attr e = s.attr e := by rw [State.attr, State.attr, hmm]
  exact ⟨fun hl => ⟨hptes ▸ hl.mem, hattr ▸ hl.attr, hl.flushes, hl.file⟩,
    fun hl => ⟨hptes ▸ hl.mem, hattr ▸ hl.attr, hl.flushes, hl.file⟩⟩

theorem Same.live (hs : Same s s') : Live C s' e t f ↔ Live C s e t f := Live.congr hs.ptes hs.mm

/-- Only the part about the stores is left to show. -/
theorem Track.same (h : Track C s) (hs : Same s s')
    (hstamp : ∀ a va pos file offset stamp, Event.store a va pos file offset stamp ∈ s'.log → stamp ≤ s'.clock)
    (hpending : ∀ a va pos file offset stamp, Event.store a va pos file offset stamp ∈ s'.log →
      Handed s'.log pos file offset stamp ∨ Pending C s' a va pos file offset stamp) : Track C s' := by
  have hkeyed : ∀ p k, Keyed C s' p k ↔ Keyed C s p k := by simp [Keyed, hs.live, hs.pageCache, hs.fileShared]
  refine ⟨?_, ?_, by rw [hs.mm]; exact h.aligned, hstamp, hpending⟩
  · simp only [hkeyed]
    exact h.key
  · simp only [hs.live, hs.pageCache]
    exact h.cached

theorem Inv.live_mem (hinv : Inv C ⟨s, pins, loose⟩) (h : Live C s e t f) : e.pfn ∈ pins ++ s.refs :=
  mem_append_right _ (mem_append_left _ (mem_mapped h.mem (hinv.owned h.mem h.attr h.flushes).1))

theorem Inv.keyed_mem (hinv : Inv C ⟨s, pins, loose⟩) (h : Keyed C s p k) : p ∈ pins ++ s.refs := by
  rcases h with ⟨e, t, f, hl, rfl, -⟩ | h | h
  · exact hinv.live_mem hl
  · exact mem_append_right _ (mem_append_right _ (mem_append_left _ (mem_map.2 ⟨_, h, rfl⟩)))
  · refine mem_append_right _ (mem_append_right _ (mem_append_right _ (mem_append_left _ ?_)))
    exact mem_map.2 ⟨_, h, rfl⟩

/-- How a live entry survives a step. -/
def Carried (C : Config) (s s' : State α) (e : Pte) (t : PageAttr) (f : Nat) : Prop :=
  ∃ e', Live C s' e' t f ∧ e'.space = e.space ∧ e'.va = e.va ∧ e'.pfn = e.pfn ∧
    (s.dirty e.pfn = true → s'.dirty e.pfn = true) ∧ s'.bytes e.pfn = s.bytes e.pfn

section Relink

variable (h : Track C s) (hlog : s'.log = s.log) (hclock : s'.clock = s.clock)

include h hlog hclock

omit hclock in
private theorem Track.pending_of (hcarry : ∀ e t f, Live C s e t f → Carried C s s' e t f ∨ s.dirty e.pfn = false ∨
      (Tracked C).forget s.log e.space e.va) (a va pos file : Nat) (offset : UInt64) (stamp : Nat)
    (hev : Event.store a va pos file offset stamp ∈ s'.log) :
    Handed s'.log pos file offset stamp ∨ Pending C s' a va pos file offset stamp := by
  rw [hlog] at hev ⊢
  rcases h.pending a va pos file offset stamp hev with hh | ⟨e, t, f, hl, rfl, rfl, rfl, rfl, hd, hs⟩
  · exact .inl hh
  rcases hcarry e t f hl with ⟨e', hl', h1, h2, h3, h4, h5⟩ | hclean | hforget
  · exact .inr ⟨e', t, f, hl', h1, h2, rfl, rfl, by rw [h3]; exact h4 hd, by rw [h3, h5]; exact hs⟩
  · rw [hclean] at hd
    cases hd
  · exact .inl (hforget pos _ _ stamp hev)

/-- A step that changes entries: the live entries after it were live before, or are the new one. -/
theorem Track.relink (hpc : s'.pageCache = s.pageCache) (hfs : s'.fileShared = s.fileShared)
    (haligned : ∀ a x t, (s'.mm a).view x = some t → C.flushes t.flag t.fp = true → pageSize ∣ x →
      t.offset % 4096 = 0) {N : Pte → Prop} (hN : ∀ x y, N x → N y → x = y)
    (hback : ∀ e' t f, Live C s' e' t f → (∃ e, Live C s e t f ∧ e.pfn = e'.pfn) ∨ N e')
    (hnew : ∀ e t f, N e → Live C s' e t f →
      (C.kind (C.fileId f) = .cached → s.pageCache.lookup (C.keyOf f t.offset) = some e.pfn) ∧
      (Keyed C s e.pfn (C.keyOf f t.offset) ∨ ∀ k, ¬Keyed C s e.pfn k))
    (hcarry : ∀ e t f, Live C s e t f → Carried C s s' e t f ∨ s.dirty e.pfn = false ∨
      (Tracked C).forget s.log e.space e.va) : Track C s' := by
  -- a key after the step was one before, or is that of the new entry
  have hkeyed : ∀ p k, Keyed C s' p k → Keyed C s p k ∨
      ∃ e t f, N e ∧ Live C s' e t f ∧ e.pfn = p ∧ C.keyOf f t.offset = k := by
    rintro p k (⟨e', t, f, hl, rfl, rfl⟩ | hk | hk)
    · rcases hback e' t f hl with ⟨e, hl', hp⟩ | hn
      · exact .inl (.inl ⟨e, t, f, hl', hp, rfl⟩)
      · exact .inr ⟨e', t, f, hn, hl, rfl, rfl⟩
    · exact .inl (.inr (.inl (hpc ▸ hk)))
    · exact .inl (.inr (.inr (hfs ▸ hk)))
  have hmix : ∀ p k k', Keyed C s p k → (∃ e t f, N e ∧ Live C s' e t f ∧ e.pfn = p ∧ C.keyOf f t.offset = k') →
      k = k' := by
    rintro p k k' hk ⟨e, t, f, hn, hl, rfl, rfl⟩
    rcases (hnew e t f hn hl).2 with hk' | hno
    · exact h.key _ _ _ hk hk'
    · exact absurd hk (hno k)
  refine ⟨fun p k k' hk hk' => ?_, fun e t f hl hkind => ?_, haligned, ?_, h.pending_of hlog hcarry⟩
  · rcases hkeyed p k hk with hk | hk <;> rcases hkeyed p k' hk' with hk' | hk'
    · exact h.key p k k' hk hk'
    · exact hmix p k k' hk hk'
    · exact (hmix p k' k hk' hk).symm
    obtain ⟨e, t, f, hn, hl, -, rfl⟩ := hk
    obtain ⟨e', t', f', hn', hl', -, rfl⟩ := hk'
    cases hN e e' hn hn'
    obtain ⟨rfl, rfl⟩ := hl.unique hl'
    rfl
  · rw [hpc]
    rcases hback e t f hl with ⟨e0, hl0, hp⟩ | hn
    · rw [← hp]
      exact h.cached e0 t f hl0 hkind
    · exact (hnew e t f hn hl).1 hkind
  · rw [hlog, hclock]
    exact h.stamp

theorem Track.quiet (hs : Same s s')
    (hpage : ∀ e t f, Live C s e t f → (s.dirty e.pfn = true → s'.dirty e.pfn = true) ∧
      s'.bytes e.pfn = s.bytes e.pfn) : Track C s' := by
  refine h.same hs (by rw [hlog, hclock]; exact h.stamp) (h.pending_of hlog fun e t f hl => .inl ?_)
  obtain ⟨hd, hb⟩ := hpage e t f hl
  exact ⟨e, hs.live.2 hl, rfl, rfl, rfl, hd, hb⟩

end Relink

/-- A step that changes the caches, and may give a page without a key one. -/
theorem Track.recache (h : Track C s) (hptes : s'.ptes = s.ptes) (hmm : s'.mm = s.mm) (hlog : s'.log = s.log)
    (hclock : s'.clock = s.clock) (hdirty : s'.dirty = s.dirty) (hbytes : s'.bytes = s.bytes) {N : Nat → Key → Prop}
    (hN : ∀ p k k', N p k → (N p k' → k = k') ∧ ¬Keyed C s p k')
    (hkey : ∀ p k, (k, p) ∈ s'.pageCache ∨ (k, p) ∈ s'.fileShared → Keyed C s p k ∨ N p k)
    (hcached : ∀ e t f, Live C s e t f → C.kind (C.fileId f) = .cached →
      s'.pageCache.lookup (C.keyOf f t.offset) = some e.pfn) : Track C s' := by
  have hkeyed : ∀ p k, Keyed C s' p k → Keyed C s p k ∨ N p k := by
    rintro p k (⟨e, t, f, hl, hp⟩ | hk)
    · exact .inl (.inl ⟨e, t, f, (Live.congr hptes hmm).mp hl, hp⟩)
    · exact hkey p k hk
  refine ⟨fun p k k' hk hk' => ?_, fun e t f hl => hcached e t f ((Live.congr hptes hmm).mp hl),
    by rw [hmm]; exact h.aligned, ?_, ?_⟩
  · rcases hkeyed p k hk with hk | hk <;> rcases hkeyed p k' hk' with hk' | hk'
    · exact h.key p k k' hk hk'
    · exact absurd hk (hN p k' k hk').2
    · exact absurd hk' (hN p k k' hk).2
    · exact (hN p k k' hk).1 hk'
  · rw [hlog, hclock]
    exact h.stamp
  · refine h.pending_of hlog fun e t f hl => .inl ⟨e, (Live.congr hptes hmm).mpr hl, rfl, rfl, rfl, ?_, ?_⟩
    · rw [hdirty]
      exact id
    · rw [hbytes]

variable {κ : Type}

private theorem lookup_eraseP_of_ne [BEq κ] [LawfulBEq κ] [DecidableEq κ] {l : List (κ × Nat)} {k k' : κ}
    (h : k' ≠ k) : (l.eraseP fun x => decide (x.1 = k)).lookup k' = l.lookup k' := by
  obtain he | ⟨⟨j, p⟩, l1, l2, -, hj, rfl, he⟩ := exists_or_eq_self_of_eraseP (fun x => decide (x.1 = k)) l
  · rw [he]
  · obtain rfl : j = k := of_decide_eq_true hj
    rw [he, List.lookup_append, List.lookup_append, lookup_cons, beq_false_of_ne h]

section Steps

variable (hinv : Inv C ⟨s, pins, loose⟩) (h : Track C s) {p : Nat} {k : Key}

include h

theorem Track.insert (hinv : Inv C ⟨s, pins, p :: loose⟩) (hk : s.pageCache.lookup k = none) :
    Track C (s.cacheInsert k p) := by
  refine h.recache rfl rfl rfl rfl rfl rfl (N := fun q j => q = p ∧ j = k) ?_ ?_ fun e t f hl hkind => ?_
  · rintro q j j' ⟨rfl, rfl⟩
    exact ⟨fun hj => hj.2.symm, fun hj => hinv.loose_notMem (hinv.keyed_mem hj)⟩
  · rintro q j (hj | hj)
    · rcases mem_cons.1 hj with hj | hj
      · cases hj
        exact .inr ⟨rfl, rfl⟩
      · exact .inl (.inr (.inl hj))
    · exact .inl (.inr (.inr hj))
  · have hlook := h.cached e t f hl hkind
    have hne : (C.keyOf f t.offset == k) = false := by
      rw [beq_eq_false_iff_ne]
      rintro rfl
      cases hk.symm.trans hlook
    show List.lookup (C.keyOf f t.offset) ((k, p) :: s.pageCache) = some e.pfn
    rw [lookup_cons, hne]
    exact hlook

include hinv

/-- A cached page that is mapped has two references, and is not evicted. -/
theorem Track.evict (hk : s.pageCache.lookup k = some p) (hone : s.pool.count p = 1) :
    Track C (s.cacheRemove k p) := by
  refine h.recache rfl rfl rfl rfl rfl rfl (N := fun _ _ => False) nofun
    (fun q j hj => .inl (.inr (hj.imp_left mem_of_mem_eraseP))) fun e t f hl hkind => ?_
  have hlook := h.cached e t f hl hkind
  have hne : C.keyOf f t.offset ≠ k := by
    rintro rfl
    cases hk.symm.trans hlook
    have hd := (hinv.owned hl.mem hl.attr hl.flushes).1
    have h1 : 0 < s.mapped.count e.pfn := count_pos_iff.2 (mem_mapped hl.mem hd)
    have h2 : 0 < s.shared.count e.pfn :=
      count_pos_iff.2 (mem_append_left _ (mem_map.2 ⟨_, lookup_mem hk, rfl⟩))
    rw [hinv.pool.count_eq, refs, count_append, count_append] at hone
    dsimp only at hone
    omega
  exact (lookup_eraseP_of_ne hne).trans hlook

omit hinv in
theorem Track.addFile (hl : Live C s e t f) :
    Track C ({ s with fileShared := (C.keyOf f t.offset, e.pfn) :: s.fileShared }.get e.pfn) := by
  refine h.recache rfl rfl rfl rfl rfl rfl (N := fun _ _ => False) nofun (fun q j hj => .inl ?_) h.cached
  rcases hj with hj | hj
  · exact .inr (.inl hj)
  · rcases mem_cons.1 hj with hj | hj
    · cases hj
      exact .inl ⟨e, t, f, hl, rfl, rfl⟩
    · exact .inr (.inr hj)

end Steps

/-! ### Steps of the entries -/

/-- The state changes at its entries only, and may change at what `Track` does not look at. -/
structure Relinked (s s' : State α) : Prop where
  mm : s'.mm = s.mm
  log : s'.log = s.log
  clock : s'.clock = s.clock
  dirty : s'.dirty = s.dirty
  bytes : s'.bytes = s.bytes
  pageCache : s'.pageCache = s.pageCache
  fileShared : s'.fileShared = s.fileShared

variable {x : Pte}

section Entries

variable {e : Pte} (h : Track C s) (hs : Relinked s s')

include hs

theorem Relinked.attr (x : Pte) : s'.attr x = s.attr x := by rw [State.attr, State.attr, hs.mm]

theorem Relinked.live (hl : Live C s x t f) (hx : x ∈ s'.ptes) : Live C s' x t f :=
  ⟨hx, (hs.attr x).trans hl.attr, hl.flushes, hl.file⟩

theorem Relinked.live_of (hl : Live C s' x t f) (hx : x ∈ s.ptes) : Live C s x t f :=
  ⟨hx, (hs.attr x).symm.trans hl.attr, hl.flushes, hl.file⟩

theorem Relinked.carried (hl : Live C s x t f) (hx : x ∈ s'.ptes) : Carried C s s' x t f :=
  ⟨x, hs.live hl hx, rfl, rfl, rfl, by rw [hs.dirty]; exact id, by rw [hs.bytes]⟩

include h

theorem Relinked.aligned (a x : Nat) (t : PageAttr) (ht : (s'.mm a).view x = some t)
    (hfl : C.flushes t.flag t.fp = true) (hx : pageSize ∣ x) : t.offset % 4096 = 0 :=
  h.aligned a x t (by rw [← hs.mm]; exact ht) hfl hx

theorem Track.add (habs : s.pte e.space e.va = none) (hptes : s'.ptes = (s.setPte e).ptes)
    (hnew : ∀ t f, Live C s' e t f →
      (C.kind (C.fileId f) = .cached → s.pageCache.lookup (C.keyOf f t.offset) = some e.pfn) ∧
      (Keyed C s e.pfn (C.keyOf f t.offset) ∨ ∀ k, ¬Keyed C s e.pfn k)) : Track C s' := by
  have hmem : s'.ptes = e :: s.ptes := by
    rw [hptes, setPte, eraseP_absent habs]
  refine h.relink hs.log hs.clock hs.pageCache hs.fileShared (hs.aligned h) (N := fun x => x = e)
    (fun x y hx hy => hx.trans hy.symm) (fun x t f hl => ?_) (fun x t f hx hl => ?_) fun x t f hl => ?_
  · have hx := hl.mem
    rw [hmem] at hx
    rcases mem_cons.1 hx with hx | hx
    · exact .inr hx
    · exact .inl ⟨x, hs.live_of hl hx, rfl⟩
  · subst hx
    exact hnew t f hl
  · exact .inl (hs.carried hl (by rw [hmem]; exact mem_cons_of_mem _ hl.mem))

/-- Another entry at the same place, for the same page unless the mapping is not written back. -/
theorem Track.change (hplaced : Placed s.ptes) (he : s.pte e.space e.va = some e) (hspace : x.space = e.space)
    (hva : x.va = e.va) (hptes : s'.ptes = (s.setPte x).ptes)
    (hpfn : x.pfn = e.pfn ∨ ∀ t, s.attr e = some t → C.flushes t.flag t.fp = false) : Track C s' := by
  have hemem := (pte_some he).1
  have hattr : s.attr x = s.attr e := by rw [attr, attr, hspace, hva]
  have hmem : ∀ y, y ∈ s'.ptes ↔ y = x ∨ y ∈ s.ptes ∧ ¬(y.space = e.space ∧ y.va = e.va) := by
    intro y
    rw [hptes, setPte, mem_cons, hplaced.mem_eraseP, hspace, hva]
  refine h.relink hs.log hs.clock hs.pageCache hs.fileShared (hs.aligned h) (N := fun _ => False)
    (fun _ _ hx => hx.elim) (fun y t f hl => .inl ?_) (fun _ _ _ hx => hx.elim) fun y t f hl => .inl ?_
  · rcases (hmem y).mp hl.mem with rfl | ⟨hy, -⟩
    · have hte : s.attr e = some t := hattr ▸ (hs.attr y).symm.trans hl.attr
      rcases hpfn with hpfn | hno
      · exact ⟨e, ⟨hemem, hte, hl.flushes, hl.file⟩, hpfn.symm⟩
      · exact absurd hl.flushes (by simp [hno t hte])
    · exact ⟨y, hs.live_of hl hy, rfl⟩
  · by_cases hy : y.space = e.space ∧ y.va = e.va
    · obtain rfl := hplaced.eq_of_at hl.mem he hy
      rcases hpfn with hpfn | hno
      · refine ⟨x, ⟨(hmem x).mpr (.inl rfl), (hs.attr x).trans (hattr.trans hl.attr), hl.flushes, hl.file⟩, hspace,
          hva, hpfn, ?_, ?_⟩
        · rw [hs.dirty]
          exact id
        · rw [hs.bytes]
      · exact absurd hl.flushes (by simp [hno t hl.attr])
    · exact hs.carried hl ((hmem y).mpr (.inr ⟨hl.mem, hy⟩))

theorem Track.unmap (hplaced : Placed s.ptes) (he : s.pte e.space e.va = some e)
    (hptes : s'.ptes = s.ptes.eraseP (Pte.isAt e.space e.va))
    (hf : ∀ t, s.attr e = some t → C.flushes t.flag t.fp = true →
      s.dirty e.pfn = false ∨ (Tracked C).forget s.log e.space e.va) : Track C s' := by
  have hmem : ∀ y, y ∈ s'.ptes ↔ y ∈ s.ptes ∧ ¬(y.space = e.space ∧ y.va = e.va) := by
    intro y
    rw [hptes, hplaced.mem_eraseP]
  refine h.relink hs.log hs.clock hs.pageCache hs.fileShared (hs.aligned h) (N := fun _ => False)
    (fun _ _ hx => hx.elim) (fun y t f hl => .inl ⟨y, hs.live_of hl ((hmem y).mp hl.mem).1, rfl⟩)
    (fun _ _ _ hx => hx.elim) fun y t f hl => ?_
  by_cases hy : y.space = e.space ∧ y.va = e.va
  · obtain rfl := hplaced.eq_of_at hl.mem he hy
    exact .inr (hf t hl.attr hl.flushes)
  · exact .inl (hs.carried hl ((hmem y).mpr ⟨hl.mem, hy⟩))

end Entries

theorem Track.clone (h : Track C s) (hplaced : Placed s.ptes) {c : Nat} {r : VmRegion}
    (he : s.pte e.space e.va = some e) (hc : s.pte c e.va = none) (ht : s.attr e = some t)
    (htc : (s.mm c).view e.va = some t) : Track C (cloneEntry C c r s e) := by
  have hne : e.space ≠ c := by
    rintro rfl
    cases he.symm.trans hc
  unfold cloneEntry
  dsimp only
  obtain ⟨x, hx⟩ : ∃ x, x = if (!C.isDirect r.fp && s.pool.owns e.pfn && !isShared r.flag) = true
    then { e with writable := false } else e := ⟨_, rfl⟩
  rw [← hx]
  have hsame : x.space = e.space ∧ x.va = e.va ∧ x.pfn = e.pfn := by
    rw [hx]
    split_ifs <;> exact ⟨rfl, rfl, rfl⟩
  obtain ⟨hspace, hva, hpfn⟩ := hsame
  have hs : Relinked s (s.setPte x) := ⟨rfl, rfl, rfl, rfl, rfl, rfl, rfl⟩
  have h1 := h.change hs hplaced he hspace hva rfl (.inl hpfn)
  -- the child has the page that the parent has
  have key : ∀ s' : State α, Relinked (s.setPte x) s' → s'.ptes = ((s.setPte x).setPte { x with space := c }).ptes →
      Track C s' := by
    intro s' hs' hptes
    refine h1.add hs' ?_ hptes fun t' f hl => ?_
    · rw [hva, pte_setPte_of_ne fun hc' => hne (hspace.symm.trans hc'.1)]
      exact hc
    · have ht' : t' = t := by
        have hattr : (s.mm c).view x.va = some t' := (hs'.attr _).symm.trans hl.attr
        rw [hva, htc] at hattr
        exact (some.inj hattr).symm
      subst ht'
      have hlx : Live C (s.setPte x) x t' f := by
        refine ⟨mem_cons_self, ?_, hl.flushes, hl.file⟩
        rw [hs.attr, attr, hspace, hva]
        exact ht
      exact ⟨h1.cached x t' f hlx, .inl (.inl ⟨x, t', f, hlx, rfl, rfl⟩)⟩
  split_ifs <;> exact key _ ⟨rfl, rfl, rfl, rfl, rfl, rfl, rfl⟩ rfl

variable {a pos file stamp addr : Nat} {offset : UInt64}

theorem Track.remap (h : Track C s) {mm : MmStruct}
    (hview : ∀ e ∈ s.ptes, e.space = a → mm.view e.va = (s.mm a).view e.va)
    (hattr : ∀ x t, mm.view x = some t → (∃ b, (s.mm b).view x = some t) ∨ (Tracked (α := α) C).attr x t) :
    Track C (s.setMm a mm) := by
  have hsame := attr_setMm hview
  refine h.relink rfl rfl rfl rfl (fun b x t ht hfl hx => ?_) (N := fun _ => False) (fun _ _ hx => hx.elim)
    (fun e t f hl => .inl ⟨e, { hl with attr := (hsame e hl.mem).symm.trans hl.attr }, rfl⟩)
    (fun _ _ _ hx => hx.elim)
    fun e t f hl => .inl ⟨e, { hl with attr := (hsame e hl.mem).trans hl.attr }, rfl, rfl, rfl, id, rfl⟩
  by_cases hb : b = a
  · rw [hb, setMm_self] at ht
    rcases hattr x t ht with ⟨b', ht'⟩ | hA
    · exact h.aligned b' x t ht' hfl hx
    · exact hA hfl hx
  · rw [setMm_of_ne s mm hb] at ht
    exact h.aligned b x t ht hfl hx

/-! ### Write-back and stores -/

theorem pageFloor_of_aligned (h : offset % 4096 = 0) : pageFloor offset = offset := by
  simp [pageFloor, h]

theorem Handed.mono {log log' : List (Event α)} (hsub : log ⊆ log') (h : Handed log pos file offset stamp) :
    Handed log' pos file offset stamp := by
  obtain ⟨data, hmem, hle⟩ := h
  exact ⟨data, hsub hmem, hle⟩

section Contents

variable (hinv : Inv C ⟨s, pins, loose⟩) (h : Track C s) {v : α}

include hinv h

theorem Track.live_aligned (hl : Live C s e t f) : t.offset % 4096 = 0 :=
  h.aligned e.space e.va t hl.attr hl.flushes (hinv.entry e hl.mem).1

theorem Track.writePage_bytes (hl : Live C s e t f) :
    (s.writePage C (C.fileId f) t.offset (s.bytes e.pfn)).bytes = s.bytes := by
  have hal := h.live_aligned hinv hl
  unfold writePage
  split_ifs with hkind
  · have hlook : s.pageCache.lookup ⟨C.fileId f, pageFloor t.offset⟩ = some e.pfn := h.cached e t f hl hkind
    simp [fsPageCacheUpdate, hal, hlook, fill]
  · rfl

theorem Track.flush (hl : Live C s e t f) :
    Track C ((s.writePage C (C.fileId f) t.offset (s.bytes e.pfn)).clearDirty e.pfn) := by
  have heq := writePage_eq (C := C) s (C.fileId f) t.offset (s.bytes e.pfn)
  rw [h.writePage_bytes hinv hl] at heq
  rw [heq]
  obtain ⟨s', hs'⟩ : ∃ s', s' = clearDirty
    { s with bytes := s.bytes, log := .writePage (C.fileId f) t.offset (s.bytes e.pfn) :: s.log } e.pfn := ⟨_, rfl⟩
  have hsame : Same s s' := by rw [hs']; exact ⟨rfl, rfl, rfl, rfl⟩
  have hlog : s'.log = .writePage (C.fileId f) t.offset (s.bytes e.pfn) :: s.log := by rw [hs']; rfl
  have hdirty : s'.dirty = update s.dirty e.pfn false := by rw [hs']; rfl
  have hclock : s'.clock = s.clock := by rw [hs']; rfl
  have hbytes : s'.bytes = s.bytes := by rw [hs']; rfl
  rw [← hs']
  refine h.same hsame (fun a va pos file offset stamp hev => ?_) fun a va pos file offset stamp hev => ?_
  · rw [hclock]
    exact h.stamp a va pos file offset stamp (by simpa [hlog] using hev)
  · rw [hlog]
    rcases h.pending a va pos file offset stamp (by simpa [hlog] using hev) with
      hh | ⟨e', t', f', hl', rfl, rfl, rfl, rfl, hd, hs⟩
    · exact .inl (hh.mono (subset_cons_self _ _))
    by_cases hp : e'.pfn = e.pfn
    · -- the same page of the same file, and both offsets are those of the page
      have hkey := h.key e.pfn _ _ (.inl ⟨e', t', f', hl', hp, rfl⟩) (.inl ⟨e, t, f, hl, rfl, rfl⟩)
      simp only [keyOf, Key.mk.injEq, pageFloor_of_aligned (h.live_aligned hinv hl),
        pageFloor_of_aligned (h.live_aligned hinv hl')] at hkey
      rw [hkey.1, hkey.2]
      exact .inl ⟨_, mem_cons_self, hp ▸ hs⟩
    · refine .inr ⟨e', t', f', hsame.live.2 hl', rfl, rfl, rfl, rfl, ?_, by rw [hbytes]; exact hs⟩
      rw [hdirty, update_of_ne hp]
      exact hd

omit h in
private theorem userStore_cases (hs : userStore C s a addr v = some s') : ∃ e, s.pte a (pageOf addr) = some e ∧
      s' = { s with
        bytes := update s.bytes e.pfn (update (s.bytes e.pfn) (addr % pageSize) ⟨s.clock + 1, v⟩)
        clock := s.clock + 1
        log := s'.log } ∧
      ((s'.log = s.log ∧ ∀ t f, ¬Live C s e t f) ∨ ∃ t f, Live C s e t f ∧
        s'.log = .store a (pageOf addr) (addr % pageSize) (C.fileId f) t.offset (s.clock + 1) :: s.log) := by
  obtain ⟨e, he, -, heq, hlog⟩ := userStore_spec hs
  obtain ⟨hmem, hspace, hva⟩ := pte_some he
  obtain ⟨hal, t, ht, -⟩ := hinv.entry e hmem
  obtain ⟨r, hr, hcov, rfl⟩ := (hinv.mm e.space).mem_of_view ht
  have hreg : regionAt s a (pageOf addr) = some r := by
    subst hspace
    rw [← hva]
    exact regionAt_of_mem (hinv.mm e.space) hal hr hcov
  refine ⟨e, he, heq, ?_⟩
  rcases hlog with ⟨hlog, hno⟩ | ⟨r', f, hr', hf, hfl, hlog⟩
  · refine .inl ⟨hlog, fun t f hl => ?_⟩
    cases ht.symm.trans hl.attr
    exact absurd hl.flushes (by simp [VmRegion.attrAt, hno r hreg])
  · cases hreg.symm.trans hr'
    rw [← hva] at hlog ⊢
    exact .inr ⟨_, f, ⟨hmem, ht, hfl, hf⟩, hlog⟩

theorem Track.store (hs : userStore C s a addr v = some s')
    (hA : ∀ e, s.pte a (pageOf addr) = some e → (Tracked C).store s e) : Track C s' := by
  obtain ⟨e, he, heq, hlog⟩ := userStore_cases hinv hs
  obtain ⟨hmem, hspace, hva⟩ := pte_some he
  have hstamp : ∀ p pos n, n ≤ s.clock → n ≤ (s.bytes p pos).stamp → n ≤ (s'.bytes p pos).stamp := by
    intro p pos n hn hle
    rw [heq]
    dsimp only
    by_cases hp : p = e.pfn
    · subst hp
      rw [update_self]
      by_cases hpos : pos = addr % pageSize
      · rw [hpos, update_self]
        exact Nat.le_succ_of_le hn
      · rw [update_of_ne hpos]
        exact hle
    · rw [update_of_ne hp]
      exact hle
  have hsame : Same s s' := by rw [heq]; exact ⟨rfl, rfl, rfl, rfl⟩
  have hdirty : s'.dirty = s.dirty := by rw [heq]
  have hclock : s'.clock = s.clock + 1 := by rw [heq]
  have hsub : s.log ⊆ s'.log := by
    rcases hlog with ⟨hlog, -⟩ | ⟨t, f, -, hlog⟩ <;> simp [hlog]
  have hnew : ∀ ev ∈ s'.log, ev ∈ s.log ∨ ∃ t f, Live C s e t f ∧
      ev = .store a (pageOf addr) (addr % pageSize) (C.fileId f) t.offset (s.clock + 1) := by
    intro ev hev
    rcases hlog with ⟨hlog, -⟩ | ⟨t, f, hl, hlog⟩
    · exact .inl (hlog ▸ hev)
    rw [hlog] at hev
    rcases mem_cons.1 hev with hev | hev
    · exact .inr ⟨t, f, hl, hev⟩
    · exact .inl hev
  -- the stores so far stay handed or pending
  have hold : ∀ b va pos file offset n, Event.store b va pos file offset n ∈ s.log →
      Handed s'.log pos file offset n ∨ Pending C s' b va pos file offset n := by
    intro b va pos file offset n hev
    rcases h.pending b va pos file offset n hev with hh | ⟨x, t, f, hl, h1, h2, h3, h4, hd, hn⟩
    · exact .inl (hh.mono hsub)
    · exact .inr ⟨x, t, f, hsame.live.2 hl, h1, h2, h3, h4, by rw [hdirty]; exact hd,
        hstamp _ _ _ (h.stamp _ _ _ _ _ _ hev) hn⟩
  refine h.same hsame ?_ ?_
  · intro b va pos file offset n hev
    rw [hclock]
    rcases hnew _ hev with hev | ⟨t, f, -, hev⟩
    · exact Nat.le_succ_of_le (h.stamp _ _ _ _ _ _ hev)
    · cases hev
      exact le_rfl
  · intro b va pos file offset n hev
    rcases hnew _ hev with hev | ⟨t, f, hl, hev⟩
    · exact hold b va pos file offset n hev
    · cases hev
      refine .inr ⟨e, t, f, hsame.live.2 hl, hspace, hva, rfl, rfl, ?_, ?_⟩
      · rw [hdirty]
        exact hA e he t f hl
      · rw [heq]
        dsimp only
        exact Nat.le_of_eq (by rw [update_self, update_self])

end Contents

private theorem flushes_iff {flag : Int} {fp : Option Nat} : C.flushes flag fp = true ↔
    isShared flag = true ∧ (C.kindOf fp = some .cached ∨ C.kindOf fp = some .uncached) := by
  simp [flushes]

variable {c c' : Cfg α}

/-- Every small step that meets the condition keeps track of the stores. -/
theorem Track.micro (hinv : Inv C c) (h : Track C c.s) (hm : Micro C (Tracked C) c c') : Track C c'.s := by
  cases hm with
  | perm => exact h
  | take hf =>
    refine h.quiet rfl rfl ⟨rfl, rfl, rfl, rfl⟩ fun e t f hl => ⟨fun hd => ?_, rfl⟩
    have hne : e.pfn ≠ _ := fun hp => by
      have := hinv.pool.not_free (.inl (hinv.live_mem hl))
      rw [hp, hf] at this
      cases this
    exact (update_of_ne hne _ _).trans hd
  | give | lose | keep | unkeep | hold | drop | pin | pinLoose | unpin | addAnon | dropAnon =>
    exact h.quiet rfl rfl ⟨rfl, rfl, rfl, rfl⟩ fun _ _ _ _ => ⟨id, rfl⟩
  | fill =>
    refine h.quiet rfl rfl ⟨rfl, rfl, rfl, rfl⟩ fun e t f hl => ⟨id, update_of_ne (fun hp => ?_) _ _⟩
    exact hinv.loose_notMem (hp ▸ hinv.live_mem hl)
  | insert hk => exact h.insert hinv hk
  | evict hk hone => exact h.evict hinv hk (hone.resolve_right id)
  | addFile he ht hsh hf hkind =>
    exact h.addFile ⟨he, ht, by simp [flushes, kindOf, hsh, hf, hkind], hf⟩
  | @mark s pins loose p =>
    refine h.quiet rfl rfl ⟨rfl, rfl, rfl, rfl⟩ fun e t f hl => ⟨fun hd => ?_, rfl⟩
    show update s.dirty p true e.pfn = true
    by_cases hp : e.pfn = p
    · rw [hp, update_self]
    · rw [update_of_ne hp]
      exact hd
  | @map s pins loose e t hp hd hsrc hw hb =>
    refine h.add ⟨rfl, rfl, rfl, rfl, rfl, rfl, rfl⟩ hp.absent rfl fun t' f hl => ?_
    cases hp.attr.symm.trans hl.attr
    obtain ⟨hsh, hkind⟩ := flushes_iff.1 hl.flushes
    obtain ⟨hc, hu⟩ := hb f hl.file hsh
    refine ⟨hc, .inl ?_⟩
    rw [hl.file] at hkind
    rcases hkind with hkind | hkind
    · exact .inr (.inl (lookup_mem (hc (some.inj hkind))))
    · exact .inr (.inr (lookup_mem (hu (some.inj hkind))))
  | mapLoose hp hd hk =>
    refine h.add ⟨rfl, rfl, rfl, rfl, rfl, rfl, rfl⟩ hp.absent rfl fun t' f hl =>
      ⟨fun hkind => ?_, .inr fun k hkey => ?_⟩
    · cases hp.attr.symm.trans hl.attr
      refine absurd ?_ (hk (flushes_iff.1 hl.flushes).1)
      rw [hl.file]
      exact congrArg some hkind
    · exact hinv.loose_notMem (hinv.keyed_mem hkey)
  | mapDirect hp hd hw =>
    refine h.add ⟨rfl, rfl, rfl, rfl, rfl, rfl, rfl⟩ hp.absent rfl fun t' f hl => ?_
    cases hp.attr.symm.trans hl.attr
    have hdirect := hp.direct.symm.trans hd
    rw [isDirect, decide_eq_true_eq] at hdirect
    rcases (flushes_iff.1 hl.flushes).2 with hkind | hkind <;> cases hdirect.symm.trans hkind
  | @replace s pins loose e t p he hd ht hpriv =>
    refine h.change (x := { e with pfn := p, writable := true }) ⟨rfl, rfl, rfl, rfl, rfl, rfl,
      rfl⟩ hinv.placed he rfl rfl rfl (.inr fun t' ht' => ?_)
    cases ht.symm.trans ht'
    simp [flushes, hpriv]
  | @writable s pins loose e t he hd ht hw =>
    exact h.change (x := { e with writable := true }) ⟨rfl, rfl, rfl, rfl, rfl, rfl, rfl⟩ hinv.placed he rfl rfl rfl
      (.inl rfl)
  | unmap he hf =>
    rw [release_eq]
    exact h.unmap ⟨rfl, rfl, rfl, rfl, rfl, rfl, rfl⟩ hinv.placed he rfl hf
  | clone he hc ht htc hflag hfp => exact h.clone hinv.placed he hc ht htc
  | flush he ht hf hfl => exact h.flush hinv ⟨(pte_some he).1, ht, hfl, hf⟩
  | store hs hA => exact h.store hinv hs hA
  | remap hok hview hattr => exact h.remap hview hattr

theorem Track.reach (hinv : Inv C c) (h : Track C c.s) (hr : Reach C (Tracked C) c c') : Track C c'.s := by
  induction hr with
  | refl => exact h
  | tail hr hm ih => exact ih.micro (hinv.reach hr) hm

theorem Boot.track (h : Boot C s) : Track C s := by
  have hlive : ∀ e t f, ¬Live C s e t f := by
    intro e t f hl
    have := hl.mem
    rw [h.ptes] at this
    cases this
  refine ⟨fun p k k' hk => ?_, fun e t f hl => absurd hl (hlive e t f), fun a x t ht => ?_, ?_, ?_⟩
  · rcases hk with ⟨e, t, f, hl, -⟩ | hk | hk
    · exact absurd hl (hlive e t f)
    · rw [h.pageCache] at hk
      cases hk
    · rw [h.fileShared] at hk
      cases hk
  · cases ((empty_ok C.arch _ (h.regions a)).2 x).symm.trans ht
  · rw [h.log]
    exact nofun
  · rw [h.log]
    exact nofun

def TrackedStep [Zero α] (C : Config) (s : State α) (op : Op α) (s' : State α) : Prop :=
  Step C s op s' ∧ op.Permits (Tracked C) s

theorem Boot.run_track [Zero α] {tr : List (Op α)} (h₀ : Boot C s) (hrun : Run (TrackedStep C) s tr s') :
    Inv C s'.idle ∧ Track C s' := by
  refine hrun.invariant_state (fun s => Inv C s.idle ∧ Track C s) ⟨h₀.inv, h₀.track⟩ ?_
  rintro t op u ⟨hinv, htrack⟩ ⟨hstep, hperm⟩
  exact ⟨hstep.inv hinv, Track.reach hinv htrack (hstep.reach hinv hperm)⟩

theorem Track.handed_of_clean (h : Track C s) {va : Nat} (hev : Event.store a va pos file offset stamp ∈ s.log)
    (hclean : ∀ e t f, Live C s e t f → e.space = a → e.va = va → C.fileId f = file → s.dirty e.pfn = false) :
    Handed s.log pos file offset stamp := by
  rcases h.pending a va pos file offset stamp hev with hh | ⟨e, t, f, hl, h1, h2, h3, -, hd, -⟩
  · exact hh
  · rw [hclean e t f hl h1 h2 h3] at hd
    cases hd

/-- **Write-back.**  In every run whose steps meet the condition: every store through a shared mapping of a file with
`write_page` is recorded; it has been handed to `write_page` when its page is no longer mapped, after `munmap`, a
replacement of the mapping, `madvise` or exit; and it has been handed after a flush of the file or of the address
space. -/
theorem writeback_runs [Zero α] (C : Config) (s₀ : State α) (h₀ : Boot C s₀) (tr : List (Op α)) (s : State α)
    (hrun : Run (TrackedStep C) s₀ tr s) :
    (∀ a addr v s' e t f, Step C s (.store a addr v) s' → s.pte a (pageOf addr) = some e → Live C s e t f →
      Event.store a (pageOf addr) (addr % pageSize) (C.fileId f) t.offset (s.clock + 1) ∈ s'.log) ∧
    (∀ a va pos file offset stamp, Event.store a va pos file offset stamp ∈ s.log → s.pte a va = none →
      Handed s.log pos file offset stamp) ∧ (∀ a f s', Step C s (.flushFile a f) s' → ∀ va pos offset stamp,
      Event.store a va pos (C.fileId f) offset stamp ∈ s'.log → Handed s'.log pos (C.fileId f) offset stamp) ∧
    ∀ a s', Step C s (.flushAll a) s' → ∀ va pos file offset stamp,
      Event.store a va pos file offset stamp ∈ s'.log → Handed s'.log pos file offset stamp := by
  obtain ⟨hinv, htrack⟩ := h₀.run_track hrun
  have hflush := fun op hperm {s'} (hstep : Step C s op s') => Track.reach hinv htrack (hstep.reach hinv hperm)
  refine ⟨fun a addr v s' e t f hstep he hl => ?_, fun a va pos file offset stamp hev hnone => ?_,
    fun a f s' hstep va pos offset stamp hev => ?_, fun a s' hstep va pos file offset stamp hev => ?_⟩
  · obtain ⟨-, _, _, hstore⟩ := hstep
    obtain ⟨e', he', -, ⟨-, hno⟩ | ⟨t', f', hl', hlog⟩⟩ := userStore_cases hinv hstore
    · cases he.symm.trans he'
      exact absurd hl (hno t f)
    · cases he.symm.trans he'
      obtain ⟨rfl, rfl⟩ := hl.unique hl'
      rw [hlog]
      exact mem_cons_self
  · refine htrack.handed_of_clean hev fun e t f hl h1 h2 _ => ?_
    exact absurd ⟨h1, h2⟩ (pte_none hnone e hl.mem)
  · have htrack' := hflush (.flushFile a f) trivial hstep
    obtain ⟨-, _, _, hexec⟩ := hstep
    cases hexec
    obtain ⟨-, hfs, hclean⟩ := vmFlushFileDirty_steps (A := Tracked C) hinv f
    refine htrack'.handed_of_clean hev fun e t g hl h1 _ h3 => ?_
    have hl' := (Live.congr hfs.ptes hfs.mm).mp hl
    exact hclean e hl'.mem h1 t g hl'.attr hl'.flushes hl'.file h3
  · have htrack' := hflush (.flushAll a) trivial hstep
    obtain ⟨-, _, _, hexec⟩ := hstep
    cases hexec
    obtain ⟨-, hfs, hclean⟩ := vmFlushAllDirty_steps (A := Tracked C) hinv
    refine htrack'.handed_of_clean hev fun e t f hl h1 _ _ => ?_
    have hl' := (Live.congr hfs.ptes hfs.mm).mp hl
    exact hclean e hl'.mem h1 t hl'.attr hl'.flushes

/-! ### One store and two stores -/

/-- A page of a file is mapped shared and faulted in for writing. -/
private def mapShared : List (Op Nat) := [.mmap 1 (onePage 1 (some 1) 0), .fault 1 0x1000 true (grants 5)]

private theorem mapShared_valid : ∀ op ∈ mapShared, ∀ t, op.Valid sampleConfig t := by
  simp only [mapShared, forall_mem_cons]
  exact ⟨onePage_valid _ _ _ _, fun _ => trivial, nofun⟩

private theorem mapShared_permits : ∀ op ∈ mapShared, ∀ t, op.Permits (Tracked sampleConfig) t := by
  simp only [mapShared, forall_mem_cons]
  refine ⟨fun t fresh x h1 h2 _ hx => ?_, fun _ => trivial, nofun⟩
  -- the only page address of the mapping is its first one
  replace h1 : 0x1000 ≤ x := h1
  replace h2 : x < 0x2000 := h2
  obtain ⟨i, rfl⟩ := hx
  obtain rfl : i = 1 := by
    unfold pageSize at h1 h2
    omega
  rfl

private def hasStore (stamp : Nat) (s : State Nat) : Bool :=
  s.log.any fun ev => match ev with
    | .store a va pos file offset n =>
      a = 1 && va = 0x1000 && pos = 0 && file = 1 && decide (offset = 0) && n = stamp
    | .writePage .. => false

private theorem mem_of_hasStore {s : State Nat} (h : hasStore stamp s = true) :
    Event.store 1 0x1000 0 1 0 stamp ∈ s.log := by
  obtain ⟨ev, hmem, hev⟩ := any_eq_true.1 h
  cases ev with
  | store a va pos file offset n =>
    simp only [Bool.and_eq_true, decide_eq_true_eq] at hev
    obtain ⟨⟨⟨⟨⟨rfl, rfl⟩, rfl⟩, rfl⟩, rfl⟩, rfl⟩ := hev
    exact hmem
  | writePage file offset data => cases hev

theorem writeback_runs_munmap : ∃ s, Run (TrackedStep sampleConfig) sampleBoot
    (mapShared ++ [.store 1 0x1000 7] ++ [.munmap 1 0x1000 0x1000]) s ∧ Event.store 1 0x1000 0 1 0 1 ∈ s.log ∧
    Handed s.log 0 1 0 1 := by
  obtain ⟨s, hrun, hs⟩ := exists_run (s := sampleBoot) 4 mapShared_valid (P := fun s =>
    s.pte 1 0x1000 = some ⟨1, 0x1000, 5, true, false⟩ && (s.dirty 5 &&
      (exec sampleConfig 0 4 s (.store 1 0x1000 7)).any fun s1 =>
        (exec sampleConfig 0 4 s1 (.munmap 1 0x1000 0x1000)).any fun s2 => hasStore 1 s2 && s2.pte 1 0x1000 = none))
    (by decide)
  simp only [Bool.and_eq_true, decide_eq_true_eq] at hs
  obtain ⟨hpte, hdirty, hs1⟩ := hs
  obtain ⟨s1, h1, hs1⟩ := (any_eq_true _ _).mp hs1
  obtain ⟨s2, h2, hs2⟩ := (any_eq_true _ _).mp hs1
  simp only [Bool.and_eq_true, decide_eq_true_eq] at hs2
  have hstore : TrackedStep sampleConfig s (.store 1 0x1000 7) s1 := by
    refine ⟨⟨trivial, 0, 4, h1⟩, fun e he t f _ => ?_⟩
    cases hpte.symm.trans he
    exact hdirty
  have hunmap : TrackedStep sampleConfig s1 (.munmap 1 0x1000 0x1000) s2 := ⟨⟨trivial, 0, 4, h2⟩, trivial⟩
  have hrun0 : Run (TrackedStep sampleConfig) sampleBoot mapShared s :=
    hrun.imp fun t u op hop hstep => ⟨hstep, mapShared_permits op hop t⟩
  have hrun2 := (hrun0.snoc hstore).snoc hunmap
  refine ⟨s2, hrun2, mem_of_hasStore hs2.1, ?_⟩
  exact (writeback_runs sampleConfig sampleBoot sampleBoot_boot _ s2 hrun2).2.1 1 0x1000 0 1 0 1
    (mem_of_hasStore hs2.1) hs2.2

/-- After the store the address space is flushed, the page is written again and unmapped. -/
private def secondStore : List (Op Nat) :=
  mapShared ++ [.store 1 0x1000 7, .flushAll 1, .store 1 0x1000 8, .munmap 1 0x1000 0x1000]

private def handedBefore (stamp : Nat) (s : State Nat) : Bool :=
  s.log.all fun ev => match ev with
    | .writePage _ _ data => decide ((data 0).stamp < stamp)
    | .store .. => true

/-- Write-back clears the dirty flag and leaves the entry writable: the next store is not seen, and `munmap` drops
it. -/
theorem store_after_flush_lost : ∃ s, Run (Step sampleConfig) sampleBoot secondStore s ∧
    Event.store 1 0x1000 0 1 0 2 ∈ s.log ∧ s.pte 1 0x1000 = none ∧ ¬Handed s.log 0 1 0 2 := by
  have hv : ∀ op ∈ secondStore, ∀ t, op.Valid sampleConfig t := by
    refine forall_mem_append.2 ⟨mapShared_valid, ?_⟩
    simp only [forall_mem_cons]
    exact ⟨fun _ => trivial, fun _ => trivial, fun _ => trivial, fun _ => trivial, nofun⟩
  obtain ⟨s, hrun, hs⟩ := exists_run (s := sampleBoot) 4 hv
    (P := fun s => hasStore 2 s && (s.pte 1 0x1000 = none && handedBefore 2 s)) (by decide)
  simp only [Bool.and_eq_true, decide_eq_true_eq] at hs
  refine ⟨s, hrun, mem_of_hasStore hs.1, hs.2.1, ?_⟩
  rintro ⟨data, hmem, hle⟩
  have hbefore := all_eq_true.1 hs.2.2 _ hmem
  simp at hbefore
  omega

end Mos.Paging
