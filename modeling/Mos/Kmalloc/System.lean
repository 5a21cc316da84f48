import Mos.Kmalloc.Operations
import Mos.Lib.Run

/-!
# Runs of the kernel heap

Callers allocate, write to the payloads they hold and free them; between the failed search of a `malloc` and the chunk
it gets from the page supplier other calls may run.
-/

namespace Mos.Kmalloc

open Lib List Cell

variable {n : Nat}

theorem mallocNeed_spec (a : Arch) (hn : n ≤ 2 ^ 31) :
    minBlk a ≤ mallocNeed a n ∧ 8 ∣ mallocNeed a n ∧ n + hdrSz ≤ mallocNeed a n ∧ mallocNeed a n ≤ 2 ^ 31 + 24 ∧
      (mallocNeed a n = minBlk a ∨ mallocNeed a n < n + hdrSz + 8) := by
  obtain ⟨h16, h24⟩ := minBlk_le a
  have h8 : 8 ∣ minBlk a := by cases a <;> decide
  have halign : align8 (addW 32 n hdrSz) = (n + 8 + 7) / 8 * 8 := by
    rw [hdrSz, addW_eq (by omega), align8, addW_eq (by omega)]
  unfold mallocNeed
  dsimp only
  rw [halign, hdrSz]
  split_ifs <;> omega

/-- The heap, the chunks it was given, the payloads callers hold with the sizes they asked for, and the requests that
wait for a chunk. -/
structure Sys where
  heap : Heap
  chunks : List (Nat × Nat)
  live : List (Nat × Nat)
  waiting : List Nat

inductive Event
  | malloc (n : Nat) (ptr : Nat)
  /-- A request of `n` bytes found no block and asks for a chunk. -/
  | ask (n : Nat)
  | extended (n : Nat) (ptr : Nat)
  | refused (n : Nat)
  | free (ptr : Nat)
  | touch

/-- `kblk_raw` returned a fresh, page-aligned chunk for a request of `n` bytes. -/
structure Fresh (a : Arch) (chunks : List (Nat × Nat)) (n addr : Nat) : Prop where
  page : pageSize ∣ addr
  ne_zero : addr ≠ 0
  apart : ∀ c ∈ chunks, addr + extendChunk a (mallocNeed a n) ≤ c.1 ∨ c.2 + hdrSz ≤ addr

inductive Step (a : Arch) (t : Sys) : Event → Sys → Prop
  | malloc {n ptr h} : 1 ≤ n → n ≤ 2 ^ 31 → Kmalloc.malloc a t.heap n = (h, .ptr ptr) →
    Step a t (.malloc n ptr) { t with heap := h, live := (ptr, n) :: t.live }
  | ask {n need h} : 1 ≤ n → n ≤ 2 ^ 31 → Kmalloc.malloc a t.heap n = (h, .extend need) →
    Step a t (.ask n) { t with heap := h, waiting := n :: t.waiting }
  | extended {n addr ptr h} : n ∈ t.waiting → Fresh a t.chunks n addr →
    mallocExtended a t.heap (mallocNeed a n) (some addr) = (h, .ptr ptr) → Step a t (.extended n ptr)
      { heap := h, chunks := (addr, addr + extendChunk a (mallocNeed a n) - hdrSz) :: t.chunks,
        live := (ptr, n) :: t.live, waiting := t.waiting.erase n }
  | refused {n h} : n ∈ t.waiting → mallocExtended a t.heap (mallocNeed a n) none = (h, .null) →
    Step a t (.refused n) { t with heap := h, waiting := t.waiting.erase n }
  | free {ptr n} : (ptr, n) ∈ t.live →
    Step a t (.free ptr) { t with heap := Kmalloc.free a t.heap ptr, live := t.live.erase (ptr, n) }
  /-- Callers write to their payloads, and anyone to memory outside the heap. -/
  | touch {hdr} : (∀ x, (∃ c ∈ t.chunks, c.1 ≤ x ∧ x < c.2 + hdrSz) →
      (∀ l ∈ t.live, ¬(l.1 ≤ x ∧ x < l.1 + l.2)) → hdr x = t.heap.hdr x) →
    Step a t .touch { t with heap := { t.heap with hdr := hdr } }

def isUsed (b : Block) : Bool := b.tag = .used

def payload (b : Block) : Nat := b.addr + hdrSz

def usedSize (l : List Block) : Nat := ((l.filter isUsed).map Cell.size).sum

structure SysOk (a : Arch) (t : Sys) (cs : List (Chunk Tag)) : Prop where
  heap : HeapOk a t.heap cs
  chunks : cs.map Chunk.bounds = t.chunks
  settled : ∀ b ∈ cellsOf cs, b.tag ≠ .hand
  live : (t.live.map Prod.fst).Perm (((cellsOf cs).filter isUsed).map payload)
  room : ∀ l ∈ t.live, ∃ b ∈ cellsOf cs, b.tag = .used ∧ payload b = l.1 ∧ l.2 + hdrSz ≤ b.size
  quota : t.heap.heapQuota = usedSize (cellsOf cs) % 2 ^ 32
  waiting : ∀ n ∈ t.waiting, n ≤ 2 ^ 31

variable {l rest : List Block} {b : Block} {ptr : Nat} {h : Heap}

private theorem filter_isUsed_perm (cut : List Block) (hp : l.Perm (cut ++ rest)) (hcut : ∀ b ∈ cut, b.tag = .free) :
    (l.filter isUsed).Perm (rest.filter isUsed) := by
  have hnil : cut.filter isUsed = [] := by
    refine filter_eq_nil_iff.2 fun b hb => ?_
    simp [isUsed, hcut b hb]
  have hf := hp.filter isUsed
  rwa [filter_append, hnil, nil_append] at hf

private theorem usedSize_perm {l' : List Block} (h : (l.filter isUsed).Perm (l'.filter isUsed)) :
    usedSize l = usedSize l' :=
  (h.map size).sum_nat

private theorem filter_isUsed_cons (hp : l.Perm (b :: rest)) (hb : b.tag = .used) :
    (l.filter isUsed).Perm (b :: rest.filter isUsed) := by
  have hf := hp.filter isUsed
  rwa [filter_cons_of_pos (by simp [isUsed, hb])] at hf

private theorem usedSize_cons (hp : l.Perm (b :: rest)) (hb : b.tag = .used) :
    usedSize l = b.size + usedSize rest := by
  rw [usedSize, ((filter_isUsed_cons hp hb).map size).sum_nat]
  simp [usedSize]

/-! ### Steps -/

section Sys

variable {a : Arch} {t u : Sys} {cs : List (Chunk Tag)} {e : Event}

/-- The end of both ways to allocate: a block in hand beside a settled rest. -/
theorem SysOk.take {chunks live : List (Nat × Nat)} {waiting : List Nat}
    (ok : HeapOk a h cs) (hp : (cellsOf cs).Perm (b :: rest)) (ht : b.tag = .hand) (hn : n ≤ 2 ^ 31)
    (hfit : mallocNeed a n ≤ b.size) (hchunks : cs.map Chunk.bounds = chunks) (hsettled : ∀ c ∈ rest, c.tag ≠ .hand)
    (hlive : (live.map Prod.fst).Perm ((rest.filter isUsed).map payload))
    (hroom : ∀ l ∈ live, ∃ c ∈ rest, c.tag = .used ∧ payload c = l.1 ∧ l.2 + hdrSz ≤ c.size)
    (hquota : h.heapQuota = usedSize rest % 2 ^ 32) (hwait : ∀ n ∈ waiting, n ≤ 2 ^ 31) :
    ∃ cs', SysOk a ⟨(mallocBlock a h (mallocNeed a n) b.addr).1, chunks,
      ((mallocBlock a h (mallocNeed a n) b.addr).2, n) :: live, waiting⟩ cs' := by
  obtain ⟨hmin, h8, hneed, -, -⟩ := mallocNeed_spec a hn
  obtain ⟨hptr, cs', size, extra, hk⟩ := mallocBlock_spec ok hp ht hmin h8 hfit
  have hused : ((cellsOf cs').filter isUsed).Perm (⟨b.addr, size, .used⟩ :: rest.filter isUsed) :=
    (filter_isUsed_cons hk.cells rfl).trans ((filter_isUsed_perm extra (Perm.refl _) hk.extra_free).cons _)
  have hmem : ∀ c ∈ rest, c ∈ cellsOf cs' := fun c hc => hk.cells.mem_iff.2 (by simp [hc])
  refine ⟨cs', hk.ok, hk.bounds.trans hchunks, fun c hc => ?_, ?_, ?_, ?_, hwait⟩
  · rcases mem_cons.1 (hk.cells.mem_iff.1 hc) with rfl | hc
    · exact Tag.noConfusion
    · rcases mem_append.1 hc with hc | hc
      · rw [hk.extra_free c hc]
        exact Tag.noConfusion
      · exact hsettled c hc
  · rw [hptr]
    exact (hlive.cons _).trans (hused.map payload).symm
  · refine forall_mem_cons.2 ⟨⟨⟨b.addr, size, .used⟩, ?_, rfl, hptr.symm, ?_⟩, fun l hl => ?_⟩
    · exact head_mem hk.cells
    · exact hneed.trans hk.fits
    · obtain ⟨c, hc, h1, h2, h3⟩ := hroom l hl
      exact ⟨c, hmem c hc, h1, h2, h3⟩
  · have hsum : usedSize (cellsOf cs') = size + usedSize rest := by
      rw [usedSize_cons hk.cells rfl, usedSize_perm (filter_isUsed_perm extra (Perm.refl _) hk.extra_free)]
    rw [hk.quota, hquota, addW_mod, hsum, Nat.add_comm]

/-- `malloc` takes a free block that fits, or asks for a chunk if there is none. -/
theorem malloc_spec (ok : HeapOk a h cs) (h0 : 1 ≤ n) (hn : n ≤ 2 ^ 31) :
    (malloc a h n = (h, .extend (mallocNeed a n)) ∧ ∀ b ∈ cellsOf cs, b.tag = .free → b.size < mallocNeed a n) ∨
    ∃ b ∈ cellsOf cs, b.tag = .free ∧ mallocNeed a n ≤ b.size ∧
      malloc a h n = ((mallocBlock a (flRemove a h b.addr) (mallocNeed a n) b.addr).1,
        .ptr (mallocBlock a (flRemove a h b.addr) (mallocNeed a n) b.addr).2) := by
  obtain ⟨hmin, h8, -, -, -⟩ := mallocNeed_spec a hn
  unfold malloc
  rw [if_neg (Nat.ne_of_gt h0)]
  dsimp only
  rcases findFree_spec ok hmin h8 with ⟨hnone, hsmall⟩ | ⟨b, hb, ht, hfit, hsome⟩
  · rw [hnone]
    exact .inl ⟨rfl, hsmall⟩
  · rw [hsome]
    exact .inr ⟨b, hb, ht, hfit, rfl⟩

theorem HeapOk.nodup_addr (ok : HeapOk a h cs) : ((cellsOf cs).map addr).Nodup := by
  refine pairwise_map.2 ((cellsOf_pairwise ok.apart).imp_of_mem fun {b c} hb hc hd he => ?_)
  have h1 := ok.pos hb
  have h2 := ok.pos hc
  unfold Cell.Apart at hd
  omega

private theorem exists_perm_cons (hb : b ∈ l) : ∃ rest, l.Perm (b :: rest) := by
  obtain ⟨l1, l2, rfl⟩ := append_of_mem hb
  exact ⟨l1 ++ l2, perm_middle⟩

section

variable (ok : SysOk a t cs)

include ok

theorem SysOk.malloc (h0 : 1 ≤ n) (hn : n ≤ 2 ^ 31) (hcall : malloc a t.heap n = (h, .ptr ptr)) :
    ∃ cs', SysOk a { t with heap := h, live := (ptr, n) :: t.live } cs' := by
  rcases malloc_spec ok.heap h0 hn with ⟨hask, -⟩ | ⟨b, hb, ht, hfit, hfound⟩
  · rw [hask] at hcall
    cases hcall
  rw [hfound] at hcall
  cases hcall
  obtain ⟨rest, hp⟩ := exists_perm_cons hb
  obtain ⟨cs1, ok1, hbounds1, hp1⟩ := ok.heap.flRemove hp ht
  have hrest : ∀ c ∈ rest, c ∈ cellsOf cs := fun c hc => hp.mem_iff.2 (mem_cons_of_mem _ hc)
  have hfree : ((cellsOf cs).filter isUsed).Perm (rest.filter isUsed) :=
    filter_isUsed_perm [b] hp (by simp [ht])
  have htake := SysOk.take ok1 hp1 rfl hn hfit (hbounds1.trans ok.chunks) (fun c hc => ok.settled c (hrest c hc))
    (ok.live.trans (hfree.map payload)) (fun l hl => ?_) (ok.quota.trans (by rw [usedSize_perm hfree])) ok.waiting
  · exact htake
  · obtain ⟨c, hc, h1, h2, h3⟩ := ok.room l hl
    rcases mem_cons.1 (hp.mem_iff.1 hc) with rfl | hc
    · rw [ht] at h1
      cases h1
    · exact ⟨c, hc, h1, h2, h3⟩

theorem SysOk.extended {addr : Nat} (hn : n ∈ t.waiting)
    (hfresh : Fresh a t.chunks n addr)
    (hcall : mallocExtended a t.heap (mallocNeed a n) (some addr) = (h, .ptr ptr)) :
    ∃ cs', SysOk a
      { heap := h, chunks := (addr, addr + extendChunk a (mallocNeed a n) - hdrSz) :: t.chunks,
        live := (ptr, n) :: t.live, waiting := t.waiting.erase n } cs' := by
  have hle := ok.waiting n hn
  obtain ⟨hmin, -, -, hmax, -⟩ := mallocNeed_spec a hle
  obtain ⟨c, hbounds, hcells, ok1⟩ := extendHeap_spec ok.heap hmin hmax
    (Nat.dvd_trans ⟨512, rfl⟩ hfresh.page) (fun d hd => hfresh.apart d (ok.chunks ▸ hd))
  have hp : (cellsOf (c :: cs)).Perm (⟨addr, extendChunk a (mallocNeed a n) - hdrSz, .hand⟩ :: cellsOf cs) := by
    rw [cellsOf, flatMap_cons, hcells]
    exact Perm.refl _
  have hroom := (extendChunk_spec a hmax).1
  have hchunks : (c :: cs).map Chunk.bounds = (addr, addr + extendChunk a (mallocNeed a n) - hdrSz) :: t.chunks := by
    rw [map_cons, hbounds, ok.chunks]
  have hwait : ∀ m ∈ t.waiting.erase n, m ≤ 2 ^ 31 := fun m hm => ok.waiting m (mem_of_mem_erase hm)
  have htake := SysOk.take ok1 hp rfl hle (Nat.le_sub_of_add_le hroom) hchunks ok.settled ok.live ok.room ok.quota
    hwait
  have hblock : (mallocBlock a (extendHeap a t.heap (mallocNeed a n) (some addr)).1 (mallocNeed a n) addr) = (h,
    ptr) := by
    cases hcall
    rfl
  rw [hblock] at htake
  exact htake

theorem SysOk.free (hl : (ptr, n) ∈ t.live) :
    ∃ cs', SysOk a { t with heap := Kmalloc.free a t.heap ptr, live := t.live.erase (ptr, n) } cs' := by
  obtain ⟨b, hb, ht, hptr, -⟩ := ok.room _ hl
  obtain ⟨rest, hp⟩ := exists_perm_cons hb
  obtain ⟨hq, cs', size, cut, rest', hg⟩ := free_spec ok.heap hp ht
    fun c hc => ok.settled c (hp.mem_iff.2 (mem_cons_of_mem _ hc))
  have hptr : b.addr + hdrSz = ptr := hptr
  rw [hptr] at hq hg
  have hlive : ((t.live.erase (ptr, n)).map Prod.fst).Perm ((rest.filter isUsed).map payload) := by
    have h1 : (ptr :: (t.live.erase (ptr, n)).map Prod.fst).Perm (t.live.map Prod.fst) :=
      (perm_cons_erase hl).symm.map Prod.fst
    have h2 := (h1.trans ok.live).trans ((filter_isUsed_cons hp ht).map payload)
    rw [map_cons, payload, hptr] at h2
    exact Perm.cons_inv h2
  have hcut := filter_isUsed_perm cut hg.rest_perm hg.cut_free
  have hnew : ((cellsOf cs').filter isUsed).Perm (rest'.filter isUsed) :=
    filter_isUsed_perm [⟨b.addr, size, .free⟩] hg.cells (by simp)
  refine ⟨cs', hg.ok, hg.bounds.trans ok.chunks, fun c hc => ?_, ?_, fun l hl' => ?_, ?_, ok.waiting⟩
  · rcases mem_cons.1 (hg.cells.mem_iff.1 hc) with rfl | hc
    · exact Tag.noConfusion
    · have hc := hg.rest_perm.mem_iff.2 (mem_append_right _ hc)
      exact ok.settled c (hp.mem_iff.2 (mem_cons_of_mem _ hc))
  · exact hlive.trans ((hcut.trans hnew.symm).map payload)
  · -- another payload belongs to another block, which is used and so not merged
    obtain ⟨c, hc, h1, h2, h3⟩ := ok.room l (mem_of_mem_erase hl')
    have hmem : c ∈ rest.filter isUsed := by
      have hl1 := hlive.mem_iff.1 (mem_map_of_mem hl')
      obtain ⟨d, hd, hdl⟩ := mem_map.1 hl1
      have hdrest := mem_of_mem_filter hd
      have hne := ok.heap.addr_ne hp hdrest
      refine mem_filter.2 ⟨?_, by simp [isUsed, h1]⟩
      rcases mem_cons.1 (hp.mem_iff.1 hc) with rfl | hc
      · simp only [payload] at h2 hdl
        omega
      · exact hc
    exact ⟨c, mem_of_mem_filter (hnew.mem_iff.2 (hcut.mem_iff.1 hmem)), h1, h2, h3⟩
  · rw [hq, ok.quota, usedSize_cons hp ht, Nat.add_comm, subW_mod, usedSize_perm (hcut.trans hnew.symm)]

/-- A payload lies behind the header of its block, and so holds no header. -/
theorem SysOk.not_in_payload {x : Nat}
    (hx : ∀ b ∈ cellsOf cs, x ≤ b.addr ∨ b.stop ≤ x) : ∀ l ∈ t.live, ¬(l.1 ≤ x ∧ x < l.1 + l.2) := by
  rintro l hl ⟨h1, h2⟩
  obtain ⟨b, hb, -, hptr, hsize⟩ := ok.room l hl
  have := hx b hb
  have hhdr : hdrSz = 8 := rfl
  simp only [payload, stop] at this hptr
  omega

theorem SysOk.touch {hdr : Nat → Nat}
    (hsame : ∀ x, (∃ c ∈ t.chunks, c.1 ≤ x ∧ x < c.2 + hdrSz) → (∀ l ∈ t.live, ¬(l.1 ≤ x ∧ x < l.1 + l.2)) →
      hdr x = t.heap.hdr x) : SysOk a { t with heap := { t.heap with hdr := hdr } } cs := by
  have hin : ∀ c ∈ cs, ∀ x, c.base ≤ x → x ≤ c.top → (∀ b ∈ cellsOf cs, x ≤ b.addr ∨ b.stop ≤ x) →
      hdr x = t.heap.hdr x := by
    intro c hc x h1 h2 hout
    refine hsame x ⟨c.bounds, ok.chunks ▸ mem_map_of_mem hc, h1, ?_⟩ (ok.not_in_payload hout)
    exact h2.trans_lt (Nat.lt_add_of_pos_right (by decide))
  refine { ok with heap := { ok.heap with header := fun b hb => ?_, epilogue := fun c hc => ?_ } }
  · obtain ⟨c, hc, hbc⟩ := mem_cellsOf.1 hb
    have hbnd := c.tiles.bounds.2 b hbc
    have hpos := ok.heap.pos hb
    refine (hin c hc _ hbnd.1 (by omega) fun d hd => ?_).trans (ok.heap.header b hb)
    obtain ⟨rest, hp⟩ := exists_perm_cons hb
    rcases mem_cons.1 (hp.mem_iff.1 hd) with rfl | hd
    · exact .inl le_rfl
    · have := (pairwise_cons.1 (ok.heap.pairwise_apart hp)).1 d hd
      unfold Cell.Apart at this
      omega
  · refine (hin c hc _ c.tiles.bounds.1 le_rfl fun d hd => ?_).trans (ok.heap.epilogue c hc)
    have := cell_apart_top (by decide) ok.heap.apart hd hc
    omega

theorem SysOk.step (hs : Step a t e u) : ∃ cs', SysOk a u cs' := by
  cases hs with
  | malloc h0 hn hcall => exact ok.malloc h0 hn hcall
  | @ask n need h h0 hn hcall =>
    rcases malloc_spec ok.heap h0 hn with ⟨hask, -⟩ | ⟨b, -, -, -, hfound⟩
    · rw [hask] at hcall
      cases hcall
      exact ⟨cs, { ok with waiting := forall_mem_cons.2 ⟨hn, ok.waiting⟩ }⟩
    · rw [hfound] at hcall
      cases hcall
  | extended hn hfresh hcall => exact ok.extended hn hfresh hcall
  | refused hn hcall =>
    cases hcall
    exact ⟨cs, { ok with waiting := fun m hm => ok.waiting m (mem_of_mem_erase hm) }⟩
  | free hl => exact ok.free hl
  | touch hsame => exact ⟨cs, ok.touch hsame⟩

end

theorem init_ok (a : Arch) (mem : Nat → Nat) : SysOk a ⟨kmallocInit mem, [], [], []⟩ [] := by
  refine ⟨⟨Pairwise.nil, ?_, ?_, ?_, ?_, fun k => Perm.refl _, fun k => ?_⟩, rfl, ?_, Perm.refl _, ?_, rfl, ?_⟩
  all_goals first | exact fun _ h => absurd h not_mem_nil | skip
  simp [bit, kmallocInit]

private theorem run_ok {mem : Nat → Nat} {tr : List Event} (h : Run (Step a) ⟨kmallocInit mem, [], [], []⟩ tr t) :
    ∃ cs, SysOk a t cs :=
  h.invariant_state (fun t => ∃ cs, SysOk a t cs) ⟨[], init_ok a mem⟩ fun _ _ _ ⟨_, ok⟩ hs => ok.step hs

/-! ### Live payloads -/

theorem SysOk.live_pairwise (ok : SysOk a t cs) : t.live.Pairwise fun l m => l.1 + l.2 ≤ m.1 ∨ m.1 + m.2 ≤ l.1 := by
  have hnodup : (t.live.map Prod.fst).Nodup := by
    refine ok.live.nodup_iff.2 ?_
    have hsub : ((cellsOf cs).filter isUsed).Pairwise fun b c => b.addr ≠ c.addr :=
      (pairwise_map.1 ok.heap.nodup_addr).filter _
    exact pairwise_map.2 (hsub.imp fun h he => h (Nat.add_right_cancel he))
  refine (pairwise_map.1 hnodup).imp_of_mem fun {l m} hl hm hne => ?_
  obtain ⟨b, hb, -, hbl, hbs⟩ := ok.room l hl
  obtain ⟨c, hc, -, hcm, hcs⟩ := ok.room m hm
  have hbc : b ≠ c := by
    rintro rfl
    exact hne (hbl.symm.trans hcm)
  have : Std.Symm (Cell.Apart (α := Tag)) := ⟨fun _ _ h => h.symm⟩
  have hd := (cellsOf_pairwise ok.heap.apart).forall hb hc hbc
  simp only [payload] at hbl hcm
  unfold Cell.Apart stop at hd
  omega

theorem SysOk.quota_live (ok : SysOk a t cs) :
    usedSize (cellsOf cs) = (t.live.map fun l => blkSz t.heap (l.1 - hdrSz)).sum := by
  have hsize : ((cellsOf cs).filter isUsed).map size =
      (((cellsOf cs).filter isUsed).map payload).map fun p => blkSz t.heap (p - hdrSz) := by
    rw [map_map]
    refine map_congr_left fun b hb => ?_
    rw [Function.comp_apply, payload, Nat.add_sub_cancel, ok.heap.blkSz (mem_of_mem_filter hb)]
  have hperm := ok.live.map fun p => blkSz t.heap (p - hdrSz)
  rw [map_map] at hperm
  rw [usedSize, hsize]
  exact hperm.sum_nat.symm

private theorem mallocNeed_le (hn : n ≤ 2 ^ 31) (hb : BlockOk a b) (hfit : n + hdrSz ≤ b.size) :
    mallocNeed a n ≤ b.size := by
  obtain ⟨-, h8, -, -, hround⟩ := mallocNeed_spec a hn
  have h1 := hb.size_dvd
  have h2 := hb.min_le
  omega

end Sys

/-- The kernel heap over whole runs: a layout of its chunks that the headers, the bins, the bitmap, the live payloads
and the quota agree with, and in which a request for a chunk means that no free block fits. -/
theorem kmalloc_runs {a : Arch} {mem : Nat → Nat} {tr : List Event} {t : Sys}
    (h : Run (Step a) ⟨kmallocInit mem, [], [], []⟩ tr t) : ∃ cs : List (Chunk Tag), cs.map Chunk.bounds = t.chunks ∧
      (∀ c ∈ cs, Tiles c.base c.cells c.top ∧ t.heap.hdr c.top = allocBit ∧ ∀ b ∈ c.cells,
        blkSz t.heap b.addr = b.size ∧ b.tag ≠ .hand ∧ blkIsAlloc t.heap b.addr = decide (b.tag = .used)) ∧
      (∀ b ∈ cellsOf cs, 8 ∣ b.size ∧ minBlk a ≤ b.size) ∧ (∀ k, (t.heap.bins k).Nodup ∧ ∀ x, x ∈ t.heap.bins k ↔
        ∃ b ∈ cellsOf cs, b.tag = .free ∧ sizeToBin a b.size = k ∧ b.addr = x) ∧
      (∀ k, bit t.heap.binBitmap k = true ↔ t.heap.bins k ≠ []) ∧
      (∀ l ∈ t.live, 8 ∣ l.1 ∧ ∃ b ∈ cellsOf cs, b.tag = .used ∧ payload b = l.1 ∧ l.1 + l.2 ≤ b.stop) ∧
      t.live.Pairwise (fun l m => l.1 + l.2 ≤ m.1 ∨ m.1 + m.2 ≤ l.1) ∧
      t.heap.heapQuota = (t.live.map fun l => blkSz t.heap (l.1 - hdrSz)).sum % 2 ^ 32 ∧
      ∀ n u, Step a t (.ask n) u → ∀ b ∈ cellsOf cs, b.tag = .free → b.size < n + hdrSz := by
  obtain ⟨cs, ok⟩ := run_ok h
  refine ⟨cs, ok.chunks, fun c hc => ⟨c.tiles, ok.heap.epilogue c hc, fun b hb => ?_⟩,
    fun b hb => ⟨(ok.heap.block b hb).size_dvd, (ok.heap.block b hb).min_le⟩,
      fun k => ⟨?_, fun x => mem_bins ok.heap⟩,
    fun k => ?_, fun l hl => ?_, ok.live_pairwise, ok.quota.trans (by rw [ok.quota_live]), fun n u hs b hb ht => ?_⟩
  · have hb := mem_cellsOf.2 ⟨c, hc, hb⟩
    exact ⟨ok.heap.blkSz hb, ok.settled b hb, ok.heap.blkIsAlloc hb⟩
  · refine (ok.heap.bins k).nodup_iff.2 ?_
    exact ok.heap.nodup_addr.sublist (filter_sublist.map addr)
  · rw [ok.heap.bitmap k, decide_eq_true_eq]
  · obtain ⟨b, hb, ht, hptr, hsize⟩ := ok.room l hl
    have hdvd := (ok.heap.block b hb).addr_dvd
    refine ⟨?_, b, hb, ht, hptr, ?_⟩
    · rw [← hptr]
      exact Nat.dvd_add hdvd ⟨1, rfl⟩
    · simp only [payload, stop] at hptr ⊢
      omega
  · cases hs with
    | ask h0 hn hcall =>
      rcases malloc_spec ok.heap h0 hn with ⟨-, hsmall⟩ | ⟨_, -, -, -, hfound⟩
      · by_contra hge
        have := mallocNeed_le hn (ok.heap.block b hb) (Nat.le_of_not_lt hge)
        have := hsmall b hb ht
        omega
      · rw [hfound] at hcall
        cases hcall

theorem kmalloc_runs_first : ∃ t, Run (Step .x64) ⟨kmallocInit fun _ => 0, [], [], []⟩ [.ask 100,
    .extended 100 4104] t ∧
    t.live = [(4104, 100)] ∧ t.heap.heapQuota = (t.live.map fun l => blkSz t.heap (l.1 - hdrSz)).sum % 2 ^ 32 := by
  have hrun : Run (Step .x64) ⟨kmallocInit fun _ => 0, [], [], []⟩ [.ask 100, .extended 100 4104] _ :=
    (Run.single (Step.ask (by decide) (by decide) rfl)).snoc
      (Step.extended (by simp) (⟨⟨1, rfl⟩, by decide, by simp⟩ : Fresh .x64 [] 100 4096) rfl)
  obtain ⟨cs, -, -, -, -, -, -, -, hquota, -⟩ := kmalloc_runs hrun
  exact ⟨_, hrun, rfl, hquota⟩

end Mos.Kmalloc
