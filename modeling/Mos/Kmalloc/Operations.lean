import Mos.Kmalloc.Layout

/-!
# The operations on the heap

The effect of taking a block, of extending the heap and of freeing a block on the layout.
-/

namespace Mos.Kmalloc

open Lib List Function

section Operations

variable {a : Arch} {h : Heap} {cs : List (Chunk Tag)} {b : Block} {rest : List Block}

theorem HeapOk.with_quota (ok : HeapOk a h cs) (quota high : Nat) :
    HeapOk a { h with heapQuota := quota, heapQuotaHigh := high } cs :=
  { ok with }

/-- What `mallocBlock` does to the layout: the block in hand is used, from `need` bytes on, and what was cut off is
free. -/
structure Taken (a : Arch) (h : Heap) (cs : List (Chunk Tag)) (need : Nat) (b : Block) (rest : List Block) (h' : Heap)
    (cs' : List (Chunk Tag)) (size : Nat) (extra : List Block) : Prop where
  ok : HeapOk a h' cs'
  bounds : cs'.map Chunk.bounds = cs.map Chunk.bounds
  fits : need ≤ size
  cells : (cellsOf cs').Perm (⟨b.addr, size, .used⟩ :: (extra ++ rest))
  extra_free : ∀ e ∈ extra, e.tag = .free
  quota : h'.heapQuota = addW 32 h.heapQuota size

theorem mallocBlock_spec (ok : HeapOk a h cs) (hp : (cellsOf cs).Perm (b :: rest)) (ht : b.tag = .hand) {need : Nat}
    (hmin : minBlk a ≤ need) (h8 : 8 ∣ need) (hle : need ≤ b.size) :
    (mallocBlock a h need b.addr).2 = b.addr + hdrSz ∧
      ∃ cs' size extra, Taken a h cs need b rest (mallocBlock a h need b.addr).1 cs' size extra := by
  have hb := head_mem hp
  have hbok := ok.block b hb
  have hrem : subW 32 (blkSz h b.addr) need = b.size - need := by
    rw [ok.blkSz hb, subW_eq hle hbok.size_lt]
  refine ⟨rfl, ?_⟩
  unfold mallocBlock
  dsimp only
  rw [hrem]
  by_cases hsplit : b.size - need ≥ minBlk a
  · -- the block is cut in two, and the upper part goes to its bin
    rw [if_pos hsplit]
    let u : Block := ⟨b.addr, need, .used⟩
    let lo : Block := ⟨b.addr + need, b.size - need, .hand⟩
    have hpos := (minBlk_le a).1
    have hu : BlockOk a u := ⟨hbok.addr_dvd, h8, hmin, hle.trans_lt hbok.size_lt⟩
    have hlo : BlockOk a lo := ⟨Nat.dvd_add hbok.addr_dvd h8, Nat.dvd_sub hbok.size_dvd h8, hsplit,
      Nat.lt_of_le_of_lt (Nat.sub_le _ _) hbok.size_lt⟩
    obtain ⟨cs1, hbounds1, hp1⟩ := exists_replace hp [u, lo] ⟨rfl, rfl, by simp only [Tiles, Cell.stop, lo]; omega⟩
    have ok1 : HeapOk a (setHdr (setHdr h b.addr need true) (b.addr + need) (b.size - need) false) cs1 := by
      refine ok.rewrite [b] [u, lo] hbounds1 hp hp1 (by simp [ht]) (by simp [hu, hlo, u, lo]) (fun x hx => ?_) ?_
      · have hx := hx b mem_cons_self
        simp only [Cell.stop] at hx
        exact (setHdr_of_ne _ (by omega) _ _).trans (setHdr_of_ne _ (by omega) _ _)
      · simp only [mem_cons, not_mem_nil, or_false, forall_eq_or_imp, forall_eq]
        exact ⟨(setHdr_of_ne _ (by simp only [u]; omega) _ _).trans (setHdr_self h hu true (by simp [u])),
          setHdr_self _ hlo false (by simp [lo])⟩
    have hp2 : (cellsOf cs1).Perm (lo :: u :: rest) := hp1.trans (List.Perm.swap _ _ _)
    obtain ⟨cs2, ok2, hbounds2, hp3⟩ := ok1.flInsert hp2 rfl
    have hum : u ∈ cellsOf cs2 := hp3.mem_iff.2 (by simp)
    refine ⟨cs2, need, [retag lo .free], ok2.with_quota _ _, hbounds2.trans hbounds1, le_rfl,
      hp3.trans (List.Perm.swap _ _ _), by simp [retag], ?_⟩
    exact congrArg (addW 32 h.heapQuota) (ok2.blkSz hum)
  · rw [if_neg hsplit, ok.blkSz hb]
    obtain ⟨cs1, ok1, hbounds1, hp1⟩ := ok.setTag hp (t := .used) true (by simp [ht]) (by decide) (by simp)
    refine ⟨cs1, b.size, [], ok1.with_quota _ _, hbounds1, hle, hp1, by simp, ?_⟩
    exact congrArg (addW 32 h.heapQuota) (ok1.blkSz (b := retag b .used) (head_mem hp1))

/-- The chunk for a block: room for it and the epilogue, in whole pages. -/
theorem extendChunk_spec (a : Arch) {minSz : Nat} (hs : minSz ≤ 2 ^ 31 + 24) :
    minSz + hdrSz ≤ extendChunk a minSz ∧ 8 ∣ extendChunk a minSz ∧ extendChunk a minSz < 2 ^ 32 ∧
      extendChunk a minSz = extendPages a minSz * pageSize ∧ extendChunk a minSz < minSz + hdrSz + pageSize := by
  have hbits : 2 ^ 32 ≤ 2 ^ a.bits := by cases a <;> decide
  have h1 : extendPages a minSz = (minSz + 8 + 4095) / 4096 := by
    rw [extendPages, hdrSz, pageSize, addW_eq (a := minSz) (by omega), addW_eq (by omega)]
  have h2 : extendChunk a minSz = (minSz + 8 + 4095) / 4096 * 4096 := by
    rw [extendChunk, h1, pageSize, Nat.mod_eq_of_lt (by omega)]
  rw [h2, h1, hdrSz, pageSize]
  omega

theorem extendHeap_spec (ok : HeapOk a h cs) {minSz addr : Nat} (hmin : minBlk a ≤ minSz) (hs : minSz ≤ 2 ^ 31 + 24)
    (haddr : 8 ∣ addr) (hfresh : ∀ d ∈ cs.map Chunk.bounds, addr + extendChunk a minSz ≤ d.1 ∨ d.2 + hdrSz ≤ addr) :
    ∃ c : Chunk Tag, c.bounds = (addr, addr + extendChunk a minSz - hdrSz) ∧
      c.cells = [⟨addr, extendChunk a minSz - hdrSz, .hand⟩] ∧
      HeapOk a (extendHeap a h minSz (some addr)).1 (c :: cs) := by
  obtain ⟨hroom, h8, hlt, -⟩ := extendChunk_spec a hs
  have hhdr : hdrSz = 8 := rfl
  have hm16 := (minBlk_le a).1
  have hsub : subW 32 (extendChunk a minSz) hdrSz = extendChunk a minSz - hdrSz := subW_eq (by omega) hlt
  let b : Block := ⟨addr, extendChunk a minSz - hdrSz, .hand⟩
  have hb : BlockOk a b := ⟨haddr, Nat.dvd_sub h8 ⟨1, rfl⟩, by simp only [b]; omega, by simp only [b]; omega⟩
  have htiles : Tiles addr [b] (addr + extendChunk a minSz - hdrSz) :=
    ⟨rfl, by simp only [Tiles, Cell.stop, b]; omega⟩
  refine ⟨⟨addr, _, [b], htiles⟩, rfl, rfl, ?_⟩
  have hout : ∀ x, x ≠ addr → x ≠ addr + extendChunk a minSz - hdrSz →
      (extendHeap a h minSz (some addr)).1.hdr x = h.hdr x := fun x h1 h2 =>
    (setHdr_of_ne _ h1 _ _).trans (update_of_ne h2 _ _)
  have hcell : ∀ c ∈ cellsOf cs, c.addr ≠ addr ∧ c.addr ≠ addr + extendChunk a minSz - hdrSz := by
    intro c hc
    obtain ⟨d, hd, hcd⟩ := mem_cellsOf.1 hc
    have h1 := hfresh d.bounds (mem_map_of_mem hd)
    have h2 := d.tiles.bounds.2 c hcd
    have h3 := ok.pos hc
    simp only [Chunk.bounds] at h1
    omega
  refine ⟨pairwise_cons.2 ⟨fun d hd => ?_, ok.apart⟩, ?_, ?_, ?_, ?_, fun k => ?_, ok.bitmap⟩
  · have := hfresh d hd
    simp only [Chunk.bounds]
    omega
  · refine forall_mem_cons.2 ⟨?_, ok.small⟩
    simp only [Chunk.bounds]
    omega
  · exact forall_mem_cons.2 ⟨hb, ok.block⟩
  · refine forall_mem_cons.2 ⟨?_, fun c hc => (hout _ (hcell c hc).1 (hcell c hc).2).trans (ok.header c hc)⟩
    simp only [extendHeap, hsub]
    exact setHdr_self _ hb false (by simp [b])
  · refine forall_mem_cons.2 ⟨?_, fun c hc => ?_⟩
    · have hne : addr + extendChunk a minSz - hdrSz ≠ addr := by omega
      exact (setHdr_of_ne _ hne _ _).trans (update_self _ _ _)
    · have h1 := hfresh c.bounds (mem_map_of_mem hc)
      have h2 := c.tiles.bounds.1
      simp only [Chunk.bounds] at h1
      exact (hout _ (by omega) (by omega)).trans (ok.epilogue c hc)
  · have hnil : (cellsOf (⟨addr, _, [b], htiles⟩ :: cs)).filter (inBin a k) = (cellsOf cs).filter (inBin a k) := by
      simp [cellsOf, inBin, b]
    rw [hnil]
    exact ok.bins k

/-- The block at `b` has grown over the free blocks `cut`; the others are as before. -/
structure Grown (a : Arch) (cs : List (Chunk Tag)) (rest : List Block) (h' : Heap) (cs' : List (Chunk Tag))
    (m : Block) (cut rest' : List Block) : Prop where
  ok : HeapOk a h' cs'
  bounds : cs'.map Chunk.bounds = cs.map Chunk.bounds
  cells : (cellsOf cs').Perm (m :: rest')
  rest_perm : rest.Perm (cut ++ rest')
  cut_free : ∀ n ∈ cut, n.tag = .free

/-- `coalesce_right` on a block in hand, with no other block in hand. -/
theorem coalesceRight_spec (ok : HeapOk a h cs) (hp : (cellsOf cs).Perm (b :: rest)) (ht : b.tag = .hand)
    (hrest : ∀ c ∈ rest, c.tag ≠ .hand) : (coalesceRight a h b.addr).heapQuota = h.heapQuota ∧
      ∃ cs' size cut rest', Grown a cs rest (coalesceRight a h b.addr) cs' ⟨b.addr, size, .hand⟩ cut rest' := by
  have hb := head_mem hp
  have hnext : blkNext h b.addr = b.stop := by rw [blkNext, ok.blkSz hb, Cell.stop]
  have hkeep : blkIsAlloc h b.stop = true → (coalesceRight a h b.addr).heapQuota = h.heapQuota ∧
      ∃ cs' size cut rest', Grown a cs rest (coalesceRight a h b.addr) cs' ⟨b.addr, size, .hand⟩ cut rest' := by
    intro halloc
    rw [coalesceRight, hnext, if_pos halloc]
    exact ⟨rfl, cs, b.size, [], rest, ok, rfl, ht ▸ hp, List.Perm.refl _, by simp⟩
  rcases exists_next hp with ⟨c, hc, htop⟩ | ⟨n, rest', hn, hcut⟩
  · exact hkeep (by rw [htop, Kmalloc.blkIsAlloc, ok.epilogue c hc]; rfl)
  have hnm : n ∈ cellsOf cs := hp.mem_iff.2 (mem_cons_of_mem _ (head_mem hcut))
  have halloc := ok.blkIsAlloc hnm
  rw [hn] at halloc
  cases htag : n.tag with
  | used => exact hkeep (by rw [halloc, htag]; rfl)
  | hand => exact absurd htag (hrest n (head_mem hcut))
  | free =>
    have hfree : blkIsAlloc h b.stop = false := by rw [halloc, htag]; rfl
    have hp1 : (cellsOf cs).Perm (n :: b :: rest') := (hp.trans (hcut.cons b)).trans (List.Perm.swap _ _ _)
    obtain ⟨cs1, ok1, hbounds1, hp2⟩ := ok.flRemove hp1 htag
    have hp3 : (cellsOf cs1).Perm (b :: retag n .hand :: rest') := hp2.trans (List.Perm.swap _ _ _)
    obtain ⟨cs2, hbounds2, hp4⟩ := exists_join (m := ⟨b.addr, b.size + n.size, .hand⟩) (by decide) ok1.apart
      (fun c hc => ok1.pos hc) hp3 hn rfl rfl
    have hb1 := head_mem hp3
    have hn1 : retag n .hand ∈ cellsOf cs1 := hp3.mem_iff.2 (by simp)
    have hbok := ok.block b hb
    have hnok := ok.block n hnm
    -- the two blocks lie in one chunk, so their sizes add up without wrapping
    have hm : BlockOk a ⟨b.addr, b.size + n.size, .hand⟩ := by
      refine ⟨hbok.addr_dvd, Nat.dvd_add hbok.size_dvd hnok.size_dvd, Nat.le_add_right_of_le hbok.min_le, ?_⟩
      obtain ⟨c, hc, hsize⟩ := cell_size_le (head_mem hp4)
      have := ok.small c (hbounds1 ▸ hbounds2 ▸ hc)
      omega
    have hnsz : blkSz (Kmalloc.flRemove a h n.addr) n.addr = n.size := ok1.blkSz (b := retag n .hand) hn1
    rw [coalesceRight, hnext, if_neg (by simp [hfree])]
    dsimp only
    rw [← hn, hnsz, ok1.blkSz hb1, addW_eq hm.size_lt]
    refine ⟨rfl, cs2, b.size + n.size, [n], rest', ?_, hbounds2.trans hbounds1, hp4, hcut, by simp [htag]⟩
    refine ok1.rewrite [b, retag n .hand] [_] hbounds2 hp3 hp4 (by simp [ht, retag]) (by simp [hm])
      (fun x hx => ?_) ?_
    · have hx := hx b mem_cons_self
      have hpos := ok.pos hb
      exact setHdr_of_ne _ (by omega) _ _
    · simp only [mem_singleton, forall_eq]
      exact setHdr_self _ hm false (by simp)

theorem free_spec (ok : HeapOk a h cs) (hp : (cellsOf cs).Perm (b :: rest)) (ht : b.tag = .used)
    (hrest : ∀ c ∈ rest, c.tag ≠ .hand) : (free a h (b.addr + hdrSz)).heapQuota = subW 32 h.heapQuota b.size ∧
      ∃ cs' size cut rest', Grown a cs rest (free a h (b.addr + hdrSz)) cs' ⟨b.addr, size, .free⟩ cut rest' := by
  have hb := head_mem hp
  have hquota := ok.with_quota (subW 32 h.heapQuota b.size) h.heapQuotaHigh
  obtain ⟨cs1, ok1, hbounds1, hp1⟩ := hquota.setTag hp (t := .hand) false (by simp [ht]) (by decide) (by decide)
  obtain ⟨hq, cs2, size, cut, rest', hg⟩ := coalesceRight_spec ok1 hp1 rfl hrest
  obtain ⟨cs3, ok3, hbounds3, hp3⟩ := hg.ok.flInsert hg.cells rfl
  have hne : b.addr + hdrSz ≠ 0 := Nat.succ_ne_zero _
  rw [free, if_neg hne, Nat.add_sub_cancel]
  dsimp only
  rw [ok.blkSz hb]
  exact ⟨hq, cs3, size, cut, rest', ok3, hbounds3.trans (hg.bounds.trans hbounds1), hp3, hg.rest_perm, hg.cut_free⟩

end Operations

end Mos.Kmalloc
