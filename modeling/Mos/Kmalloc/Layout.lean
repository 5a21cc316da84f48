import Mos.Kmalloc.Bins
import Mos.Lib.Tiling

/-!
# The layout of the heap

The chunks of the heap are tiled by blocks (`Mos.Lib.Chunk`), each free, used or in hand: a block in hand is on no
list and belongs to the call that works on it.  `HeapOk` says that the headers, the bins and the bitmap describe such
a layout.  Two kinds of primitive changes keep it: rewriting headers over blocks that are on no list, and moving a
block onto a list or off it.
-/

namespace Mos.Kmalloc

open Lib Function List Cell Chunk

inductive Tag
  | free | used | hand
  deriving DecidableEq

abbrev Block := Cell Tag

def header (b : Block) : Nat := if b.tag = .used then b.size + 1 else b.size

structure BlockOk (a : Arch) (b : Block) : Prop where
  addr_dvd : 8 ∣ b.addr
  size_dvd : 8 ∣ b.size
  min_le : minBlk a ≤ b.size
  size_lt : b.size < 2 ^ 32

def inBin (a : Arch) (k : Nat) (b : Block) : Bool := b.tag = .free ∧ sizeToBin a b.size = k

structure HeapOk (a : Arch) (h : Heap) (cs : List (Chunk Tag)) : Prop where
  apart : ChunksApart hdrSz (cs.map Chunk.bounds)
  small : ∀ c ∈ cs.map Chunk.bounds, c.2 < c.1 + 2 ^ 32
  block : ∀ b ∈ cellsOf cs, BlockOk a b
  header : ∀ b ∈ cellsOf cs, h.hdr b.addr = header b
  epilogue : ∀ c ∈ cs, h.hdr c.top = allocBit
  bins : ∀ k, (h.bins k).Perm (((cellsOf cs).filter (inBin a k)).map Cell.addr)
  bitmap : ∀ k, bit h.binBitmap k = decide (h.bins k ≠ [])

variable {a : Arch} {b : Block} {x k : Nat} {l rest : List Block} {cs' : List (Chunk Tag)}

private theorem header_even (hb : BlockOk a b) : b.size % 2 = 0 := by
  have := hb.size_dvd
  omega

theorem setHdr_of_ne (h : Heap) {b : Nat} (hne : x ≠ b) (size : Nat) (alloc : Bool) :
    (setHdr h b size alloc).hdr x = h.hdr x := update_of_ne hne _ _

/-- `set_hdr` writes the header of a block whose tag the flag expresses. -/
theorem setHdr_self (h : Heap) (hb : BlockOk a b) (alloc : Bool) (ht : alloc = true ↔ b.tag = .used) :
    (setHdr h b.addr b.size alloc).hdr b.addr = header b := by
  obtain ⟨m, hm⟩ : ∃ m, b.size = 2 ^ 1 * m := ⟨b.size / 2, by have := header_even hb; omega⟩
  refine (update_self _ _ _).trans ?_
  unfold header
  by_cases hu : b.tag = .used
  · rw [if_pos (ht.2 hu), if_pos hu, hm, allocBit, Nat.two_pow_add_eq_or_of_lt (by decide)]
  · rw [if_neg fun h => hu (ht.1 h), if_neg hu, Nat.or_zero]

section Layout

variable {a : Arch} {h : Heap} {cs : List (Chunk Tag)}

section

variable (ok : HeapOk a h cs)

include ok

theorem HeapOk.blkSz (hb : b ∈ cellsOf cs) : blkSz h b.addr = b.size := by
  have he := header_even (ok.block b hb)
  rw [Kmalloc.blkSz, ok.header b hb, Kmalloc.header]
  split_ifs <;> omega

theorem HeapOk.blkIsAlloc (hb : b ∈ cellsOf cs) : blkIsAlloc h b.addr = decide (b.tag = .used) := by
  have he := header_even (ok.block b hb)
  rw [Kmalloc.blkIsAlloc, ok.header b hb, Kmalloc.header]
  split_ifs with hu
  · have : (b.size + 1) % 2 = 1 := by omega
    simp [this, hu]
  · simp [he, hu]

theorem mem_bins : x ∈ h.bins k ↔ ∃ b ∈ cellsOf cs, b.tag = .free ∧ sizeToBin a b.size = k ∧ b.addr = x := by
  rw [(ok.bins k).mem_iff]
  simp [inBin, and_assoc]

theorem HeapOk.pos (hb : b ∈ cellsOf cs) : b.addr < b.stop := by
  have h1 := (ok.block b hb).min_le
  have h2 := (minBlk_le a).1
  unfold stop
  omega

theorem HeapOk.pairwise_apart (hp : (cellsOf cs).Perm l) : l.Pairwise Cell.Apart :=
  (hp.pairwise_iff fun h => h.symm).mp (cellsOf_pairwise ok.apart)

end

private theorem filter_inBin_perm (mid : List Block) (hp : l.Perm (mid ++ rest)) (hmid : ∀ m ∈ mid, m.tag ≠ .free)
    (k : Nat) : ((l.filter (inBin a k)).map addr).Perm ((rest.filter (inBin a k)).map addr) := by
  have hnil : mid.filter (inBin a k) = [] := by
    refine filter_eq_nil_iff.2 fun m hm => ?_
    simp [inBin, hmid m hm]
  have hf := (hp.filter (inBin a k)).map addr
  rwa [filter_append, hnil, nil_append] at hf

theorem HeapOk.rewrite (ok : HeapOk a h cs) (mid mid' : List Block)
    (hbounds : cs'.map bounds = cs.map bounds) (hp : (cellsOf cs).Perm (mid ++ rest))
    (hp' : (cellsOf cs').Perm (mid' ++ rest)) (hmid : ∀ m ∈ mid, m.tag ≠ .free)
    (hmid' : ∀ m ∈ mid', BlockOk a m ∧ m.tag ≠ .free) {hdr : Nat → Nat}
    (hout : ∀ x, (∀ m ∈ mid, x < m.addr ∨ m.stop ≤ x) → hdr x = h.hdr x)
    (hin : ∀ m ∈ mid', hdr m.addr = Kmalloc.header m) : HeapOk a { h with hdr := hdr } cs' := by
  have hapart := pairwise_append.1 (ok.pairwise_apart hp)
  have hmem : ∀ m ∈ mid, m ∈ cellsOf cs := fun m hm => hp.mem_iff.2 (mem_append_left _ hm)
  have hrest : ∀ b ∈ rest, b ∈ cellsOf cs := fun b hb => hp.mem_iff.2 (mem_append_right _ hb)
  refine ⟨hbounds ▸ ok.apart, hbounds ▸ ok.small, fun b hb => ?_, fun b hb => ?_, fun c hc => ?_, fun k => ?_,
    ok.bitmap⟩
  · rcases mem_append.1 (hp'.mem_iff.1 hb) with hb | hb
    · exact (hmid' b hb).1
    · exact ok.block b (hrest b hb)
  · rcases mem_append.1 (hp'.mem_iff.1 hb) with hb | hb
    · exact hin b hb
    refine Eq.trans (hout b.addr fun m hm => ?_) (ok.header b (hrest b hb))
    have h1 := hapart.2.2 m hm b hb
    have h2 := ok.pos (hrest b hb)
    unfold Cell.Apart at h1
    omega
  · -- the epilogues are outside every block
    obtain ⟨d, hd, he⟩ := mem_map.1 (hbounds ▸ mem_map_of_mem hc)
    have htop : c.top = d.top := (congrArg Prod.snd he).symm
    rw [htop]
    refine Eq.trans (hout d.top fun m hm => ?_) (ok.epilogue d hd)
    exact cell_apart_top (by decide) ok.apart (hmem m hm) hd
  · have h1 := filter_inBin_perm (a := a) mid hp hmid k
    have h2 := filter_inBin_perm (a := a) mid' hp' (fun m hm => (hmid' m hm).2) k
    exact (ok.bins k).trans (h1.trans h2.symm)

/-! ### Moving a block on and off the lists -/

def retag (b : Block) (t : Tag) : Block := { b with tag := t }

theorem BlockOk.retag (hb : BlockOk a b) (t : Tag) : BlockOk a (retag b t) :=
  { hb with }

section

variable (ok : HeapOk a h cs)

include ok

private theorem HeapOk.retag_frame {t : Tag}
    (hbounds : cs'.map bounds = cs.map bounds) (hp : (cellsOf cs).Perm (b :: rest))
    (hp' : (cellsOf cs').Perm (retag b t :: rest)) (hb : b.tag ≠ .used) (ht : t ≠ .used) :
    (∀ c ∈ cellsOf cs', BlockOk a c) ∧ (∀ c ∈ cellsOf cs', h.hdr c.addr = Kmalloc.header c) ∧
      ∀ c ∈ cs', h.hdr c.top = allocBit := by
  have hbm := head_mem hp
  have hrest : ∀ c ∈ rest, c ∈ cellsOf cs := fun c hc => hp.mem_iff.2 (mem_cons_of_mem _ hc)
  refine ⟨fun c hc => ?_, fun c hc => ?_, fun c hc => ?_⟩
  · rcases mem_cons.1 (hp'.mem_iff.1 hc) with rfl | hc
    · exact (ok.block b hbm).retag t
    · exact ok.block c (hrest c hc)
  · rcases mem_cons.1 (hp'.mem_iff.1 hc) with rfl | hc
    · have hh := ok.header b hbm
      rw [Kmalloc.header, if_neg hb] at hh
      rw [Kmalloc.header, if_neg (show (retag b t).tag ≠ .used from ht)]
      exact hh
    · exact ok.header c (hrest c hc)
  · obtain ⟨d, hd, he⟩ := mem_map.1 (hbounds ▸ mem_map_of_mem hc)
    have htop : c.top = d.top := (congrArg Prod.snd he).symm
    rw [htop]
    exact ok.epilogue d hd

section

variable (hp : (cellsOf cs).Perm (b :: rest))

include hp

theorem HeapOk.addr_ne {c : Block} (hc : c ∈ rest) : c.addr ≠ b.addr := by
  have h1 := (pairwise_cons.1 (ok.pairwise_apart hp)).1 c hc
  have h2 := ok.pos (head_mem hp)
  have h3 := ok.pos (hp.mem_iff.2 (mem_cons_of_mem _ hc))
  unfold Cell.Apart at h1
  omega

theorem HeapOk.setTag {t : Tag} (alloc : Bool) (hfree : b.tag ≠ .free) (ht : t ≠ .free)
    (ha : alloc = true ↔ t = .used) :
    ∃ cs', HeapOk a (setHdr h b.addr b.size alloc) cs' ∧ cs'.map bounds = cs.map bounds ∧
      (cellsOf cs').Perm (retag b t :: rest) := by
  have hb := head_mem hp
  have hok := (ok.block b hb).retag t
  obtain ⟨cs', hbounds, hp'⟩ := exists_replace hp [retag b t] ⟨rfl, rfl⟩
  refine ⟨cs', ok.rewrite [b] [retag b t] hbounds hp hp' (by simp [hfree]) (forall_mem_singleton.2 ⟨hok, ht⟩)
    (fun x hx => ?_) (forall_mem_singleton.2 (setHdr_self h hok alloc ha)), hbounds, hp'⟩
  have hx := hx b mem_cons_self
  have hpos := ok.pos hb
  exact setHdr_of_ne _ (by omega) _ _

theorem HeapOk.flRemove (ht : b.tag = .free) :
    ∃ cs', HeapOk a (flRemove a h b.addr) cs' ∧ cs'.map bounds = cs.map bounds ∧
      (cellsOf cs').Perm (retag b .hand :: rest) := by
  have hb := head_mem hp
  obtain ⟨cs', hbounds, hp'⟩ := exists_replace hp [retag b .hand] ⟨rfl, rfl⟩
  obtain ⟨h1, h2, h3⟩ := ok.retag_frame hbounds hp hp' (by simp [ht]) (by decide)
  -- the bin of the block loses it, the others do not hold it
  have hbin : ∀ k, (h.bins k).Perm
      ((if sizeToBin a b.size = k then [b.addr] else []) ++ (rest.filter (inBin a k)).map addr) := by
    intro k
    refine (ok.bins k).trans (((hp.filter (inBin a k)).map addr).trans ?_)
    by_cases hk : sizeToBin a b.size = k <;> simp [inBin, ht, hk]
  have hrest : ∀ k, ((h.bins k).erase b.addr).Perm ((rest.filter (inBin a k)).map addr) := by
    intro k
    by_cases hk : sizeToBin a b.size = k
    · have := (hbin k).erase b.addr
      simpa [hk] using this
    have hnot : b.addr ∉ h.bins k := by
      intro hmem
      rw [(hbin k).mem_iff, if_neg hk, nil_append, mem_map] at hmem
      obtain ⟨c, hc, he⟩ := hmem
      exact ok.addr_ne hp (mem_of_mem_filter hc) he
    rw [erase_of_not_mem hnot]
    simpa [hk] using hbin k
  refine ⟨cs', ⟨hbounds ▸ ok.apart, hbounds ▸ ok.small, h1, h2, h3, fun k => ?_, fun k => ?_⟩, hbounds, hp'⟩
  · exact (hrest k).trans (filter_inBin_perm [retag b .hand] hp' (by simp [retag]) k).symm
  · have hsame : k ≠ sizeToBin a b.size → (h.bins k).erase b.addr = h.bins k := by
      intro hk
      refine erase_of_not_mem fun hmem => ?_
      obtain ⟨c, hc, -, hck, he⟩ := (mem_bins ok).mp hmem
      rcases mem_cons.1 (hp.mem_iff.1 hc) with rfl | hc
      · exact hk hck.symm
      · exact ok.addr_ne hp hc he
    simp only [Kmalloc.flRemove, ok.blkSz hb]
    by_cases hemp : (h.bins (sizeToBin a b.size)).erase b.addr = []
    · rw [if_pos hemp, bit_clear, ok.bitmap k]
      by_cases hk : k = sizeToBin a b.size
      · rw [hk]
        simp [hemp]
      · rw [hsame hk]
        simp [hk]
    rw [if_neg hemp, ok.bitmap k]
    by_cases hk : k = sizeToBin a b.size
    · rw [hk]
      have hne : h.bins (sizeToBin a b.size) ≠ [] := fun he => hemp (by rw [he]; rfl)
      simp [hne, hemp]
    · rw [hsame hk]

theorem HeapOk.flInsert (ht : b.tag = .hand) :
    ∃ cs', HeapOk a (flInsert a h b.addr) cs' ∧ cs'.map bounds = cs.map bounds ∧
      (cellsOf cs').Perm (retag b .free :: rest) := by
  have hb := head_mem hp
  obtain ⟨cs', hbounds, hp'⟩ := exists_replace hp [retag b .free] ⟨rfl, rfl⟩
  obtain ⟨h1, h2, h3⟩ := ok.retag_frame hbounds hp hp' (by simp [ht]) (by decide)
  refine ⟨cs', ⟨hbounds ▸ ok.apart, hbounds ▸ ok.small, h1, h2, h3, fun k => ?_, fun k => ?_⟩, hbounds, hp'⟩
  · have hold := (ok.bins k).trans (filter_inBin_perm [b] hp (by simp [ht]) k)
    refine List.Perm.trans ?_ ((hp'.filter (inBin a k)).map addr).symm
    simp only [Kmalloc.flInsert, ok.blkSz hb]
    by_cases hk : k = sizeToBin a b.size
    · subst hk
      simpa [filter_cons, inBin, retag] using hold
    · have hk' : sizeToBin a b.size ≠ k := fun h => hk h.symm
      simpa [filter_cons, inBin, retag, update_of_ne hk, hk'] using hold
  · simp only [Kmalloc.flInsert, ok.blkSz hb, bit_set, ok.bitmap k]
    by_cases hk : k = sizeToBin a b.size
    · subst hk
      simp
    · simp [hk]

end

theorem HeapOk.bit_high (hk : numBins a ≤ k) : bit h.binBitmap k = false := by
  rw [ok.bitmap k, decide_eq_false_iff_not, not_not, eq_nil_iff_forall_not_mem]
  intro x hx
  obtain ⟨b, hb, -, hbk, -⟩ := (mem_bins ok).mp hx
  have := sizeToBin_lt (ok.block b hb).min_le
  omega

private theorem takeBin_spec (start : Nat) :
    (takeBin a h start = none ∧ ∀ b ∈ cellsOf cs, b.tag = .free → sizeToBin a b.size < start) ∨
    ∃ b ∈ cellsOf cs, b.tag = .free ∧ start ≤ sizeToBin a b.size ∧
      takeBin a h start = some (Kmalloc.flRemove a h b.addr, b.addr) := by
  unfold takeBin
  rcases nextNonemptyBin_spec (fun k hk => ok.bit_high hk) start with ⟨hn, hnone⟩ | ⟨hle, hlt, hbit⟩
  · refine .inl ⟨by simp [hn], fun b hb ht => ?_⟩
    by_contra hge
    have hmem := (mem_bins ok).mpr ⟨b, hb, ht, rfl, rfl⟩
    have hb0 := hnone _ (Nat.le_of_not_lt hge)
    rw [ok.bitmap, decide_eq_false_iff_not, not_not] at hb0
    rw [hb0] at hmem
    exact not_mem_nil hmem
  · generalize nextNonemptyBin a h start = k at hle hlt hbit
    rw [ok.bitmap, decide_eq_true_eq] at hbit
    obtain ⟨x, l, hl⟩ := exists_cons_of_ne_nil hbit
    have hmem : x ∈ h.bins k := by simp [hl]
    obtain ⟨b, hb, ht, hbk, hx⟩ := (mem_bins ok).mp hmem
    refine .inr ⟨b, hb, ht, by omega, ?_⟩
    simp [Nat.ne_of_lt hlt, hl, hx]

theorem findFree_spec {need : Nat} (hmin : minBlk a ≤ need) (hneed : 8 ∣ need) :
    (findFree a h need = none ∧ ∀ b ∈ cellsOf cs, b.tag = .free → b.size < need) ∨
    ∃ b ∈ cellsOf cs, b.tag = .free ∧ need ≤ b.size ∧
      findFree a h need = some (Kmalloc.flRemove a h b.addr, b.addr) := by
  -- a block in a higher bin is larger, a block in a lower bin smaller
  have hgt : ∀ b ∈ cellsOf cs, sizeToBin a need < sizeToBin a b.size → need ≤ b.size := by
    intro b hb hlt
    by_contra hsmall
    have := sizeToBin_mono (ok.block b hb).min_le (Nat.le_of_not_le hsmall)
    omega
  have hlt : ∀ b ∈ cellsOf cs, sizeToBin a b.size < sizeToBin a need → b.size < need := by
    intro b hb hlt
    by_contra hbig
    have := sizeToBin_mono hmin (Nat.le_of_not_lt hbig)
    omega
  unfold findFree
  dsimp only
  split_ifs with hlarge
  · split
    · rename_i x hx
      obtain ⟨b, hb, ht, -, rfl⟩ := (mem_bins ok).mp (List.mem_of_find?_eq_some hx)
      have hfit := List.find?_some hx
      rw [ok.blkSz hb, decide_eq_true_eq] at hfit
      exact .inr ⟨b, hb, ht, hfit, rfl⟩
    rename_i hx
    rcases takeBin_spec ok (sizeToBin a need + 1) with ⟨hn, hnone⟩ | ⟨b, hb, ht, hle, htake⟩
    · refine .inl ⟨hn, fun b hb ht => ?_⟩
      rcases Nat.lt_succ_iff_lt_or_eq.1 (hnone b hb ht) with hbin | hbin
      · exact hlt b hb hbin
      · have hno := List.find?_eq_none.1 hx b.addr ((mem_bins ok).mpr ⟨b, hb, ht, hbin, rfl⟩)
        rw [ok.blkSz hb, decide_eq_true_eq] at hno
        exact Nat.lt_of_not_le hno
    · exact .inr ⟨b, hb, ht, hgt b hb hle, htake⟩
  · rcases takeBin_spec ok (sizeToBin a need) with ⟨hn, hnone⟩ | ⟨b, hb, ht, hle, htake⟩
    · exact .inl ⟨hn, fun b hb ht => hlt b hb (hnone b hb ht)⟩
    refine .inr ⟨b, hb, ht, ?_, htake⟩
    rcases Nat.lt_or_eq_of_le hle with hbin | hbin
    · exact hgt b hb hbin
    · exact Nat.le_of_eq (sizeToBin_small_inj hmin (ok.block b hb).min_le hneed (ok.block b hb).size_dvd
        (Nat.lt_of_not_le hlarge) hbin)

end

end Layout

end Mos.Kmalloc
