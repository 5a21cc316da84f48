import Mos.Kmalloc.System

/-!
# The chunks of the kernel heap

`kblk_raw` cuts chunks off the window `[KHEAP_BEGIN, KHEAP_END)`, and asks `vm_alloc` when the window is used up.
While no request carries `cur_block_top` beyond the address space, the calls that get their chunks this way are steps
of the heap.
-/

namespace Mos.Kmalloc

open Lib List

def kheapBegin : Arch → Nat
  | .i386 => 0xC0700000
  | .x64 => 0xFFFFFFFFC0700000

def kheapEnd (a : Arch) : Nat := kheapBegin a + 0x4FF000

/-- `kblk_raw`: the new `cur_block_top`, and the chunk; `vm` is the answer of `vm_alloc`. -/
def kblkRaw (a : Arch) (top pages : Nat) (vm : Option Nat) : Nat × Option Nat :=
  if pages = 0 then (top, none)
  else
    let next := addW a.bits top (pages * pageSize)
    if next < kheapEnd a then (next, if top = 0 then vm else some top) else (top, vm)

/-- The heap, `cur_block_top`, and the chunks that `kblk_raw` has returned. -/
structure Supplied extends Sys where
  top : Nat
  given : List (Nat × Nat)

def Supplied.init (a : Arch) (mem : Nat → Nat) : Supplied := ⟨⟨kmallocInit mem, [], [], []⟩, kheapBegin a, []⟩

def Supplied.give (k : Supplied) (top pages : Nat) (raw : Option Nat) : Supplied :=
  { k with top := top, given := raw.toList.map (fun p => (p, p + pages * pageSize)) ++ k.given }

/-- A call of `kblk_raw`.  The pages of `vm_alloc` are nobody's, and outside of the window. -/
def Raw (a : Arch) (k : Supplied) (pages top : Nat) (raw : Option Nat) : Prop :=
  ∃ vm, kblkRaw a k.top pages vm = (top, raw) ∧ ∀ p, vm = some p → pageSize ∣ p ∧ p ≠ 0 ∧
    (p + pages * pageSize ≤ kheapBegin a ∨ kheapEnd a ≤ p) ∧ ∀ c ∈ k.given, p + pages * pageSize ≤ c.1 ∨ c.2 ≤ p

/-- The calls, with the bytes they need: for `malloc(n)` also the header and the end of a chunk. -/
inductive Call (a : Arch) (k : Supplied) : Nat → Supplied → Prop
  | found {n ptr h} : 1 ≤ n → n < 2 ^ 32 → malloc a k.heap n = (h, .ptr ptr) →
    Call a k (n + 2 * hdrSz) { k with heap := h, live := (ptr, n) :: k.live }
  | ask {n need h} : 1 ≤ n → n < 2 ^ 32 → malloc a k.heap n = (h, .extend need) →
    Call a k (n + 2 * hdrSz) { k with heap := h, waiting := n :: k.waiting }
  | extended {n top addr ptr h} : n ∈ k.waiting → Raw a k (extendPages a (mallocNeed a n)) top (some addr) →
    mallocExtended a k.heap (mallocNeed a n) (some addr) = (h, .ptr ptr) →
    Call a k (n + 2 * hdrSz) { k.give top (extendPages a (mallocNeed a n)) (some addr) with
      heap := h, chunks := (addr, addr + extendChunk a (mallocNeed a n) - hdrSz) :: k.chunks,
      live := (ptr, n) :: k.live, waiting := k.waiting.erase n }
  | refused {n top} : n ∈ k.waiting → Raw a k (extendPages a (mallocNeed a n)) top none →
    Call a k (n + 2 * hdrSz) { k with top := top, waiting := k.waiting.erase n }
  | raw {pages top raw} : Raw a k pages top raw → Call a k (pages * pageSize) (k.give top pages raw)
  /-- `free`, and writes to memory. -/
  | other {e u} : Step a k.toSys e u → (e = .touch ∨ ∃ ptr, e = .free ptr) → Call a k 0 { k with toSys := u }

variable {a : Arch} {k k' : Supplied} {e n pages top : Nat} {r : Option Nat}

/-- What has been given lies apart, and outside of what is left of the window. -/
structure Window (a : Arch) (top : Nat) (given : List (Nat × Nat)) : Prop where
  room : kheapBegin a ≤ top ∧ top < kheapEnd a ∧ pageSize ∣ top
  place : ∀ c ∈ given, kheapBegin a ≤ c.1 ∧ c.2 ≤ top ∨ c.2 ≤ kheapBegin a ∨ kheapEnd a ≤ c.1
  apart : given.Pairwise fun c d => c.2 ≤ d.1 ∨ d.2 ≤ c.1

structure SupplyOk (a : Arch) (k : Supplied) : Prop where
  sys : ∃ cs, SysOk a k.toSys cs
  window : Window a k.top k.given
  chunks : ∀ c ∈ k.chunks, (c.1, c.2 + hdrSz) ∈ k.given

/-- A call that does not carry the top beyond the address space. -/
theorem Window.give (ok : Window a k.top k.given) (h : Raw a k pages top r) (hp : pages * pageSize ≤ 0x3F401000) :
    Window a top (k.give top pages r).given ∧ k.top ≤ top ∧ ∀ p, r = some p → pageSize ∣ p ∧ p ≠ 0 ∧
      ∀ c ∈ k.given, p + pages * pageSize ≤ c.1 ∨ c.2 ≤ p := by
  obtain ⟨vm, hraw, hvm⟩ := h
  obtain ⟨h1, h2, h3⟩ := ok.room
  have hwrap : kheapEnd a + 0x3F401000 ≤ 2 ^ a.bits ∧ 0 < kheapBegin a := by cases a <;> decide
  have hcases : (top = k.top ∧ (r = none ∨ r = vm)) ∨ r = some k.top ∧ top = k.top + pages * pageSize ∧
    top < kheapEnd a := by
    unfold kblkRaw at hraw
    dsimp only at hraw
    rw [addW_eq (by omega), if_neg (show k.top ≠ 0 by omega)] at hraw
    split_ifs at hraw with h0 hend
    · cases hraw
      exact .inl ⟨rfl, .inl rfl⟩
    · cases hraw
      exact .inr ⟨rfl, rfl, hend⟩
    · cases hraw
      exact .inl ⟨rfl, .inr rfl⟩
  have hdvd : pageSize ∣ top := by
    rcases hcases with ⟨rfl, -⟩ | ⟨-, rfl, -⟩
    · exact h3
    · exact Nat.dvd_add h3 (Nat.dvd_mul_left _ _)
  have hnew : ∀ p, r = some p → (pageSize ∣ p ∧ p ≠ 0 ∧ ∀ c ∈ k.given, p + pages * pageSize ≤ c.1 ∨ c.2 ≤ p) ∧
      (kheapBegin a ≤ p ∧ p + pages * pageSize ≤ top ∨ p + pages * pageSize ≤ kheapBegin a ∨ kheapEnd a ≤ p) := by
    rintro p rfl
    rcases hcases with ⟨-, h | h⟩ | ⟨h, rfl, hend⟩
    · cases h
    · obtain ⟨hp1, hp2, hp3, hp4⟩ := hvm p h.symm
      exact ⟨⟨hp1, hp2, hp4⟩, .inr hp3⟩
    · cases h
      refine ⟨⟨h3, by omega, fun c hc => ?_⟩, .inl ⟨h1, le_rfl⟩⟩
      have := ok.place c hc
      omega
  have hle : k.top ≤ top ∧ top < kheapEnd a := by omega
  refine ⟨⟨⟨by omega, hle.2, hdvd⟩, fun c hc => ?_, ?_⟩, hle.1, fun p hp => (hnew p hp).1⟩
  · rcases mem_append.1 hc with hc | hc
    · obtain ⟨p, hp, rfl⟩ := mem_map.1 hc
      exact (hnew p (Option.mem_toList.1 hp)).2
    · have := ok.place c hc
      omega
  · cases r with
    | none => exact ok.apart
    | some p => exact pairwise_cons.2 ⟨(hnew p rfl).1.2.2, ok.apart⟩

private theorem extend_le (he : n + 2 * hdrSz ≤ 0x3F401000) :
    extendChunk a (mallocNeed a n) = extendPages a (mallocNeed a n) * pageSize ∧
    hdrSz ≤ extendChunk a (mallocNeed a n) ∧ extendPages a (mallocNeed a n) * pageSize ≤ 0x3F401000 := by
  obtain ⟨hmin, h8, -, hmax, hround⟩ := mallocNeed_spec a (n := n) (by omega)
  obtain ⟨hroom, -, -, hpages, hlt⟩ := extendChunk_spec a hmax
  have := minBlk_le a
  unfold hdrSz pageSize at *
  omega

theorem Call.ok (ok : SupplyOk a k) (h : Call a k e k') (he : e ≤ 0x3F401000) : SupplyOk a k' ∧ k.top ≤ k'.top := by
  obtain ⟨cs, hsys⟩ := ok.sys
  cases h with
  | found h0 hn hcall => exact ⟨{ ok with sys := hsys.step (.malloc h0 (by omega) hcall) }, le_rfl⟩
  | ask h0 hn hcall => exact ⟨{ ok with sys := hsys.step (.ask h0 (by omega) hcall) }, le_rfl⟩
  | @extended n top addr ptr h hn hraw hcall =>
    obtain ⟨hpages, hhdr, hmax⟩ := extend_le (a := a) he
    obtain ⟨hwin, hle, hfresh⟩ := ok.window.give hraw hmax
    obtain ⟨hp1, hp2, hp3⟩ := hfresh addr rfl
    refine ⟨⟨hsys.step (.extended hn ⟨hp1, hp2, fun c hc => ?_⟩ hcall), hwin, forall_mem_cons.2 ⟨?_, fun c hc => ?_⟩⟩,
      hle⟩
    · rw [hpages]
      exact hp3 _ (ok.chunks c hc)
    · rw [Nat.sub_add_cancel (by omega), hpages]
      exact mem_cons_self
    · exact mem_cons_of_mem _ (ok.chunks c hc)
  | refused hn hraw =>
    obtain ⟨hwin, hle, -⟩ := ok.window.give hraw (extend_le he).2.2
    exact ⟨⟨hsys.step (.refused hn rfl), hwin, ok.chunks⟩, hle⟩
  | raw hraw =>
    obtain ⟨hwin, hle, -⟩ := ok.window.give hraw he
    exact ⟨⟨ok.sys, hwin, fun c hc => mem_append_right _ (ok.chunks c hc)⟩, hle⟩
  | other hs hfree =>
    refine ⟨⟨hsys.step hs, ok.window, ?_⟩, le_rfl⟩
    rcases hfree with rfl | ⟨ptr, rfl⟩ <;> cases hs <;> exact ok.chunks

private theorem init_supplyOk (a : Arch) (mem : Nat → Nat) : SupplyOk a (.init a mem) := by
  have hdvd : pageSize ∣ kheapBegin a := by cases a <;> decide
  exact ⟨⟨[], init_ok a mem⟩, ⟨⟨le_rfl, Nat.lt_add_of_pos_right (by decide), hdvd⟩, nofun, .nil⟩, nofun⟩

/-- In a run of calls that need at most `0x3F401000` bytes each, the block behind every pointer that `malloc(n)` has
returned has `n` bytes of payload and lies in one chunk; the chunks are apart, and lie below `cur_block_top` in the
window or come from `vm_alloc`; and the top only grows. -/
theorem malloc_in_chunks {a : Arch} {mem : Nat → Nat} {tr : List Nat} {k : Supplied}
    (h : Run (fun k e k' => Call a k e k' ∧ e ≤ 0x3F401000) (.init a mem) tr k) :
    (∀ l ∈ k.live, ∃ c ∈ k.given, c.1 + hdrSz ≤ l.1 ∧ l.2 + hdrSz ≤ blkSz k.heap (l.1 - hdrSz) ∧
      l.1 - hdrSz + blkSz k.heap (l.1 - hdrSz) ≤ c.2) ∧
    k.given.Pairwise (fun c d => c.2 ≤ d.1 ∨ d.2 ≤ c.1) ∧
    (∀ c ∈ k.given, kheapBegin a ≤ c.1 ∧ c.2 ≤ k.top ∨ c.2 ≤ kheapBegin a ∨ kheapEnd a ≤ c.1) ∧ k.top < kheapEnd a ∧
    ∀ e k', Call a k e k' → e ≤ 0x3F401000 → k.top ≤ k'.top := by
  have ok := h.invariant_state (SupplyOk a) (init_supplyOk a mem) fun _ _ _ ok hs => (hs.1.ok ok hs.2).1
  refine ⟨fun l hl => ?_, ok.window.apart, ok.window.place, ok.window.room.2.1,
    fun e k' hcall he => (hcall.ok ok he).2⟩
  obtain ⟨cs, hsys⟩ := ok.sys
  obtain ⟨b, hb, -, hptr, hsize⟩ := hsys.room l hl
  obtain ⟨c, hc, hbc⟩ := mem_cellsOf.1 hb
  have hbnd := c.tiles.bounds.2 b hbc
  refine ⟨_, ok.chunks c.bounds (hsys.chunks ▸ mem_map_of_mem hc), ?_⟩
  rw [← hptr, payload, Nat.add_sub_cancel, hsys.heap.blkSz hb]
  exact ⟨Nat.add_le_add_right hbnd.1 _, hsize, Nat.le_add_right_of_le hbnd.2⟩

/-- The first allocation, of a size whose block fits in a page. -/
theorem first_run {P : Nat → Prop} (hP : P (n + 2 * hdrSz)) (h0 : 1 ≤ n) (hn : n < 2 ^ 32)
    (hask : malloc .x64 (kmallocInit fun _ => 0) n = (kmallocInit fun _ => 0, .extend (mallocNeed .x64 n)))
    (hpages : extendPages .x64 (mallocNeed .x64 n) = 1) :
    ∃ tr k, Run (fun k e k' => Call .x64 k e k' ∧ P e) (.init .x64 fun _ => 0) tr k ∧
      k.live = [(kheapBegin .x64 + hdrSz, n)] ∧ k.given = [(kheapBegin .x64, kheapBegin .x64 + pageSize)] := by
  have hraw : Raw .x64 { Supplied.init .x64 fun _ => 0 with waiting := [n] } (extendPages .x64 (mallocNeed .x64 n))
      (kheapBegin .x64 + pageSize) (some (kheapBegin .x64)) := by
    refine ⟨none, ?_, nofun⟩
    rw [hpages]
    show kblkRaw .x64 (kheapBegin .x64) 1 none = _
    decide
  refine ⟨_, _, (Run.single ⟨Call.ask h0 hn hask, hP⟩).snoc ⟨Call.extended mem_cons_self hraw rfl, hP⟩, rfl, ?_⟩
  rw [hpages]
  rfl

theorem malloc_in_chunks_first : ∃ tr k, Run (fun k e k' => Call .x64 k e k' ∧ e ≤ 0x3F401000)
    (.init .x64 fun _ => 0) tr k ∧
    ∃ l ∈ k.live, l.2 = 100 ∧ ∃ c ∈ k.given, c.1 + hdrSz ≤ l.1 ∧ l.2 + hdrSz ≤ blkSz k.heap (l.1 - hdrSz) ∧
      l.1 - hdrSz + blkSz k.heap (l.1 - hdrSz) ≤ c.2 := by
  obtain ⟨tr, k, hrun, hlive, -⟩ := first_run (P := (· ≤ 0x3F401000)) (n := 100) (by decide) (by decide)
    (by decide) rfl rfl
  have hl : (kheapBegin .x64 + hdrSz, 100) ∈ k.live := by simp [hlive]
  exact ⟨tr, k, hrun, _, hl, rfl, (malloc_in_chunks hrun).1 _ hl⟩

/-- `malloc(2^32 - 8)` returns a block in a chunk of one page. -/
theorem malloc_wraps : ∃ tr k, Run (Call .x64) (.init .x64 fun _ => 0) tr k ∧
    ∃ l ∈ k.live, l.2 = 2 ^ 32 - 8 ∧ ∀ c ∈ k.given, c.2 < l.1 + l.2 := by
  obtain ⟨tr, k, hrun, hlive, hgiven⟩ := first_run (P := fun _ => True) (n := 2 ^ 32 - 8) trivial (by decide)
    (by decide) rfl rfl
  refine ⟨tr, k, hrun.imp fun _ _ _ _ h => h.1, (kheapBegin .x64 + hdrSz, 2 ^ 32 - 8), by simp [hlive], rfl, ?_⟩
  rw [hgiven]
  decide

end Mos.Kmalloc
