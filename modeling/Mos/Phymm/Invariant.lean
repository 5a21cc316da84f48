import Mos.Phymm.Buddy

/-!
# The invariant of the buddy allocator

`Core` accounts for every page: the free blocks together with the blocks held by someone else (`others`: live
allocations, and the block in hand while a call works on it) cover each managed page exactly once.  Removing, pushing,
splitting and joining blocks only moves blocks between the two sides, so each of them keeps `Core`.
-/

namespace Mos.Phymm

open Lib Function List Block

def freeBlocks (s : State) : List Block :=
  (List.range (maxBuddyOrder + 1)).flatMap fun o => (s.buddyLists o).map (Block.mk o)

variable {s : State} {b : Block}

theorem mem_freeBlocks : b ∈ freeBlocks s ↔ b.order ≤ maxBuddyOrder ∧ b.start ∈ s.buddyLists b.order := by
  obtain ⟨o, i⟩ := b
  simp only [freeBlocks, mem_flatMap, mem_range, mem_map, mk.injEq]
  constructor
  · rintro ⟨o', ho, i', hi, rfl, rfl⟩
    exact ⟨Nat.lt_succ_iff.1 ho, hi⟩
  · rintro ⟨ho, hi⟩
    exact ⟨o, Nat.lt_succ_iff.2 ho, i, hi, rfl, rfl⟩

/-- `ic p` is 1 for the pages given to the allocator and 0 for all others. -/
structure Core (cfg : Config) (ic : Nat → Nat) (s : State) (others : List Block) : Prop where
  cover_eq : ∀ p, cover (freeBlocks s) p + cover others p = ic p
  once : ∀ p, ic p ≤ 1
  managed : ∀ p, 0 < ic p → cfg.phymmBegin ≤ p ∧ p < cfg.phymmEnd
  aligned : ∀ b ∈ freeBlocks s, b.Aligned
  head : ∀ b ∈ freeBlocks s, (s.pages b.start).order = b.order ∧ (s.pages b.start).refCount = 0
  total : s.buddyFreePages = ((freeBlocks s).map Block.size).sum % 2 ^ 32

/-- No two free blocks of one order below the maximum are buddies. -/
def NoBuddies (s : State) : Prop :=
  ∀ b ∈ freeBlocks s, b.order < maxBuddyOrder → (⟨b.order, buddy b.order b.start⟩ : Block) ∉ freeBlocks s

/-- Changing one list of a family by one element changes the concatenation by one element. -/
private theorem flatMap_perm {f f' : Nat → List Nat} {k x : Nat} {n : Nat} (hk : k < n)
    (hsame : ∀ o < n, o ≠ k → f o = f' o) (hperm : (f k).Perm (x :: f' k)) :
    ((range n).flatMap fun o => (f o).map (mk o)).Perm (⟨k, x⟩ :: (range n).flatMap fun o => (f' o).map (mk o)) := by
  induction n with
  | zero => omega
  | succ n ih =>
    simp only [range_succ, flatMap_append, flatMap_singleton]
    by_cases hkn : k = n
    · subst hkn
      have hfront : ((range k).flatMap fun o => (f o).map (mk o)) = (range k).flatMap fun o => (f' o).map (mk o) :=
        flatMap_congr fun o ho => by
          have ho := mem_range.1 ho
          rw [hsame o (by omega) (by omega)]
      rw [hfront]
      have hlast : ((f k).map (mk k)).Perm (⟨k, x⟩ :: (f' k).map (mk k)) := hperm.map _
      exact (hlast.append_left _).trans perm_middle
    · rw [hsame n (by omega) fun h => hkn h.symm]
      exact (ih (by omega) fun o ho => hsame o (by omega)).append_right _

theorem freeBlocks_push (s : State) (idx : Nat) {order : Nat} (ho : order ≤ maxBuddyOrder) :
    (freeBlocks (buddyPush s idx order)).Perm (⟨order, idx⟩ :: freeBlocks s) := by
  refine flatMap_perm (Nat.lt_succ_iff.2 ho) (fun o _ hne => ?_) ?_
  · exact update_of_ne hne _ _
  · simp [buddyPush]

variable {c : Block} {p o i : Nat}

section CoreLemmas

variable {cfg : Config} {ic : Nat → Nat} {s : State} {others : List Block}

section

variable (h : Core cfg ic s others)

include h

theorem Core.congr {others' : List Block} (he : ∀ p, cover others p = cover others' p) : Core cfg ic s others' :=
  { h with cover_eq := fun p => by rw [← he p]; exact h.cover_eq p }

theorem Core.not_free (hb : b ∈ others) (hp : b.Covers p) (hc : c.Covers p) : c ∉ freeBlocks s := by
  intro hmem
  have h1 := cover_pos hb hp
  have h2 := cover_pos hmem hc
  have h3 := h.cover_eq p
  have h4 := h.once p
  omega

theorem Core.held_managed (hb : b ∈ others) (hp : b.Covers p) : cfg.phymmBegin ≤ p ∧ p < cfg.phymmEnd := by
  refine h.managed p ?_
  have h1 := cover_pos hb hp
  have h2 := h.cover_eq p
  omega

theorem Core.free_managed (hb : b ∈ freeBlocks s) (hp : b.Covers p) : cfg.phymmBegin ≤ p ∧ p < cfg.phymmEnd := by
  refine h.managed p ?_
  have h1 := cover_pos hb hp
  have h2 := h.cover_eq p
  omega

theorem Core.frame {pages : Nat → Page}
    (hsame : ∀ b ∈ freeBlocks s, pages b.start = s.pages b.start) : Core cfg ic { s with pages := pages } others :=
  { h with
    head := fun b hb => by
      change (pages b.start).order = b.order ∧ (pages b.start).refCount = 0
      rw [hsame b hb]
      exact h.head b hb }

theorem freeBlocks_remove (hb : b ∈ freeBlocks s) :
    (freeBlocks s).Perm (b :: freeBlocks (buddyRemove s b.start)) := by
  obtain ⟨ho, hi⟩ := mem_freeBlocks.1 hb
  refine flatMap_perm (Nat.lt_succ_iff.2 ho) (fun o hmax hne => ?_) (perm_cons_erase hi)
  -- the page is on one list only
  refine (erase_of_not_mem fun hmem => ?_).symm
  have hb' : (⟨o, b.start⟩ : Block) ∈ freeBlocks s := mem_freeBlocks.2 ⟨Nat.lt_succ_iff.1 hmax, hmem⟩
  have hle : cover (freeBlocks s) b.start ≤ 1 := by
    have h1 := h.cover_eq b.start
    have h2 := h.once b.start
    omega
  have heq := eq_of_cover_le_one hle hb hb' b.covers_start (covers_start ⟨o, b.start⟩)
  exact hne (congrArg order heq).symm

theorem Core.remove (hb : b ∈ freeBlocks s) : Core cfg ic (buddyRemove s b.start) (b :: others) := by
  have hperm := freeBlocks_remove h hb
  have hsub : ∀ c ∈ freeBlocks (buddyRemove s b.start), c ∈ freeBlocks s := fun c hc =>
    hperm.mem_iff.2 (mem_cons_of_mem _ hc)
  refine ⟨fun p => ?_, h.once, h.managed, fun c hc => h.aligned c (hsub c hc), fun c hc => h.head c (hsub c hc), ?_⟩
  · have h1 := h.cover_eq p
    rw [cover_perm hperm, cover_cons] at h1
    rw [cover_cons]
    omega
  · have hsum : ((freeBlocks s).map size).sum = ((freeBlocks (buddyRemove s b.start)).map size).sum + b.size := by
      rw [(hperm.map size).sum_eq, map_cons, sum_cons, Nat.add_comm]
    change subW 32 s.buddyFreePages (2 ^ (s.pages b.start).order) = _
    rw [h.total, hsum, (h.head b hb).1]
    exact subW_mod 32 _ _

end

section

variable (h : Core cfg ic s (b :: others))

include h

theorem Core.push (ha : b.Aligned) (ho : b.order ≤ maxBuddyOrder)
    (hr : (s.pages b.start).refCount = 0) : Core cfg ic (buddyPush s b.start b.order) others := by
  have hperm : (freeBlocks (buddyPush s b.start b.order)).Perm (b :: freeBlocks s) := freeBlocks_push s b.start ho
  have hother : ∀ c ∈ freeBlocks s, c.start ≠ b.start := by
    intro c hc he
    refine h.not_free mem_cons_self b.covers_start ?_ hc
    rw [← he]
    exact c.covers_start
  refine ⟨fun p => ?_, h.once, h.managed, fun c hc => ?_, fun c hc => ?_, ?_⟩
  · have h1 := h.cover_eq p
    rw [cover_cons] at h1
    rw [cover_perm hperm, cover_cons]
    omega
  · rcases mem_cons.1 (hperm.mem_iff.1 hc) with rfl | hc
    · exact ha
    · exact h.aligned c hc
  · rcases mem_cons.1 (hperm.mem_iff.1 hc) with rfl | hc
    · simp [buddyPush, hr]
    · have hne := hother c hc
      simp only [buddyPush, update_of_ne hne]
      exact h.head c hc
  · have hsum : ((freeBlocks (buddyPush s b.start b.order)).map size).sum =
        ((freeBlocks s).map size).sum + b.size := by
      rw [(hperm.map size).sum_eq, map_cons, sum_cons, Nat.add_comm]
    rw [hsum, ← addW_mod, ← h.total]
    rfl

theorem Core.setPage (page : Page) : Core cfg ic (s.setPage b.start page) (b :: others) := by
  refine h.frame fun c hc => ?_
  refine update_of_ne (fun he => ?_) _ _
  refine h.not_free mem_cons_self b.covers_start ?_ hc
  rw [← he]
  exact c.covers_start

theorem Core.pushFree (ha : b.Aligned) (ho : b.order ≤ maxBuddyOrder) :
    Core cfg ic (pushFree s b.start b.order) others := by
  refine (h.setPage _).push ha ho ?_
  simp [State.setPage]

end

theorem Core.split (h : Core cfg ic s (⟨o + 1, i⟩ :: others)) :
    Core cfg ic s (⟨o, i⟩ :: ⟨o, i + 2 ^ o⟩ :: others) := by
  refine h.congr fun p => ?_
  rw [cover_cons, cover_cons, cover_cons, covers_succ]
  omega

theorem Core.swap (h : Core cfg ic s (b :: c :: others)) : Core cfg ic s (c :: b :: others) :=
  h.congr fun p => cover_perm (Perm.swap _ _ _) p

theorem Core.join (h : Core cfg ic s (⟨o, i⟩ :: ⟨o, i + 2 ^ o⟩ :: others)) :
    Core cfg ic s (⟨o + 1, i⟩ :: others) := by
  refine h.congr fun p => ?_
  rw [cover_cons, cover_cons, cover_cons, covers_succ]
  omega

end CoreLemmas

private theorem buddy_ne (o i : Nat) : buddy o i ≠ i := by
  intro h
  have h0 : i ^^^ buddy o i = 0 := by rw [h, Nat.xor_self]
  rw [buddy, ← Nat.xor_assoc, Nat.xor_self, Nat.zero_xor] at h0
  exact absurd h0 (Nat.two_pow_pos o).ne'

theorem buddy_buddy (o i : Nat) : buddy o (buddy o i) = i := by
  rw [buddy, buddy, Nat.xor_assoc, Nat.xor_self, Nat.xor_zero]

theorem NoBuddies.subset {s' : State} (h : NoBuddies s) (hsub : ∀ b ∈ freeBlocks s', b ∈ freeBlocks s) :
    NoBuddies s' := fun b hb ho hmem => h b (hsub b hb) ho (hsub _ hmem)

theorem NoBuddies.push (h : NoBuddies s) (ho : o ≤ maxBuddyOrder)
    (hb : o < maxBuddyOrder → (⟨o, buddy o i⟩ : Block) ∉ freeBlocks s) : NoBuddies (buddyPush s i o) := by
  have hperm := freeBlocks_push s i ho
  intro b hbm hlt hmem
  rw [hperm.mem_iff, mem_cons] at hbm hmem
  rcases hbm with rfl | hbm
  · rcases hmem with hmem | hmem
    · exact buddy_ne o i (congrArg start hmem)
    · exact hb hlt hmem
  rcases hmem with hmem | hmem
  · have h1 : b.order = o := congrArg order hmem
    have h2 : buddy b.order b.start = i := congrArg start hmem
    subst h1
    refine hb hlt ?_
    rw [← h2, buddy_buddy]
    exact hbm
  · exact h b hbm hlt hmem

end Mos.Phymm
