import Mos.Phymm.Invariant

/-!
# Splitting, coalescing and the interface functions

What each loop of the allocator does to the accounting of `Core`, to the page records and to the buddies among the
free blocks; then the same for the allocation and free functions.
-/

namespace Mos.Phymm

open Lib List Function Block

variable {cfg : Config} {ic : Nat → Nat} {s : State} {others live : List Block}

variable {o i order cur : Nat}

theorem buddy_halves (h : 2 ^ (o + 1) ∣ i) : buddy o i = i + 2 ^ o ∧ buddy o (i + 2 ^ o) = i := by
  have hi : buddy o i = i + 2 ^ o := by
    obtain ⟨q, rfl⟩ := h
    have hpow : 2 ^ (o + 1) = 2 ^ o * 2 := Nat.pow_succ ..
    rcases buddy_cases (Nat.dvd_trans ⟨2, hpow⟩ (Nat.dvd_mul_right _ _)) with hc | hc
    · exact hc.2
    -- `i - 2 ^ o` is an odd multiple of `2 ^ o`
    exfalso
    obtain ⟨hle, ⟨k, hk⟩, -⟩ := hc
    rw [hpow] at hk hle
    have hpos := Nat.two_pow_pos o
    have h1 : 2 ^ o * (2 * q) = 2 ^ o * (2 * k + 1) := by
      rw [Nat.mul_add, Nat.mul_one, ← Nat.mul_assoc, ← Nat.mul_assoc]
      omega
    have h2 := Nat.eq_of_mul_eq_mul_left hpos h1
    omega
  refine ⟨hi, ?_⟩
  rw [← hi, buddy_buddy]

private theorem dvd_half (h : 2 ^ (o + 1) ∣ i) : 2 ^ o ∣ i ∧ 2 ^ o ∣ i + 2 ^ o := by
  have hi : 2 ^ o ∣ i := Nat.dvd_trans (Nat.pow_dvd_pow 2 (Nat.le_succ o)) h
  exact ⟨hi, Nat.dvd_add hi (Nat.dvd_refl _)⟩

private theorem pushFree_pages_of_ne {p : Nat} (h : p ≠ i) : (pushFree s i o).pages p = s.pages p := by
  simp only [pushFree, buddyPush, State.setPage, update_of_ne h]

theorem Core.split_push (h : Core cfg ic s (⟨o + 1, i⟩ :: others)) (ha : 2 ^ (o + 1) ∣ i)
    (ho : o + 1 ≤ maxBuddyOrder) {keep give : Nat} (hhalf : keep = i ∧ give = i + 2 ^ o ∨ keep = i + 2 ^ o ∧
    give = i) :
    Core cfg ic (Phymm.pushFree s give o) (⟨o, keep⟩ :: others) ∧
      (NoBuddies s → NoBuddies (Phymm.pushFree s give o)) := by
  obtain ⟨hd1, hd2⟩ := dvd_half ha
  obtain ⟨hb1, hb2⟩ := buddy_halves ha
  have hcore : Core cfg ic s (⟨o, give⟩ :: ⟨o, keep⟩ :: others) := by
    rcases hhalf with ⟨rfl, rfl⟩ | ⟨rfl, rfl⟩
    · exact h.split.swap
    · exact h.split
  have hdvd : 2 ^ o ∣ give := by rcases hhalf with ⟨-, rfl⟩ | ⟨-, rfl⟩ <;> assumption
  have hbud : buddy o give = keep := by rcases hhalf with ⟨rfl, rfl⟩ | ⟨rfl, rfl⟩ <;> assumption
  refine ⟨hcore.pushFree hdvd (by dsimp only; omega), fun hn => ?_⟩
  refine NoBuddies.push hn (by omega) fun _ => ?_
  -- the buddy is still in hand
  rw [hbud]
  exact hcore.not_free (by simp) (covers_start _) (covers_start _)

/-- The block `b` in hand has been split down to the block of the given order at `i`, and the rest of it freed. -/
structure Split (cfg : Config) (ic : Nat → Nat) (s : State) (others : List Block) (b : Block) (order : Nat)
    (s' : State) (i : Nat) : Prop where
  core : Core cfg ic s' (⟨order, i⟩ :: others)
  aligned : 2 ^ order ∣ i
  inside : ∀ p, (⟨order, i⟩ : Block).Covers p → b.Covers p
  frame : ∀ p, ¬b.Covers p → s'.pages p = s.pages p
  buddies : NoBuddies s → NoBuddies s'

theorem Split.refl (h : Core cfg ic s (⟨order, i⟩ :: others)) (ha : 2 ^ order ∣ i) :
    Split cfg ic s others ⟨order, i⟩ order s i := ⟨h, ha, fun _ hp => hp, fun _ _ => rfl, fun hn => hn⟩

/-- One round of a splitting loop: the half `give` is freed, and the half `keep` split further. -/
theorem Split.round {keep give j : Nat} {s' : State}
    (hs : Split cfg ic (pushFree s give cur) others ⟨cur, keep⟩ order s' j)
    (hbud : NoBuddies s → NoBuddies (pushFree s give cur))
    (hhalf : keep = i ∧ give = i + 2 ^ cur ∨ keep = i + 2 ^ cur ∧ give = i) :
    Split cfg ic s others ⟨cur + 1, i⟩ order s' j := by
  have hpos := Nat.two_pow_pos cur
  refine ⟨hs.core, hs.aligned, fun p hp => ?_, fun p hp => ?_, fun hn => hs.buddies (hbud hn)⟩
  · have hp' := hs.inside p hp
    simp only [Block.Covers] at hp' ⊢
    omega
  · have hf := hs.frame p
    simp only [Block.Covers] at hp hf
    rw [hf (by omega), pushFree_pages_of_ne (by omega)]

private theorem Core.upper_lt (h : Core cfg ic s (⟨cur + 1, i⟩ :: others)) : i + 2 ^ cur < cfg.phymmEnd :=
  have hpos := Nat.two_pow_pos cur
  (h.held_managed mem_cons_self ⟨by dsimp only; omega, by dsimp only; omega⟩).2

private theorem splitLow_spec (h : Core cfg ic s (⟨cur, i⟩ :: others)) (ha : 2 ^ cur ∣ i)
    (hmax : cur ≤ maxBuddyOrder) (hle : order ≤ cur) :
    Split cfg ic s others ⟨cur, i⟩ order (splitLow cfg i order cur s) i := by
  induction cur generalizing s with
  | zero =>
    obtain rfl : order = 0 := by omega
    exact .refl h ha
  | succ cur ih =>
    rw [splitLow]
    by_cases hc : cur + 1 > order
    · obtain ⟨hcore, hbud⟩ := h.split_push ha hmax (.inl ⟨rfl, rfl⟩)
      rw [if_pos hc, if_pos h.upper_lt]
      exact (ih hcore (dvd_half ha).1 (by omega) (by omega)).round hbud (.inl ⟨rfl, rfl⟩)
    · obtain rfl : order = cur + 1 := by omega
      rw [if_neg hc]
      exact .refl h ha

private theorem splitHigh_spec (h : Core cfg ic s (⟨cur, i⟩ :: others)) (ha : 2 ^ cur ∣ i)
    (hmax : cur ≤ maxBuddyOrder) (hle : order ≤ cur) :
    Split cfg ic s others ⟨cur, i⟩ order (splitHigh cfg order cur s i).1 (splitHigh cfg order cur s i).2 := by
  induction cur generalizing s i with
  | zero =>
    obtain rfl : order = 0 := by omega
    exact .refl h ha
  | succ cur ih =>
    rw [splitHigh]
    by_cases hc : cur + 1 > order
    · obtain ⟨hcore, hbud⟩ := h.split_push ha hmax (.inr ⟨rfl, rfl⟩)
      rw [if_pos hc, if_pos h.upper_lt]
      exact (ih hcore (dvd_half ha).2 (by omega) (by omega)).round hbud (.inr ⟨rfl, rfl⟩)
    · obtain rfl : order = cur + 1 := by omega
      rw [if_neg hc]
      exact .refl h ha

private theorem buddyIsFreeAtOrder_iff (h : Core cfg ic s others) (ho : o ≤ maxBuddyOrder) :
    buddyIsFreeAtOrder cfg s i o = true ↔ (⟨o, i⟩ : Block) ∈ freeBlocks s := by
  unfold buddyIsFreeAtOrder
  constructor
  · intro ht
    split_ifs at ht with hr
    simp only [Bool.and_eq_true, beq_iff_eq, onList, any_eq_true, mem_range, decide_eq_true_eq] at ht
    obtain ⟨⟨-, hord⟩, o', ho', hmem⟩ := ht
    have hfree : (⟨o', i⟩ : Block) ∈ freeBlocks s := mem_freeBlocks.2 ⟨Nat.lt_succ_iff.1 ho', hmem⟩
    have hhead := (h.head _ hfree).1
    rw [hord] at hhead
    rw [hhead]
    exact hfree
  · intro hfree
    obtain ⟨hlo, hhi⟩ := h.free_managed hfree (covers_start _)
    obtain ⟨hord, href⟩ := h.head _ hfree
    dsimp only at hlo hhi hord href
    rw [if_neg (by omega)]
    simp only [Bool.and_eq_true, beq_iff_eq, onList, any_eq_true, mem_range, decide_eq_true_eq]
    exact ⟨⟨href, hord⟩, o, by omega, (mem_freeBlocks.1 hfree).2⟩

theorem Core.join_buddy (h : Core cfg ic s (⟨o, i⟩ :: others)) (ha : 2 ^ o ∣ i)
    (hb : (⟨o, buddy o i⟩ : Block) ∈ freeBlocks s) :
    Core cfg ic (buddyRemove s (buddy o i)) (⟨o + 1, if buddy o i < i then buddy o i else i⟩ :: others) ∧
      2 ^ (o + 1) ∣ (if buddy o i < i then buddy o i else i) := by
  have hr := h.remove hb
  rcases buddy_cases ha with ⟨hd, he⟩ | ⟨hle, hd, he⟩
  · rw [if_neg (by omega)]
    refine ⟨?_, hd⟩
    rw [he] at hr ⊢
    exact hr.swap.join
  rw [if_pos (by omega), he]
  refine ⟨?_, hd⟩
  rw [he] at hr
  have hi : i = i - 2 ^ o + 2 ^ o := by omega
  refine Core.join ?_
  rw [← hi]
  exact hr

private theorem coalesce_spec (rounds : Nat) (h : Core cfg ic s (⟨o, i⟩ :: others)) (ha : 2 ^ o ∣ i)
    (hmax : o + rounds = maxBuddyOrder) :
    let r := coalesce cfg rounds s i o
    Core cfg ic r.1 (r.2 :: others) ∧ r.2.Aligned ∧ r.2.order ≤ maxBuddyOrder ∧ r.1.pages = s.pages ∧
      (NoBuddies s → NoBuddies r.1) ∧
      (r.2.order < maxBuddyOrder → (⟨r.2.order, buddy r.2.order r.2.start⟩ : Block) ∉ freeBlocks r.1) := by
  induction rounds generalizing s i o with
  | zero => exact ⟨h, ha, by simp only [coalesce]; omega, rfl, fun hn => hn,
      fun hlt => by simp only [coalesce] at hlt; omega⟩
  | succ rounds ih =>
    rw [coalesce]
    have hiff := buddyIsFreeAtOrder_iff h (i := buddy o i) (o := o) (by omega)
    by_cases hb : buddyIsFreeAtOrder cfg s (buddy o i) o = true
    · rw [if_pos hb]
      have hfree := hiff.1 hb
      obtain ⟨h1, h2⟩ := h.join_buddy ha hfree
      obtain ⟨g1, g2, g3, g4, g5, g6⟩ := ih h1 h2 (by omega)
      refine ⟨g1, g2, g3, g4, fun hn => g5 (hn.subset fun c hc => ?_), g6⟩
      exact (freeBlocks_remove h hfree).mem_iff.2 (mem_cons_of_mem _ hc)
    · rw [if_neg hb]
      exact ⟨h, ha, by dsimp only; omega, rfl, fun hn => hn, fun _ hmem => hb (hiff.2 hmem)⟩

theorem buddyFreeBlock_spec (h : Core cfg ic s (⟨o, i⟩ :: live)) (ha : 2 ^ o ∣ i) (ho : o ≤ maxBuddyOrder) :
    let s' := buddyFreeBlock cfg s i o
    Core cfg ic s' live ∧ (∀ b ∈ live, s'.pages b.start = s.pages b.start) ∧ (NoBuddies s → NoBuddies s') := by
  obtain ⟨h1, h2, h3, h4, h5, h6⟩ := coalesce_spec (maxBuddyOrder - o) h ha (by omega)
  unfold buddyFreeBlock
  generalize coalesce cfg (maxBuddyOrder - o) s i o = m at h1 h2 h3 h4 h5 h6
  refine ⟨(h1.setPage _).push h2 h3 (by simp [State.setPage]), fun b hb => ?_, fun hn => ?_⟩
  · have hne : b.start ≠ m.2.start := by
      intro he
      have hb1 := cover_pos hb b.covers_start
      have hb2 := h1.cover_eq b.start
      have hb3 := h1.once b.start
      rw [cover_cons, if_pos (by rw [he]; exact m.2.covers_start)] at hb2
      omega
    simp only [buddyPush, State.setPage, update_of_ne hne, h4]
  · exact NoBuddies.push (h5 hn) h3 h6

/-! ### Allocation -/

/-- A block of the given order has moved from the free lists to the caller. -/
structure Allocated (cfg : Config) (ic : Nat → Nat) (s : State) (live : List Block) (order : Nat) (s' : State)
    (i : Nat) : Prop where
  core : Core cfg ic s' (⟨order, i⟩ :: live)
  aligned : 2 ^ order ∣ i
  head : (s'.pages i).order = order
  frame : ∀ b ∈ live, s'.pages b.start = s.pages b.start
  buddies : NoBuddies s → NoBuddies s'

/-- The outcome of an allocation from state `s`: nothing at all, or a block of the given order. -/
def AllocSpec (cfg : Config) (ic : Nat → Nat) (s : State) (live : List Block) (order : Nat) (r : State × Option Nat) :
    Prop :=
  r = (s, none) ∨ ∃ i, r.2 = some i ∧ Allocated cfg ic s live order r.1 i

variable {b : Block} {pick : Nat → List Nat → Option Nat} {os l : List Nat}

/-- Marking the block in hand finishes an allocation. -/
theorem markBlock_spec {s' : State} (h : Core cfg ic s live) (hb : b ∈ freeBlocks s)
    (hs : Split cfg ic (buddyRemove s b.start) live b order s' i) :
    Allocated cfg ic s live order (markBlock cfg s' i order) i := by
  have hout : ∀ p, ¬(⟨order, i⟩ : Block).Covers p → (markBlock cfg s' i order).pages p = s'.pages p := by
    intro p hp
    have hpos := Nat.two_pow_pos order
    simp only [Block.Covers] at hp
    simp only [markBlock]
    rw [if_neg (by omega), if_neg (by omega)]
  refine ⟨?_, hs.aligned, ?_, fun c hc => ?_, fun hn => hs.buddies (hn.subset fun c hc => ?_)⟩
  · refine hs.core.frame fun c hc => hout c.start fun hcov => ?_
    exact hs.core.not_free mem_cons_self hcov c.covers_start hc
  · simp [markBlock]
  · have hcb : ¬b.Covers c.start := fun hcov => h.not_free hc c.covers_start hcov hb
    rw [hout c.start fun hcov => hcb (hs.inside _ hcov), hs.frame _ hcb]
    rfl
  · exact (freeBlocks_remove h hb).mem_iff.2 (mem_cons_of_mem _ hc)

private theorem firstBlock_some
    (h : firstBlock pick s os = some b) : b.order ∈ os ∧ pick b.order (s.buddyLists b.order) = some b.start := by
  induction os with
  | nil => cases h
  | cons o os ih =>
    rw [firstBlock] at h
    split at h
    · cases h
      exact ⟨mem_cons_self, by assumption⟩
    · exact ⟨mem_cons_of_mem _ (ih h).1, (ih h).2⟩

private theorem firstBlock_none (h : firstBlock pick s os = none) : ∀ o ∈ os, pick o (s.buddyLists o) = none := by
  induction os with
  | nil => simp
  | cons o os ih =>
    rw [firstBlock] at h
    split at h
    · cases h
    · intro o' ho'
      rcases mem_cons.1 ho' with rfl | ho'
      · assumption
      · exact ih h o' ho'

private theorem mem_ordersFrom (h : order ≤ maxBuddyOrder) : o ∈ ordersFrom order ↔ order ≤ o ∧
    o ≤ maxBuddyOrder := by
  rw [ordersFrom, mem_range'_1]
  omega

theorem buddyAllocInRange_spec (h : Core cfg ic s live) (ho : order ≤ maxBuddyOrder)
    (minIdx maxIdx : Nat) : AllocSpec cfg ic s live order (buddyAllocInRange cfg s order minIdx maxIdx) := by
  unfold buddyAllocInRange
  split_ifs
  · exact .inl rfl
  split
  · exact .inl rfl
  rename_i b hb
  obtain ⟨hmem, hpick⟩ := firstBlock_some hb
  obtain ⟨hle, hmax⟩ := (mem_ordersFrom ho).mp hmem
  have hfree : b ∈ freeBlocks s := mem_freeBlocks.2 ⟨hmax, List.mem_of_find?_eq_some hpick⟩
  have hs := splitLow_spec (h.remove hfree) (h.aligned b hfree) hmax hle
  exact .inr ⟨b.start, rfl, markBlock_spec h hfree hs⟩

private theorem highest_cons (l : List Nat) (b : Nat) : ∃ i ∈ b :: l, l.foldl higher (some b) = some i := by
  induction l generalizing b with
  | nil => exact ⟨b, mem_cons_self, rfl⟩
  | cons x l ih =>
    rw [foldl_cons, higher]
    by_cases hx : x > b
    · obtain ⟨i, hi, hf⟩ := ih x
      rw [if_pos hx]
      exact ⟨i, mem_cons_of_mem _ hi, hf⟩
    · obtain ⟨i, hi, hf⟩ := ih b
      rw [if_neg hx]
      exact ⟨i, cons_subset_cons b (subset_cons_self x l) hi, hf⟩

private theorem highest_mem (h : highest l = some i) : i ∈ l := by
  cases l with
  | nil => cases h
  | cons x l =>
    obtain ⟨j, hj, hf⟩ := highest_cons l x
    cases hf.symm.trans h
    exact hj

theorem highest_none (h : highest l = none) : l = [] := by
  cases l with
  | nil => rfl
  | cons x l =>
    obtain ⟨j, -, hf⟩ := highest_cons l x
    cases hf.symm.trans h

theorem buddyAllocHigh_spec (h : Core cfg ic s live) (ho : order ≤ maxBuddyOrder) :
    AllocSpec cfg ic s live order (buddyAllocHigh cfg s order) := by
  unfold buddyAllocHigh
  split
  · exact .inl rfl
  rename_i b hb
  obtain ⟨hmem, hpick⟩ := firstBlock_some hb
  obtain ⟨hle, hmax⟩ := (mem_ordersFrom ho).mp hmem
  have hfree : b ∈ freeBlocks s := mem_freeBlocks.2 ⟨hmax, highest_mem hpick⟩
  have hs := splitHigh_spec (h.remove hfree) (h.aligned b hfree) hmax hle
  exact .inr ⟨_, rfl, markBlock_spec h hfree hs⟩

theorem buddyAllocHigh_none (h : (buddyAllocHigh cfg s 0).2 = none) : freeBlocks s = [] := by
  unfold buddyAllocHigh at h
  split at h
  · rename_i hnone
    refine eq_nil_iff_forall_not_mem.2 fun b hb => ?_
    obtain ⟨hmax, hi⟩ := mem_freeBlocks.1 hb
    have hl := highest_none (firstBlock_none hnone b.order
      ((mem_ordersFrom (Nat.zero_le _)).mpr ⟨Nat.zero_le _, hmax⟩))
    rw [hl] at hi
    cases hi
  · cases h

theorem AllocSpec.orElse {first : State × Option Nat} {second : State → State × Option Nat}
    (h1 : AllocSpec cfg ic s live order first) (h2 : AllocSpec cfg ic s live order (second s)) :
    AllocSpec cfg ic s live order (Phymm.orElse first second) := by
  unfold Phymm.orElse
  rcases h1 with rfl | ⟨i, hi, ha⟩
  · exact h2
  · rw [hi]
    exact .inr ⟨i, hi, ha⟩

theorem phymmAllocUser_spec (h : Core cfg ic s live) : AllocSpec cfg ic s live 0 (phymmAllocUser cfg s) :=
  ((buddyAllocInRange_spec h (Nat.zero_le _) _ _).orElse (buddyAllocInRange_spec h (Nat.zero_le _) _ _)).orElse
    (buddyAllocHigh_spec h (Nat.zero_le _))

theorem phymmAllocUser_none (h : Core cfg ic s live) (hn : (phymmAllocUser cfg s).2 = none) : freeBlocks s = [] := by
  have h1 : AllocSpec cfg ic s live 0 (orElse (buddyAllocInRange cfg s 0 0x100000 cfg.phymmEnd) fun s =>
      buddyAllocInRange cfg s 0 (phymmKernelPageLimit cfg) cfg.phymmEnd) :=
    (buddyAllocInRange_spec h (Nat.zero_le _) _ _).orElse (buddyAllocInRange_spec h (Nat.zero_le _) _ _)
  rw [phymmAllocUser, orElse] at hn
  rcases h1 with h1 | ⟨i, hi, -⟩
  · rw [h1] at hn
    exact buddyAllocHigh_none hn
  · rw [hi] at hn
    rw [hi] at hn
    cases hn

end Mos.Phymm
