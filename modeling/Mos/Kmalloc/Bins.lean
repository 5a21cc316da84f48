import Mos.Kmalloc.Heap

/-!
# The bins

`size_to_bin` is monotone, and exact on small sizes; `next_nonempty_bin` finds the first set bit from its start.
These are the two facts that the search for a block rests on.
-/

namespace Mos.Kmalloc

open Lib Function BitVec List Option

theorem minBlk_le (a : Arch) : 16 ≤ minBlk a ∧ minBlk a ≤ 24 := by
  cases a <;> decide

private theorem largeBin_bounds (sz rounds i bound : Nat) :
    i ≤ largeBin sz rounds i bound ∧ largeBin sz rounds i bound ≤ i + rounds := by
  induction rounds generalizing i bound with
  | zero => exact ⟨le_rfl, le_rfl⟩
  | succ rounds ih =>
    rw [largeBin]
    split_ifs
    · omega
    · have := ih (i + 1) (bound * 2 % 2 ^ 32)
      omega

variable {x y sz : Nat} {a : Arch}

private theorem largeBin_mono (h : x ≤ y) (rounds i bound : Nat) :
    largeBin x rounds i bound ≤ largeBin y rounds i bound := by
  induction rounds generalizing i bound with
  | zero => exact le_rfl
  | succ rounds ih =>
    rw [largeBin, largeBin]
    by_cases hy : y ≤ bound
    · rw [if_pos hy, if_pos (h.trans hy)]
    rw [if_neg hy]
    split_ifs
    · have := (largeBin_bounds y rounds (i + 1) (bound * 2 % 2 ^ 32)).1
      omega
    · exact ih _ _

private theorem sizeToBin_small (hmin : minBlk a ≤ sz) (h : sz ≤ smallBinMax) :
    sizeToBin a sz = (sz - minBlk a) / 8 ∧ sizeToBin a sz < smallBinCount a := by
  have hmax : smallBinMax = 1024 := rfl
  have hs : sizeToBin a sz = (sz - minBlk a) / 8 := by
    rw [sizeToBin, if_pos h, subW_eq hmin (by omega)]
  rw [hs, smallBinCount]
  exact ⟨rfl, Nat.lt_succ_of_le (Nat.div_le_div_right (by omega))⟩

private theorem sizeToBin_large (h : smallBinMax < sz) : smallBinCount a ≤ sizeToBin a sz := by
  rw [sizeToBin, if_neg (Nat.not_le.2 h)]
  exact (largeBin_bounds _ _ _ _).1

theorem sizeToBin_lt (hmin : minBlk a ≤ sz) : sizeToBin a sz < numBins a := by
  by_cases h : sz ≤ smallBinMax
  · exact Nat.lt_of_lt_of_le (sizeToBin_small hmin h).2 (Nat.le_add_right _ _)
  · have := (largeBin_bounds sz (largeBinCount - 1) (smallBinCount a) (smallBinMax * 2)).2
    rw [sizeToBin, if_neg h]
    simp only [numBins, largeBinCount] at this ⊢
    omega

theorem sizeToBin_mono (hmin : minBlk a ≤ x) (h : x ≤ y) : sizeToBin a x ≤ sizeToBin a y := by
  by_cases hx : x ≤ smallBinMax
  · by_cases hy : y ≤ smallBinMax
    · rw [(sizeToBin_small hmin hx).1, (sizeToBin_small (hmin.trans h) hy).1]
      exact Nat.div_le_div_right (by omega)
    · have h1 := (sizeToBin_small hmin hx).2
      have h2 := sizeToBin_large (a := a) (Nat.lt_of_not_le hy)
      omega
  · rw [sizeToBin, sizeToBin, if_neg hx, if_neg (by omega)]
    exact largeBin_mono h _ _ _

theorem sizeToBin_small_inj (hx : minBlk a ≤ x) (hy : minBlk a ≤ y) (hx8 : 8 ∣ x) (hy8 : 8 ∣ y)
    (hs : sizeToBin a x < smallBinCount a) (he : sizeToBin a x = sizeToBin a y) : x = y := by
  have hxs : x ≤ smallBinMax := by
    by_contra hgt
    have := sizeToBin_large (a := a) (Nat.lt_of_not_le hgt)
    omega
  have hys : y ≤ smallBinMax := by
    by_contra hgt
    have := sizeToBin_large (a := a) (Nat.lt_of_not_le hgt)
    omega
  rw [(sizeToBin_small hx hxs).1, (sizeToBin_small hy hys).1] at he
  omega

def bit (bitmap : Nat → BitVec 32) (k : Nat) : Bool := (bitmap (k / 32)).getLsbD (k % 32)

private theorem getLsbD_one_shiftLeft (b k : Nat) :
    (1#32 <<< (b % 32)).getLsbD (k % 32) = decide (k % 32 = b % 32) := by
  have hb : b % 32 < 32 := Nat.mod_lt _ (by decide)
  rw [← twoPow_eq, getLsbD_twoPow]
  simp [hb, eq_comm]

theorem bit_set (bitmap : Nat → BitVec 32) (b k : Nat) :
    bit (update bitmap (b / 32) (bitmap (b / 32) ||| (1#32 <<< (b % 32)))) k = (bit bitmap k || decide (k = b)) := by
  unfold bit
  by_cases hw : k / 32 = b / 32
  · have hiff : k % 32 = b % 32 ↔ k = b := by omega
    rw [hw, update_self, getLsbD_or, getLsbD_one_shiftLeft]
    simp only [hiff]
  · have hb : k ≠ b := fun h => hw (by rw [h])
    rw [update_of_ne hw]
    simp [hb]

theorem bit_clear (bitmap : Nat → BitVec 32) (b k : Nat) :
    bit (update bitmap (b / 32) (bitmap (b / 32) &&& ~~~(1#32 <<< (b % 32)))) k =
      (bit bitmap k && !decide (k = b)) := by
  have hk : k % 32 < 32 := Nat.mod_lt _ (by decide)
  unfold bit
  by_cases hw : k / 32 = b / 32
  · have hiff : k % 32 = b % 32 ↔ k = b := by omega
    rw [hw, update_self, getLsbD_and, getLsbD_not, getLsbD_one_shiftLeft]
    simp [hiff, hk]
  · have hb : k ≠ b := fun h => hw (by rw [h])
    rw [update_of_ne hw]
    simp [hb]

variable {w : BitVec 32}

theorem ctz_spec (h : w ≠ 0) : ctz w < 32 ∧ w.getLsbD (ctz w) = true := find_getLsbD h

theorem ctz_index (h : w ≠ 0) (word : Nat) :
    (word * 32 + ctz w) / 32 = word ∧ w.getLsbD ((word * 32 + ctz w) % 32) = true := by
  obtain ⟨h1, h2⟩ := ctz_spec h
  have hm : (word * 32 + ctz w) % 32 = ctz w := by omega
  rw [hm]
  exact ⟨by omega, h2⟩

/-- From a word on: a set bit is returned, or there is none in this word and the `left` words after it. -/
theorem scanWords_spec (bitmap : Nat → BitVec 32) (left word : Nat) (active : BitVec 32) :
    (∃ k, scanWords bitmap left word active = some k ∧ ((k / 32 = word ∧ active.getLsbD (k % 32) = true) ∨
      (word < k / 32 ∧ k / 32 ≤ word + left ∧ bit bitmap k = true))) ∨
    (scanWords bitmap left word active = none ∧ active = 0 ∧
      ∀ k, word < k / 32 → k / 32 ≤ word + left → bit bitmap k = false) := by
  induction left generalizing word active with
  | zero =>
    rw [scanWords]
    split_ifs with h
    · exact .inl ⟨_, rfl, .inl (ctz_index h word)⟩
    · exact .inr ⟨rfl, Decidable.of_not_not h, fun k h1 h2 => by omega⟩
  | succ left ih =>
    rw [scanWords]
    split_ifs with h
    · exact .inl ⟨_, rfl, .inl (ctz_index h word)⟩
    have hnext := ih (word + 1) (bitmap (word + 1))
    rcases hnext with ⟨k, hk, ⟨h1, h2⟩ | ⟨h1, h2, h3⟩⟩ | ⟨hnone, hzero, hrest⟩
    · refine .inl ⟨k, hk, .inr ⟨by omega, by omega, ?_⟩⟩
      rw [bit, h1]
      exact h2
    · exact .inl ⟨k, hk, .inr ⟨by omega, by omega, h3⟩⟩
    refine .inr ⟨hnone, Decidable.of_not_not h, fun k h1 h2 => ?_⟩
    by_cases hw : k / 32 = word + 1
    · rw [bit, hw, hzero]
      simp
    · exact hrest k (by omega) (by omega)

theorem numBins_le (a : Arch) : numBins a ≤ binBitmapWords a * 32 := by
  unfold binBitmapWords
  omega

theorem nextNonemptyBin_spec {h : Heap} (hhigh : ∀ k, numBins a ≤ k → bit h.binBitmap k = false) (start : Nat) :
    (nextNonemptyBin a h start = numBins a ∧ ∀ k, start ≤ k → bit h.binBitmap k = false) ∨
    (start ≤ nextNonemptyBin a h start ∧ nextNonemptyBin a h start < numBins a ∧
      bit h.binBitmap (nextNonemptyBin a h start) = true) := by
  unfold nextNonemptyBin
  split_ifs with hs
  · exact .inl ⟨rfl, fun k hk => hhigh k (by omega)⟩
  have hwords := numBins_le a
  have hmask : ∀ k, k / 32 = start / 32 →
      (h.binBitmap (start / 32) &&& (allOnes 32 <<< (start % 32))).getLsbD (k % 32) =
        (bit h.binBitmap k && decide (start ≤ k)) := by
    intro k hk
    have hlt : k % 32 < 32 := Nat.mod_lt _ (by decide)
    rw [bit, hk, getLsbD_and, getLsbD_shiftLeft, getLsbD_allOnes]
    congr 1
    have hiff : ¬k % 32 < start % 32 ↔ start ≤ k := by omega
    by_cases hle : start ≤ k
    · have h1 := hiff.2 hle
      have h2 : k % 32 - start % 32 < 32 := by omega
      simp [hlt, h1, h2, hle]
    · have h1 : k % 32 < start % 32 := by omega
      simp [h1, hle]
  dsimp only
  rcases scanWords_spec h.binBitmap (binBitmapWords a - 1 - start / 32) (start / 32)
    (h.binBitmap (start / 32) &&& (allOnes 32 <<< (start % 32))) with
    ⟨k, hk, hbit⟩ | ⟨hnone, hzero, hrest⟩
  · rw [hk, getD_some]
    have hb : start ≤ k ∧ bit h.binBitmap k = true := by
      rcases hbit with ⟨h1, h2⟩ | ⟨h1, -, h3⟩
      · rw [hmask k h1] at h2
        simp only [Bool.and_eq_true, decide_eq_true_eq] at h2
        exact ⟨h2.2, h2.1⟩
      · exact ⟨by omega, h3⟩
    refine .inr ⟨hb.1, ?_, hb.2⟩
    by_contra hge
    rw [hhigh k (by omega)] at hb
    exact absurd hb.2 (by decide)
  · rw [hnone, getD_none]
    refine .inl ⟨rfl, fun k hk => ?_⟩
    by_cases hbig : numBins a ≤ k
    · exact hhigh k hbig
    by_cases hw : k / 32 = start / 32
    · have h1 := hmask k hw
      rw [hzero] at h1
      simpa [hk] using h1.symm
    · exact hrest k (by omega) (by omega)

end Mos.Kmalloc
