import Mathlib.Data.List.Basic

/-!
# Circular buffers

A buffer is a function from positions to cells.  `slice` and `blit` read and write consecutive cells, as a block copy
does; `window buf size start n` is the content of the `n` cells from `start` on, around the end of a buffer of `size`
cells.  A window is read and written by at most two block copies (`window_eq_slices`, `window_blitWrap`), and a
write behind a window extends it (`window_blitWrap_append`).
-/

namespace Mos.Lib

open List

variable {α : Type*}

/-- The `n` cells from `start` on. -/
def slice (buf : Nat → α) (start n : Nat) : List α := (List.range n).map fun i => buf (start + i)

/-- Overwrite the cells from `start` on by `src`. -/
def blit (buf : Nat → α) (start : Nat) (src : List α) : Nat → α :=
  fun i => if start ≤ i then (src[i - start]?).getD (buf i) else buf i

/-- The `n` cells from `start` on, around the end of a buffer of `size` cells. -/
def window (buf : Nat → α) (size start n : Nat) : List α := (List.range n).map fun i => buf ((start + i) % size)

section

variable (buf : Nat → α)

@[simp] theorem length_slice (start n : Nat) : (slice buf start n).length = n := by simp [slice]

@[simp] theorem length_window (size start n : Nat) : (window buf size start n).length = n := by
  simp [window]

@[simp] theorem window_zero (size start : Nat) : window buf size start 0 = [] := rfl

@[simp] theorem blit_nil (start : Nat) : blit buf start [] = buf := by
  funext i; simp [blit]

end

variable {buf : Nat → α} {start i size m n r : Nat} {src : List α}

theorem blit_of_lt (src : List α) (h : i < start) : blit buf start src i = buf i := by
  simp [blit, Nat.not_le.2 h]

theorem blit_of_le (h : start + src.length ≤ i) : blit buf start src i = buf i := by
  have : src[i - start]? = none := List.getElem?_eq_none (by omega)
  simp [blit, this]

theorem blit_inside (h : i < src.length) : blit buf start src (start + i) = src[i] := by
  simp [blit, h]

theorem add_mod_wrap (hs : start < size) (hi : i ≤ size) :
    (start + i) % size = if start + i < size then start + i else start + i - size := by
  split
  · exact Nat.mod_eq_of_lt ‹_›
  · rw [Nat.mod_eq_sub_mod (by omega), Nat.mod_eq_of_lt (by omega)]

section

variable (buf : Nat → α)

theorem window_add (size start m n : Nat) :
    window buf size start (m + n) = window buf size start m ++ window buf size ((start + m) % size) n := by
  simp only [window, range_add, map_append, map_map]
  congr 1
  apply map_congr_left
  intro i _
  simp [Nat.add_assoc]

theorem take_window (size start : Nat) (h : m ≤ n) : (window buf size start n).take m = window buf size start m := by
  obtain ⟨k, rfl⟩ := Nat.exists_eq_add_of_le h
  rw [window_add, take_append_of_le_length (by simp), take_of_length_le (by simp)]

theorem drop_window (size start : Nat) (h : m ≤ n) :
    (window buf size start n).drop m = window buf size ((start + m) % size) (n - m) := by
  obtain ⟨k, rfl⟩ := Nat.exists_eq_add_of_le h
  rw [window_add, drop_append_of_le_length (by simp), drop_of_length_le (by simp)]
  simp

/-- A window is read by a block copy up to the end of the buffer and one from its beginning. -/
theorem window_eq_slices (hs : start < size) (hn : n ≤ size) : window buf size start n =
      slice buf start (min (size - start) n) ++ slice buf 0 (n - min (size - start) n) := by
  apply ext_getElem
  · rw [length_window, length_append, length_slice, length_slice]
    omega
  · intro i h1 h2
    rw [length_window] at h1
    rw [getElem_append]
    simp only [window, slice, getElem_map, getElem_range, length_map, length_range]
    rw [add_mod_wrap hs (by omega)]
    split <;> split
    · rfl
    · omega
    · omega
    · congr 1; omega

end

theorem window_congr {buf' : Nat → α} (h : ∀ i < n, buf ((start + i) % size) = buf' ((start + i) % size)) :
    window buf size start n = window buf' size start n := by
  apply map_congr_left
  intro i hi
  exact h i (mem_range.1 hi)

section Write

variable {buf : Nat → α} {size start : Nat} {src : List α}

/-- The buffer after writing `src` around the end in two block copies. -/
def blitWrap (buf : Nat → α) (size start : Nat) (src : List α) : Nat → α :=
  blit (blit buf start (src.take (size - start))) 0 (src.drop (size - start))

theorem window_blitWrap (hs : start < size) (hn : src.length ≤ size) :
    window (blitWrap buf size start src) size start src.length = src := by
  apply ext_getElem
  · simp
  · intro i h1 h2
    simp only [window, getElem_map, getElem_range, blitWrap]
    rw [add_mod_wrap hs (by omega)]
    split
    · rename_i hlt
      rw [blit_of_le (by simp; omega), blit_inside (by simp; omega)]
      simp
    rename_i hge
    have e : start + i - size = 0 + (i - (size - start)) := by omega
    rw [e, blit_inside (by simp; omega)]
    simp only [getElem_drop]
    congr 1; omega

theorem window_blitWrap_before (hs : r < size) (hn : n + src.length ≤ size) :
    window (blitWrap buf size ((r + n) % size) src) size r n = window buf size r n := by
  apply window_congr
  intro i hi
  unfold blitWrap
  rw [add_mod_wrap hs (show i ≤ size by omega), add_mod_wrap hs (show n ≤ size by omega)]
  by_cases hw : r + n < size
  · rw [if_pos hw, if_pos (show r + i < size by omega), blit_of_le (by simp; omega), blit_of_lt _ (by omega)]
  · rw [if_neg hw]
    split
    · rw [blit_of_le (by simp; omega), blit_of_le (by simp; omega)]
    · rw [blit_of_le (by simp; omega), blit_of_lt _ (by omega)]

theorem window_blitWrap_append (hs : r < size) (hn : n + src.length ≤ size) :
    window (blitWrap buf size ((r + n) % size) src) size r (n + src.length) = window buf size r n ++ src := by
  rw [window_add, window_blitWrap_before hs hn, window_blitWrap (Nat.mod_lt _ (by omega)) (by omega)]

end Write

end Mos.Lib
