import Mos.Kmalloc.Heap
import Mos.Vm.Mmap

/-!
# The size of a new segment

The arithmetic of `mos_shm_create`: sizes and page counts are of type `size_t`, but `kmalloc` and `memset` take the
bytes of the page array in 32 bits.  Up to `createLimit` nothing is cut off.  Above it the rounding wraps, or the
array is shorter than the page count (`shm_create_cut`), unless nothing at all is left of its size, so that `kmalloc`
fails.
-/

namespace Mos.Shm

open Vm (pageSize)
open Kmalloc (Arch)

def enomem : Int := -12

def enospc : Int := -28

def newPageCount (a : Arch) (size : Nat) : Nat :=
  let pageCount := (size + pageSize - 1) % 2 ^ a.bits / pageSize
  if pageCount = 0 then 1 else pageCount

/-- What a new segment records, and the bytes of its page array that are allocated and cleared. -/
structure Sizes where
  size : Nat
  pageCount : Nat
  room : Nat
  cleared : Nat

/-- `mos_shm_create`; `alloc` if the heap has memory, `slot` if there is a free segment. -/
def mosShmCreate (a : Arch) (size : Nat) (alloc slot : Bool) : Except Int Sizes :=
  let pageCount := newPageCount a size
  let bytes := a.ptrSize * pageCount % 2 ^ a.bits
  -- `kmalloc` of no bytes is null
  if bytes % 2 ^ 32 = 0 ∨ !alloc then .error enomem
  else if !slot then .error enospc
  else
    let rounded := (size + pageSize - 1) % 2 ^ a.bits / pageSize * pageSize
    .ok ⟨if rounded = 0 then pageSize else rounded, pageCount, bytes % 2 ^ 32, bytes % 2 ^ 32⟩

/-- The entries that `mos_shm_release_pages` and `mos_shm_map_pages` visit. -/
def Sizes.visited (z : Sizes) : List Nat := List.range z.pageCount ++ List.range (z.size / pageSize)

def createLimit : Arch → Nat
  | .i386 => 2 ^ 32 - 4096
  | .x64 => 2 ^ 41 - 4096

/-- The sizes for which the page array has the right length, or none: on x86-64 also those above the limit whose page
count is a multiple of `2 ^ 29`. -/
def CreateFits (a : Arch) (size : Nat) : Prop :=
  size ≤ createLimit a ∨ a = .x64 ∧ size ≤ 2 ^ 64 - 4096 ∧ (size + 4095) / 4096 % 2 ^ 29 = 0

/-- The segment has the requested size, and its page array an entry for each page that is visited. -/
structure Sizes.Holds (a : Arch) (size : Nat) (z : Sizes) : Prop where
  size_le : size ≤ z.size
  pages : z.pageCount * pageSize = z.size
  room : z.room = a.ptrSize * z.pageCount
  cleared : z.cleared = z.room
  visited : ∀ i ∈ z.visited, a.ptrSize * (i + 1) ≤ z.room

variable {a : Arch} {size : Nat}

private theorem rounding_lt (h : size ≤ createLimit a) : size + pageSize - 1 < 2 ^ a.bits := by
  cases a <;> simp only [createLimit, Arch.bits, pageSize] at h ⊢ <;> omega

private theorem newPageCount_eq (h : size ≤ createLimit a) :
    newPageCount a size = max 1 ((size + pageSize - 1) / pageSize) := by
  rw [newPageCount, Nat.mod_eq_of_lt (rounding_lt h)]
  generalize (size + pageSize - 1) / pageSize = n
  split_ifs <;> omega

theorem arrayBytes_lt (h : size ≤ createLimit a) :
    a.ptrSize * newPageCount a size < 2 ^ 32 ∧ a.ptrSize * newPageCount a size < 2 ^ a.bits := by
  rw [newPageCount_eq h]
  cases a <;> simp only [createLimit, Arch.ptrSize, Arch.bits, pageSize] at h ⊢ <;> omega

theorem holds_of_le {alloc slot : Bool} {z : Sizes} (hs : size ≤ createLimit a)
    (h : mosShmCreate a size alloc slot = .ok z) : z.Holds a size := by
  obtain ⟨hb, hb'⟩ := arrayBytes_lt hs
  have hcount := newPageCount_eq hs
  simp only [mosShmCreate, Nat.mod_eq_of_lt hb', Nat.mod_eq_of_lt hb, Nat.mod_eq_of_lt (rounding_lt hs)] at h
  have hz : z.pageCount = newPageCount a size ∧ z.room = a.ptrSize * z.pageCount ∧ z.cleared = z.room ∧
      z.size = newPageCount a size * pageSize := by
    split_ifs at h with h1 h2 h3 <;> cases h <;> refine ⟨rfl, rfl, rfl, ?_⟩ <;>
      simp only [pageSize] at h3 hcount ⊢ <;> omega
  obtain ⟨hp, hroom, hclear, hsize⟩ := hz
  refine ⟨?_, by rw [hp, hsize], hroom, hclear, fun i hi => ?_⟩
  · simp only [pageSize] at hsize hcount
    omega
  · have hdiv : z.size / pageSize = z.pageCount := by rw [hsize, hp, Nat.mul_div_cancel _ (by decide)]
    simp only [Sizes.visited, hdiv, List.mem_append, or_self, List.mem_range] at hi
    rw [hroom]
    exact Nat.mul_le_mul_left _ hi

/-- The rounding wraps to no page, and one is allocated. -/
theorem create_of_wrap (hsize : size < 2 ^ a.bits) (h : 2 ^ a.bits - 4096 < size) :
    mosShmCreate a size true true = .ok ⟨pageSize, 1, a.ptrSize, a.ptrSize⟩ := by
  have hround : (size + pageSize - 1) % 2 ^ a.bits / pageSize = 0 := by
    cases a <;> simp only [Arch.bits, pageSize] at hsize h ⊢ <;> omega
  unfold mosShmCreate newPageCount
  rw [hround]
  cases a <;> rfl

/-- Above the limit the size of the array is cut off. -/
theorem create_of_cut (h : 2 ^ 41 - 4096 < size) (hle : size ≤ 2 ^ 64 - 4096) :
    (∀ alloc slot, (size + 4095) / 4096 % 2 ^ 29 = 0 → mosShmCreate .x64 size alloc slot = .error enomem) ∧
    ((size + 4095) / 4096 % 2 ^ 29 ≠ 0 → ∃ z, mosShmCreate .x64 size true true = .ok z ∧
    z.room < 8 * z.pageCount) := by
  have hround : (size + pageSize - 1) % 2 ^ Arch.x64.bits / pageSize = (size + 4095) / 4096 := by
    simp only [Arch.bits, pageSize]
    omega
  have hcount : newPageCount .x64 size = (size + 4095) / 4096 := by
    unfold newPageCount
    rw [hround]
    exact if_neg (by omega)
  have hbytes : Arch.x64.ptrSize * newPageCount .x64 size % 2 ^ Arch.x64.bits % 2 ^ 32 =
      8 * ((size + 4095) / 4096 % 2 ^ 29) := by
    rw [hcount]
    simp only [Arch.ptrSize, Arch.bits]
    omega
  refine ⟨fun alloc slot h0 => ?_, fun h0 => ?_⟩
  · exact if_pos (.inl (by rw [hbytes, h0]))
  · have hok : ¬(Arch.x64.ptrSize * newPageCount .x64 size % 2 ^ Arch.x64.bits % 2 ^ 32 = 0 ∨ (!true) = true) := by
      rw [hbytes]
      simpa using h0
    refine ⟨_, if_neg hok, ?_⟩
    show Arch.x64.ptrSize * newPageCount .x64 size % 2 ^ Arch.x64.bits % 2 ^ 32 < 8 * newPageCount .x64 size
    rw [hbytes, hcount]
    omega

end Mos.Shm
