import Mos.Lib.Word

/-!
# The argument vectors of a new image

`dup_strv` and `dup_script_argv` of `src/elf/impl/exec.c` measure the strings of a vector, allocate one block for the
pointers and the strings, and copy them, while other threads may rewrite the memory of the caller.  What the reads of
it return is a parameter.  `dup_strv` writes the terminators itself; `dup_script_argv` takes what it reads, so that
its last string may run out of the block (`script_unterminated`).
-/

namespace Mos.Exec

open Lib List

/-- The reads of one string: the results of `strlen` in the two passes, and the bytes that `memcpy` finds. -/
structure Reads where
  first : Nat
  second : Nat
  byte : Nat → UInt8

/-- The block of `size` bytes: `base` bytes for the pointers, of which `ptrs` are stored, as offsets, and the
strings. -/
structure Arena where
  size : Nat
  base : Nat
  ptrs : List Nat
  text : List UInt8

namespace Arena

variable (a : Arena)

def top : Nat := a.base + a.text.length

def put (s : List UInt8) : Arena := { a with ptrs := a.ptrs ++ [a.top], text := a.text ++ s }

/-- What is written lies in the block, with room for `n` pointers of `ptr` bytes and `len` bytes of strings. -/
structure Inside (ptr n len : Nat) : Prop where
  size : a.size < 2 ^ 32
  ptrs : (a.ptrs.length + n) * ptr ≤ a.base
  text : a.top + len ≤ a.size

/-- Every string ends with a byte of the block. -/
def Terminated : Prop := ∀ p ∈ a.ptrs, ∃ k, p ≤ a.base + k ∧ a.text[k]? = some 0

end Arena

def measure (bytes : Nat) : List Nat → Option Nat
  | [] => some bytes
  | len :: lens => if len > 2 ^ 32 - 1 - bytes then none else measure (addW 32 bytes len) lens

/-- The second pass; a block in which a string does not fit is freed, and the call fails. -/
def copy (a : Arena) : List (List UInt8) → Arena × Bool
  | [] => (a, true)
  | s :: rest => if s.length > subW 32 a.size a.top then (a, false) else copy (a.put s) rest

/-- Both passes; `heads` are copied without a check.  `room` tells if `kmalloc` succeeds. -/
def build (argc ptr : Nat) (lens : List Nat) (heads rest : List (List UInt8)) (room : Bool) : Option (Arena × Bool) :=
  (measure (argc * ptr) lens).bind fun bytes =>
    if room then some (copy (heads.foldl Arena.put ⟨bytes, argc * ptr, [], []⟩) rest) else none

def dupStrv (ptr : Nat) (v : List Reads) (room : Bool) : Option (Arena × Bool) :=
  if v.length = 0 ∨ v.length > (2 ^ 32 - 1) / ptr then none
  else build v.length ptr (v.map (·.first + 1)) [] (v.map fun r =>
    -- the lengths of up to 32 strings are kept
    let len := if v.length ≤ 32 then r.first + 1 else r.second + 1
    ((range len).map r.byte).set (len - 1) 0) room

/-- The strings before the arguments are the kernel's own. -/
def dupScriptArgv (ptr : Nat) (interp : List UInt8) (interpArg : Option (List UInt8)) (script : List UInt8)
    (argv : List Reads) (room : Bool) : Option (Arena × Bool) :=
  let heads := (interp :: (interpArg.toList ++ [script])).map (· ++ [0])
  let argc := addW 32 heads.length argv.tail.length
  if argc < argv.tail.length ∨ argc > (2 ^ 32 - 1) / ptr then none
  else build argc ptr (heads.map length ++ argv.tail.map (·.first + 1)) heads
    (argv.tail.map fun r => (range (r.second + 1)).map r.byte) room

variable {a : Arena} {ptr n len : Nat} {s : List UInt8} {l : List (List UInt8)}

private theorem measure_spec {lens : List Nat} {bytes b : Nat} (hb : bytes < 2 ^ 32)
    (h : measure bytes lens = some b) : b = bytes + lens.sum ∧ b < 2 ^ 32 := by
  induction lens generalizing bytes with
  | nil =>
    cases h
    exact ⟨rfl, hb⟩
  | cons len lens ih =>
    rw [measure] at h
    split at h
    · cases h
    have hlt : bytes + len < 2 ^ 32 := by omega
    rw [addW_eq hlt] at h
    have hrest := ih hlt h
    rw [sum_cons]
    omega

theorem Arena.Inside.put (h : a.Inside ptr (n + 1) (s.length + len)) : (a.put s).Inside ptr n len := by
  refine ⟨h.size, ?_, ?_⟩
  · simpa [Arena.put, Nat.add_assoc, Nat.add_comm 1] using h.ptrs
  · simpa [Arena.put, Arena.top, Nat.add_assoc] using h.text

private theorem foldl_put (h : a.Inside ptr (l.length + n) ((l.map length).sum + len)) :
    (l.foldl Arena.put a).Inside ptr n len := by
  induction l generalizing a with
  | nil => simpa using h
  | cons s l ih =>
    refine ih (.put ?_)
    simpa [Nat.add_assoc, Nat.add_comm, Nat.add_left_comm] using h

private theorem copy_inside (h : a.Inside ptr l.length 0) : (copy a l).1.Inside ptr 0 0 := by
  induction l generalizing a with
  | nil => exact h
  | cons s l ih =>
    rw [copy]
    split
    · exact { h with ptrs := (Nat.mul_le_mul_right _ (Nat.le_add_right _ _)).trans h.ptrs }
    · rename_i hfit
      have htext : a.top ≤ a.size := h.text
      rw [subW_eq htext h.size] at hfit
      exact ih (.put { h with text := by omega })

private theorem copy_eq_foldl (h : (copy a l).2 = true) : (copy a l).1 = l.foldl Arena.put a := by
  induction l generalizing a with
  | nil => rfl
  | cons s l ih =>
    rw [copy] at h ⊢
    split at h
    · cases h
    · rename_i hfit
      rw [if_neg hfit]
      exact ih h

/-- The strings before the last one end at the latest where it ends. -/
theorem Arena.terminated_put (h : ∀ p ∈ a.ptrs, p ≤ a.top) : (a.put s).Terminated ↔ 0 ∈ s := by
  constructor
  · intro ht
    obtain ⟨k, hk, hz⟩ := ht a.top (by simp [Arena.put])
    have hle : a.text.length ≤ k := by
      simp only [Arena.put, top] at hk
      omega
    rw [Arena.put, getElem?_append_right hle] at hz
    exact mem_of_getElem? hz
  · intro hs p hp
    obtain ⟨j, hj⟩ := mem_iff_getElem?.mp hs
    have hle : p ≤ a.top := by
      rcases mem_append.1 hp with hp | hp
      · exact h p hp
      · exact (mem_singleton.1 hp).le
    refine ⟨a.text.length + j, hle.trans (by simp [top, Arena.put]), ?_⟩
    rw [Arena.put, getElem?_append_right (by omega), Nat.add_sub_cancel_left, hj]

private theorem le_top_foldl (h : ∀ p ∈ a.ptrs, p ≤ a.top) :
    ∀ p ∈ (l.foldl Arena.put a).ptrs, p ≤ (l.foldl Arena.put a).top := by
  refine foldlRecOn (motive := fun a : Arena => ∀ p ∈ a.ptrs, p ≤ a.top) l _ h fun a ha s _ p hp => ?_
  have htop : a.top ≤ (a.put s).top := by simp [Arena.put, Arena.top]
  rcases mem_append.1 hp with hp | hp
  · exact (ha p hp).trans htop
  · exact (mem_singleton.1 hp).le.trans htop

theorem terminated_foldl (h : ∀ p ∈ a.ptrs, p ≤ a.top) : ((l ++ [s]).foldl Arena.put a).Terminated ↔ 0 ∈ s := by
  rw [foldl_append]
  exact Arena.terminated_put (le_top_foldl h)

theorem build_spec {argc : Nat} {lens : List Nat} {heads rest : List (List UInt8)} {room : Bool} {r : Arena × Bool}
    (h : build argc ptr lens heads rest room = some r) (hargc : ¬argc > (2 ^ 32 - 1) / ptr)
    (hn : heads.length + rest.length = argc) (hlens : (heads.map length).sum ≤ lens.sum) :
    r.1.Inside ptr 0 0 ∧ (r.2 = true → ∃ a, a.ptrs = [] ∧ r.1 = (heads ++ rest).foldl Arena.put a) := by
  obtain ⟨bytes, hm, hr⟩ := Option.bind_eq_some_iff.1 h
  have h1 := Nat.mul_le_mul_right ptr (not_lt.1 hargc)
  have h2 := Nat.div_mul_le_self (2 ^ 32 - 1) ptr
  obtain ⟨hsum, hlt⟩ := measure_spec (by omega) hm
  have h0 : (⟨bytes, argc * ptr, [], []⟩ : Arena).Inside ptr (heads.length + rest.length)
    ((heads.map length).sum + 0) :=
    ⟨hlt, by simp [hn], by simp [Arena.top]; omega⟩
  cases room with
  | false => cases hr
  | true =>
    cases hr
    refine ⟨copy_inside (foldl_put h0), fun hok => ⟨⟨bytes, argc * ptr, [], []⟩, rfl, ?_⟩⟩
    rw [foldl_append]
    exact copy_eq_foldl hok

end Mos.Exec
