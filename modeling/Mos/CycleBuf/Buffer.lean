import Mos.Lib.Ring
import Mos.Lib.Word

/-!
# The cycle buffer

The byte ring of `src/lib/impl/cyclebuf.c` behind pipes, terminals and keyboards, and its critical sections: each
function below is what one holder of `b->lock` does.  The three indices are redundant; `RingOk` says how they agree,
and `stored` is the byte sequence they describe.  A critical section appends to that sequence (`cybCopyIn_stored`) or
removes a front part of it (`cybCopyOut_stored`).
-/

namespace Mos.CycleBuf

open Lib List

/-- `struct _cy_buf`, without its locks and poll subscriptions.  The two events are the lock words of their `cond_t`:
`0` when the event has fired. -/
structure CyBuf where
  length : Nat
  writeIdx : Nat
  readIdx : Nat
  readEvent : Nat
  writeEvent : Nat
  writerCount : Int
  readerCount : Int
  buf : Nat → UInt8
  bufSize : Nat

def pageSize : Nat := 4096

def defaultBufPages : Int := 1

/-- `vm_alloc` serves blocks of at most `2 ^ MAX_BUDDY_ORDER` pages. -/
def maxVmPages : Int := 2 ^ 10

/-- The body shared by `cyb_create` and `cyb_create_named`; `none` when `vm_alloc` has no memory to give
(the source then keeps the null pointer, and the first copy faults). -/
def cybCreateWith (count : Int) (pages : Int) (vmHasMemory : Bool) (garbage : Nat → UInt8) : Option CyBuf :=
  let pages := if pages = 0 then defaultBufPages else pages
  if 0 < pages ∧ pages ≤ maxVmPages ∧ vmHasMemory then
    some { length := 0, writeIdx := 0, readIdx := 0, readEvent := 1, writeEvent := 0, writerCount := count,
           readerCount := count, buf := garbage, bufSize := pages.toNat * pageSize }
  else none

def cybCreate : Int → Bool → (Nat → UInt8) → Option CyBuf := cybCreateWith 1

def cybCreateNamed : Int → Bool → (Nat → UInt8) → Option CyBuf := cybCreateWith 0

/-- The buffer of `pipe_open`, in zeroed memory. -/
def pipeBuf : CyBuf := (cybCreate 16 true fun _ => 0).get rfl

def cybCopyIn (b : CyBuf) (src : List UInt8) : CyBuf :=
  let len := src.length
  let first := subW 32 b.bufSize b.writeIdx
  let first := if first > len then len else first
  let buf := blit b.buf b.writeIdx (src.take first)
  let buf := if first < len then blit buf 0 (src.drop first) else buf
  let w := addW 32 b.writeIdx len
  let w := if w ≥ b.bufSize then subW 32 w b.bufSize else w
  { b with buf := buf, writeIdx := w, length := addW 32 b.length len }

def cybCopyOut (b : CyBuf) (len : Nat) : List UInt8 × CyBuf :=
  let first := subW 32 b.bufSize b.readIdx
  let first := if first > len then len else first
  let dst := slice b.buf b.readIdx first
  let dst := if first < len then dst ++ slice b.buf 0 (len - first) else dst
  let r := addW 32 b.readIdx len
  let r := if r ≥ b.bufSize then subW 32 r b.bufSize else r
  (dst, { b with readIdx := r, length := subW 32 b.length len })

/-- The number of bytes one round of `cyb_putbuf` can take. -/
def putCount (b : CyBuf) (data : List UInt8) (written : Nat) : Nat :=
  let i := subW 32 b.bufSize b.length
  if i > data.length - written then data.length - written else i

/-- Re-arm `write_event` when the buffer is full. -/
def resetIfFull (b : CyBuf) : CyBuf := if b.length = b.bufSize then { b with writeEvent := 1 } else b

/-- The critical section of one round of `cyb_putbuf`. -/
def putLocked (b : CyBuf) (data : List UInt8) (written : Nat) : CyBuf :=
  let i := putCount b data written
  resetIfFull (if i ≠ 0 then cybCopyIn b ((data.drop written).take i) else b)

/-- The critical section of an accepted `cyb_put_record`. -/
def recordLocked (b : CyBuf) (data : List UInt8) : CyBuf := resetIfFull (cybCopyIn b data)

/-- The number of bytes an unblocked `cyb_getbuf` takes. -/
def getCount (b : CyBuf) (len : Nat) : Nat := if b.length < len then b.length else len

/-- The draining part of `cyb_getbuf`, entered with the lock held and `length > 0`. -/
def getLocked (b : CyBuf) (len : Nat) : List UInt8 × CyBuf :=
  let out := cybCopyOut b (getCount b len)
  (out.1, if out.2.length = 0 then { out.2 with readEvent := 1 } else out.2)

/-- The critical section of `cyb_flush`. -/
def flushLocked (b : CyBuf) : CyBuf := { b with readIdx := b.writeIdx, length := 0, readEvent := 1 }

/-! ### The stored bytes -/

/-- The bytes in the buffer, oldest first. -/
def stored (b : CyBuf) : List UInt8 := window b.buf b.bufSize b.readIdx b.length

structure RingOk (b : CyBuf) : Prop where
  size_pos : 0 < b.bufSize
  size_le : b.bufSize ≤ 2 ^ 31
  length_le : b.length ≤ b.bufSize
  read_lt : b.readIdx < b.bufSize
  write_lt : b.writeIdx < b.bufSize
  write_eq : b.writeIdx = (b.readIdx + b.length) % b.bufSize

/-- Two buffers with the same ring; the events and the open counts may differ. -/
structure SameRing (b b' : CyBuf) : Prop where
  length : b'.length = b.length
  writeIdx : b'.writeIdx = b.writeIdx
  readIdx : b'.readIdx = b.readIdx
  buf : b'.buf = b.buf
  bufSize : b'.bufSize = b.bufSize

variable {b b' : CyBuf} {idx n : Nat} {src data : List UInt8}

theorem SameRing.stored_eq (h : SameRing b b') : stored b' = stored b := by
  simp only [stored, h.length, h.readIdx, h.buf, h.bufSize]

theorem SameRing.ringOk (h : SameRing b b') (hb : RingOk b) : RingOk b' := by
  obtain ⟨h1, h2, h3, h4, h5, h6⟩ := hb
  constructor <;> simp only [h.length, h.writeIdx, h.readIdx, h.bufSize] <;> assumption

theorem SameRing.resetIfFull (b : CyBuf) : SameRing b (resetIfFull b) := by
  unfold CycleBuf.resetIfFull
  split <;> constructor <;> rfl

theorem cybCreateWith_ok {count pages : Int} {mem : Bool} {garbage : Nat → UInt8}
    (h : cybCreateWith count pages mem garbage = some b) : RingOk b ∧ stored b = [] := by
  unfold cybCreateWith at h
  simp only at h
  generalize (if pages = 0 then defaultBufPages else pages) = n at h
  split_ifs at h with hn
  cases h
  have hn2 : n ≤ 1024 := hn.2.1
  have h4 : 0 < n.toNat * pageSize := Nat.mul_pos (by omega) (by decide)
  have h5 : n.toNat * pageSize ≤ 1024 * pageSize := Nat.mul_le_mul_right _ (by omega)
  have h6 : 1024 * pageSize ≤ 2 ^ 31 := by decide
  refine ⟨⟨h4, h5.trans h6, Nat.zero_le _, h4, h4, ?_⟩, rfl⟩
  simp

section Sections

variable {b : CyBuf} (hb : RingOk b)

include hb

private theorem index_wrap {len : Nat} (hi : idx < b.bufSize) (hl : len ≤ b.bufSize) :
    (if addW 32 idx len ≥ b.bufSize then subW 32 (addW 32 idx len) b.bufSize else addW 32 idx len) =
      (idx + len) % b.bufSize := by
  have hs := hb.size_le
  rw [addW_eq (by omega), add_mod_wrap hi hl]
  split
  · rw [if_neg (by omega), subW_eq (by omega) (by omega)]
  · rw [if_pos (by omega)]

private theorem first_eq (hi : idx < b.bufSize) (len : Nat) :
    (if subW 32 b.bufSize idx > len then len else subW 32 b.bufSize idx) = min (b.bufSize - idx) len := by
  have hs := hb.size_le
  rw [subW_eq (by omega) (by omega)]
  split <;> omega

private theorem cybCopyIn_buf : (cybCopyIn b src).buf = blitWrap b.buf b.bufSize b.writeIdx src := by
  simp only [cybCopyIn, first_eq hb hb.write_lt, blitWrap]
  by_cases h : b.bufSize - b.writeIdx < src.length
  · rw [Nat.min_eq_left (by omega), if_pos h]
  · rw [Nat.min_eq_right (by omega), if_neg (by omega), take_of_length_le le_rfl,
      take_of_length_le (by omega), drop_of_length_le (by omega), blit_nil]

private theorem cybCopyIn_ok (h : b.length + src.length ≤ b.bufSize) : RingOk (cybCopyIn b src) := by
  obtain ⟨h1, h2, h3, h4, h5, h6⟩ := hb
  have hw : (cybCopyIn b src).writeIdx = (b.writeIdx + src.length) % b.bufSize :=
    index_wrap ⟨h1, h2, h3, h4, h5, h6⟩ h5 (by omega)
  have hl : (cybCopyIn b src).length = b.length + src.length := addW_eq (by omega)
  refine ⟨h1, h2, by rw [hl]; exact h, h4, by rw [hw]; exact Nat.mod_lt _ h1, ?_⟩
  rw [hw, hl, h6]
  change _ = (b.readIdx + (b.length + src.length)) % b.bufSize
  rw [Nat.mod_add_mod, Nat.add_assoc]

private theorem cybCopyIn_stored (h : b.length + src.length ≤ b.bufSize) :
    stored (cybCopyIn b src) = stored b ++ src := by
  have hl : (cybCopyIn b src).length = b.length + src.length := addW_eq (by have := hb.size_le; omega)
  have e : stored (cybCopyIn b src) =
      window (blitWrap b.buf b.bufSize b.writeIdx src) b.bufSize b.readIdx (b.length + src.length) := by
    rw [← cybCopyIn_buf hb, ← hl]
    rfl
  rw [e, hb.write_eq, window_blitWrap_append hb.read_lt h]
  rfl

private theorem cybCopyOut_fst (h : n ≤ b.length) : (cybCopyOut b n).1 = (stored b).take n := by
  have hl := hb.length_le
  rw [stored, take_window _ _ _ h, window_eq_slices _ hb.read_lt (by omega)]
  simp only [cybCopyOut, first_eq hb hb.read_lt]
  by_cases h' : b.bufSize - b.readIdx < n
  · rw [Nat.min_eq_left (by omega), if_pos h']
  · rw [Nat.min_eq_right (by omega), if_neg (by omega), Nat.sub_self]
    simp [slice]

private theorem cybCopyOut_ok (h : n ≤ b.length) : RingOk (cybCopyOut b n).2 := by
  obtain ⟨h1, h2, h3, h4, h5, h6⟩ := hb
  have hr : (cybCopyOut b n).2.readIdx = (b.readIdx + n) % b.bufSize :=
    index_wrap ⟨h1, h2, h3, h4, h5, h6⟩ h4 (by omega)
  have hl : (cybCopyOut b n).2.length = b.length - n := subW_eq h (by omega)
  refine ⟨h1, h2, ?_, by rw [hr]; exact Nat.mod_lt _ h1, h5, ?_⟩
  · rw [hl]
    exact (Nat.sub_le _ _).trans h3
  · rw [hr, hl]
    change b.writeIdx = ((b.readIdx + n) % b.bufSize + (b.length - n)) % b.bufSize
    rw [Nat.mod_add_mod, h6]
    congr 1; omega

private theorem cybCopyOut_stored (h : n ≤ b.length) : stored (cybCopyOut b n).2 = (stored b).drop n := by
  have hl' := hb.length_le
  have hs := hb.size_le
  have hr : (cybCopyOut b n).2.readIdx = (b.readIdx + n) % b.bufSize := index_wrap hb hb.read_lt (by omega)
  have hl : (cybCopyOut b n).2.length = b.length - n := subW_eq h (by omega)
  rw [stored, stored, drop_window _ _ _ h, hr, hl]
  rfl

theorem putCount_eq {written : Nat} : putCount b data written = min (b.bufSize - b.length)
    (data.length - written) := by
  have hs := hb.size_le
  have hl := hb.length_le
  unfold putCount
  simp only [subW_eq hl (show b.bufSize < 2 ^ 32 by omega)]
  split <;> omega

theorem putLocked_spec (data : List UInt8) (written : Nat) : RingOk (putLocked b data written) ∧
      stored (putLocked b data written) = stored b ++ (data.drop written).take (putCount b data written) := by
  have hl := hb.length_le
  have hsame := SameRing.resetIfFull
    (if putCount b data written ≠ 0 then cybCopyIn b ((data.drop written).take (putCount b data written)) else b)
  have hlen : b.length + ((data.drop written).take (putCount b data written)).length ≤ b.bufSize := by
    rw [length_take, putCount_eq hb]
    omega
  unfold putLocked
  split_ifs at hsame with h
  · simp only [h, if_true, ne_eq, not_false_eq_true] at hsame ⊢
    exact ⟨hsame.ringOk (cybCopyIn_ok hb hlen), by rw [hsame.stored_eq, cybCopyIn_stored hb hlen]⟩
  · simp only [ne_eq, not_not] at h
    simp only [h, ne_eq, not_true_eq_false, if_false, take_zero, append_nil] at hsame ⊢
    exact ⟨hsame.ringOk hb, hsame.stored_eq⟩

theorem recordLocked_spec (h : ¬data.length > subW 32 b.bufSize b.length) :
    RingOk (recordLocked b data) ∧ stored (recordLocked b data) = stored b ++ data := by
  have hs := hb.size_le
  have hl := hb.length_le
  rw [subW_eq hl (by omega)] at h
  have hsame := SameRing.resetIfFull (cybCopyIn b data)
  exact ⟨hsame.ringOk (cybCopyIn_ok hb (by omega)), by
    rw [recordLocked, hsame.stored_eq, cybCopyIn_stored hb (by omega)]⟩

omit hb in
theorem getCount_le (b : CyBuf) (len : Nat) : getCount b len ≤ b.length := by
  unfold getCount
  split <;> omega

theorem getLocked_spec (len : Nat) :
    RingOk (getLocked b len).2 ∧ (getLocked b len).1 ++ stored (getLocked b len).2 = stored b := by
  have hn := getCount_le b len
  have hsame : SameRing (cybCopyOut b (getCount b len)).2 (getLocked b len).2 := by
    unfold getLocked
    simp only
    split <;> constructor <;> rfl
  refine ⟨hsame.ringOk (cybCopyOut_ok hb hn), ?_⟩
  rw [hsame.stored_eq, cybCopyOut_stored hb hn]
  change (cybCopyOut b (getCount b len)).1 ++ _ = _
  rw [cybCopyOut_fst hb hn, take_append_drop]

omit hb in
theorem length_stored (b : CyBuf) : (stored b).length = b.length := length_window _ _ _ _

theorem putLocked_length (data : List UInt8) (written : Nat) :
    (putLocked b data written).length = b.length + putCount b data written := by
  have hs := congrArg List.length (putLocked_spec hb data written).2
  rw [length_append, length_stored, length_stored, length_take, length_drop, putCount_eq hb] at hs
  rw [hs, putCount_eq hb]
  omega

theorem getLocked_length (len : Nat) : (getLocked b len).2.length = b.length - getCount b len := by
  have hn := getCount_le b len
  have hl := hb.length_le
  have hs := hb.size_le
  have hout : (cybCopyOut b (getCount b len)).2.length = b.length - getCount b len := subW_eq hn (by omega)
  rw [← hout]
  unfold getLocked
  simp only
  split <;> rfl

omit hb in
/-- A put leaves `read_event` and the open counts alone and re-arms `write_event` when it fills the buffer. -/
theorem putLocked_rest (b : CyBuf) (data : List UInt8) (written : Nat) :
    let b' := putLocked b data written
    b'.bufSize = b.bufSize ∧ b'.readEvent = b.readEvent ∧ b'.writerCount = b.writerCount ∧
      b'.readerCount = b.readerCount ∧ (b'.writeEvent = b.writeEvent ∨ b'.writeEvent = 1) := by
  unfold putLocked resetIfFull
  simp only
  split_ifs <;> exact ⟨rfl, rfl, rfl, rfl, by first | exact .inr rfl | exact .inl rfl⟩

omit hb in
/-- A drain leaves `write_event` and the open counts alone and re-arms `read_event` when it empties the buffer. -/
theorem getLocked_rest (b : CyBuf) (len : Nat) :
    (getLocked b len).2.bufSize = b.bufSize ∧ (getLocked b len).2.writeEvent = b.writeEvent ∧
      (getLocked b len).2.writerCount = b.writerCount ∧ (getLocked b len).2.readerCount = b.readerCount ∧
      ((getLocked b len).2.readEvent = b.readEvent ∨ (getLocked b len).2.readEvent = 1) := by
  unfold getLocked
  simp only
  split_ifs <;> exact ⟨rfl, rfl, rfl, rfl, by first | exact .inr rfl | exact .inl rfl⟩

theorem flushLocked_spec : RingOk (flushLocked b) ∧ stored (flushLocked b) = [] := by
  obtain ⟨h1, h2, h3, h4, h5, h6⟩ := hb
  refine ⟨⟨h1, h2, Nat.zero_le _, h5, h5, ?_⟩, rfl⟩
  exact (Nat.mod_eq_of_lt h5).symm

end Sections

end Mos.CycleBuf
