import Mos.Tmpfs.Content

/-!
# Runs on a tmpfs file

Reads, writes, truncations and allocations on one file, in any order.  A file that is only accessed where offsets fit
into 32 bits and pages can be counted is an array of bytes.  Beyond, the calls do not fail: a position is cut to its
lower 32 bits, and a truncation to one of the last sizes below 4 GiB frees every page.
-/

namespace Mos.Tmpfs

open Lib

/-- A call, with what the kernel finds in it. -/
inductive FileOp
  | write (env : Nat → Env) (pos : Nat) (data : List UInt8)
  | read (env : Nat → Env) (pos len : Nat)
  | truncate (e : Env) (size : Int)
  | fallocate (e : Env) (env : Nat → Env) (keepSize : Bool) (offset length : Nat)

/-- What the system calls pass on. -/
def FileOp.Valid : FileOp → Prop
  | .write _ pos data => pos < 2 ^ 63 ∧ data.length < 2 ^ 32
  | .read _ pos len => pos < 2 ^ 63 ∧ len < 2 ^ 32
  | .truncate _ size => -2 ^ 63 ≤ size ∧ size < 2 ^ 63
  | .fallocate _ _ _ offset length => 0 < length ∧ offset + length < 2 ^ 63

/-- The value returned, the bytes read, and the file. -/
def FileOp.exec (w : Nat) (tn : FileNode) : FileOp → Int × List UInt8 × FileNode
  | .write env pos data => ((tmpfsFileWrite w env tn pos data).1, [], (tmpfsFileWrite w env tn pos data).2.1)
  | .read env pos len => ((tmpfsFileRead w env tn pos len).1, (tmpfsFileRead w env tn pos len).2, tn)
  | .truncate e size => ((tmpfsFileFtruncate e tn size).1, [], (tmpfsFileFtruncate e tn size).2)
  | .fallocate e env keepSize offset length =>
    ((tmpfsFileFallocate e env tn keepSize offset length).1, [],
      (tmpfsFileFallocate e env tn keepSize offset length).2)

/-- The offsets of the call fit into 32 bits and its pages can be counted, or it is refused for its size. -/
def FileOp.Fits (w : Nat) (tn : FileNode) : FileOp → Prop
  | .write _ pos data => data = [] ∨ pos + data.length < 2 ^ 32 ∧ data.length < 2 ^ (w - 1)
  | .read _ pos len => (pos < 2 ^ 32 ∨ tn.size ≤ pos % 2 ^ 32 ∨ len = 0) ∧ len < 2 ^ (w - 1)
  | .truncate _ size => size + pageSize ≤ 2 ^ 32 ∨ size > 0xffffffff
  | .fallocate _ _ keepSize offset length =>
    keepSize = true ∨ offset + length ≤ tn.size ∨ offset + length + pageSize ≤ 2 ^ 32 ∨ offset + length > 0xffffffff

def SameFile (tn tn' : FileNode) : Prop := tn'.size = tn.size ∧ ∀ o, tn'.byte o = tn.byte o

/-- What the call does to an array of bytes that is zero from its size on. -/
def FileOp.Spec (tn : FileNode) : FileOp → Int × List UInt8 × FileNode → Prop
  | .write _ pos data, (r, _, tn') =>
    (0 < r → r ≤ data.length ∧ tn'.size = max tn.size (pos + r.toNat) ∧
      ∀ o, tn'.byte o = if pos ≤ o ∧ o < pos + r.toNat then data.getD (o - pos) 0 else tn.byte o) ∧
    (r ≤ 0 → SameFile tn tn')
  | .read env pos len, (r, out, tn') => tn' = tn ∧ ReadOk env tn pos len (r, out)
  | .truncate e size, (r, _, tn') =>
    (r = 0 → 0 ≤ size ∧ tn'.size = size.toNat ∧ ∀ o, tn'.byte o = if o < size.toNat then tn.byte o else 0) ∧
    (r ≠ 0 → SameFile tn tn') ∧
    (0 ≤ size → size ≤ 0xffffffff → e.zero = true ∧ e.malloc = true ∧ e.copy = true → r = 0)
  | .fallocate _ _ keepSize offset length, (r, _, tn') =>
    (∀ o, tn'.byte o = tn.byte o) ∧
    (r = 0 → tn'.size = if keepSize then tn.size else max tn.size (offset + length)) ∧
    (r ≠ 0 → tn'.size = tn.size ∨ keepSize = false ∧ tn'.size = offset + length) ∧
    (offset + length > 0xffffffff → r ≠ 0 ∧ tn' = tn)

variable {w : Nat} {tn tn' : FileNode} {env : Nat → Env} {e : Env}

structure FileStep (w : Nat) (tn : FileNode) (op : FileOp) (tn' : FileNode) : Prop where
  valid : op.Valid
  result : (op.exec w tn).2.2 = tn'

theorem Clean.congr (h : Clean tn) (hs : tn'.size = tn.size) (hb : ∀ o, tn'.byteAt o = tn.byteAt o) :
    Clean tn' ∧ SameFile tn tn' := by
  have hc : Clean tn' := ⟨by rw [hs]; exact h.size_lt, fun o ho => by rw [hb]; exact h.rest o (by omega)⟩
  refine ⟨hc, hs, fun o => ?_⟩
  rw [hc.byte_eq, h.byte_eq, hb]

open FileOp

private theorem truncate_ok {size : Int} (hc : Clean tn) (hf : (truncate e size).Fits w tn) :
    let r := tmpfsFileFtruncate e tn size
    Clean r.2 ∧ (truncate e size).Spec tn (r.1, [], r.2) := by
  by_cases hneg : size < 0
  · have hres : tmpfsFileFtruncate e tn size = (einval, tn) := if_pos hneg
    rw [hres]
    exact ⟨hc, fun h => absurd h (show ¬(-22 : Int) = 0 by decide), fun _ => ⟨rfl, fun _ => rfl⟩,
      fun h => absurd h (by omega)⟩
  by_cases hbig : size > 0xffffffff
  · have hres : tmpfsFileFtruncate e tn size = (efbig, tn) := by
      unfold tmpfsFileFtruncate
      rw [if_neg hneg, if_pos hbig]
    rw [hres]
    exact ⟨hc, fun h => absurd h (show ¬(-27 : Int) = 0 by decide), fun _ => ⟨rfl, fun _ => rfl⟩,
      fun _ h => absurd h (by omega)⟩
  obtain ⟨n, rfl⟩ := Int.eq_ofNat_of_zero_le (Int.not_lt.1 hneg)
  have hfit : n + pageSize ≤ 2 ^ 32 := by
    rcases hf with hf | hf
    · omega
    · exact absurd hf hbig
  rcases ftruncate_spec hc hfit with ⟨hr, hres⟩ | ⟨hr, hno, hs, hb⟩
  · have hc' := hres.clean (by omega)
    refine ⟨hc', fun _ => ⟨by omega, hres.size, fun o => ?_⟩, fun h => absurd hr h, fun _ _ _ => hr⟩
    rw [hc'.byte_eq, hres.bytes, Int.toNat_natCast]
    split_ifs
    · rw [hc.byte_eq]
    · rfl
  · obtain ⟨hc', hsame⟩ := hc.congr hs hb
    refine ⟨hc', fun h => ?_, fun _ => hsame, fun _ _ h => absurd h hno⟩
    rcases hr with hr | hr <;> exact absurd (hr.symm.trans h) (by decide)

private theorem fallocate_ok {keepSize : Bool} {offset length : Nat} (hc : Clean tn)
    (hv : (fallocate e env keepSize offset length).Valid)
    (hf : (fallocate e env keepSize offset length).Fits w tn) :
    let r := tmpfsFileFallocate e env tn keepSize offset length
    Clean r.2 ∧ (fallocate e env keepSize offset length).Spec tn (r.1, [], r.2) := by
  obtain ⟨hpos, hlt⟩ := hv
  have hstop : addW 64 offset length = offset + length := addW_eq (by omega)
  unfold tmpfsFileFallocate
  simp only [hstop]
  by_cases hbig : offset + length > 0xffffffff
  · rw [if_pos hbig]
    exact ⟨hc, fun _ => rfl, fun h => absurd h (show ¬(-27 : Int) = 0 by decide), fun _ => .inl rfl,
      fun _ => ⟨show (-27 : Int) ≠ 0 by decide, rfl⟩⟩
  rw [if_neg hbig]
  generalize List.range' (offset / pageSize) ((offset + length - 1) / pageSize + 1 - offset / pageSize) = pages
  by_cases hgrow : ¬keepSize = true ∧ offset + length > tn.size
  · rw [if_pos hgrow]
    have hfit : offset + length + pageSize ≤ 2 ^ 32 := by
      rcases hf with h | h | h | h
      · exact absurd h hgrow.1
      · omega
      · exact h
      · exact absurd h hbig
    have hkeep : keepSize = false := by simpa using hgrow.1
    rcases ftruncate_spec hc hfit with ⟨hr, hres⟩ | ⟨hr, hno, hs, hb⟩
    · -- the file has grown; the pages change no byte
      generalize tmpfsFileFtruncate e tn (offset + length : Nat) = r at hr hres
      obtain ⟨code, tn1⟩ := r
      subst hr
      have hc1 := hres.clean (by omega)
      obtain ⟨hs2, hb2⟩ := allocLoop_spec env pages tn1
      obtain ⟨hc2, -, hsame⟩ := hc1.congr hs2 hb2
      have hbytes : ∀ o, tn1.byte o = tn.byte o := by
        intro o
        rw [hc1.byte_eq, hres.bytes, hc.byte_eq]
        split_ifs with ho
        · rfl
        · exact (hc.rest o (by omega)).symm
      refine ⟨hc2, fun o => (hsame o).trans (hbytes o), fun _ => ?_, fun _ => .inr ⟨hkeep, hs2.trans hres.size⟩,
        fun h => absurd h hbig⟩
      rw [hkeep]
      have := hs2.trans hres.size
      simp
      omega
    · generalize tmpfsFileFtruncate e tn (offset + length : Nat) = r at hr hs hb
      obtain ⟨code, tn1⟩ := r
      obtain ⟨hc1, -, hsame⟩ := hc.congr hs hb
      have hne : code ≠ 0 := by
        rcases hr with rfl | rfl
        · exact show (-5 : Int) ≠ 0 by decide
        · exact show (-12 : Int) ≠ 0 by decide
      have hspec : Clean (code, tn1).2 ∧ (fallocate e env keepSize offset length).Spec tn (code, [], tn1) :=
        ⟨hc1, hsame, fun h => absurd h hne, fun _ => .inl hs, fun h => absurd h hbig⟩
      rcases hr with rfl | rfl
      · exact hspec
      · exact hspec
  · rw [if_neg hgrow]
    obtain ⟨hs, hb⟩ := allocLoop_spec env pages tn
    obtain ⟨hc1, -, hsame⟩ := hc.congr hs hb
    refine ⟨hc1, hsame, fun _ => ?_, fun _ => .inl hs, fun h => absurd h hbig⟩
    cases keepSize with
    | true => exact hs
    | false =>
      have hle : offset + length ≤ tn.size := by simpa using hgrow
      simp
      omega

private theorem write_ok {pos : Nat} {data : List UInt8} (hc : Clean tn) (hf : (write env pos data).Fits w tn) :
    let r := tmpfsFileWrite w env tn pos data
    Clean r.2.1 ∧ (write env pos data).Spec tn (r.1, [], r.2.1) := by
  rcases hf with rfl | ⟨hfit, hw⟩
  · exact ⟨hc, fun h => absurd h (Int.lt_irrefl 0), fun _ => ⟨rfl, fun _ => rfl⟩⟩
  obtain ⟨n, hn, hwr, hr, hr0, -⟩ := write_spec env hc hfit hw
  have hlen : (data.take n).length = n := by simp [hn]
  have hc' := hwr.clean hc (by omega)
  refine ⟨hc', fun hpos => ?_, fun hle => ?_⟩
  · have hnat : (tmpfsFileWrite w env tn pos data).1.toNat = n := by omega
    have hne : data.take n ≠ [] := List.ne_nil_of_length_pos (by omega)
    refine ⟨by omega, ?_, fun o => ?_⟩
    · rw [hnat, hwr.size, if_neg hne, hlen]
    · rw [hnat, hc'.byte_eq, hwr.bytes, hlen]
      split_ifs with ho
      · have hlt : o - pos < n := by omega
        simp [List.getD_eq_getElem?_getD, hlt]
      · rw [hc.byte_eq]
  · have hzero := hr0 hle
    subst hzero
    refine (hc.congr ?_ fun o => ?_).2
    · simpa using hwr.size
    · have := hwr.bytes o
      rwa [if_neg (by simp)] at this

/-- The step lemma: a call that fits leaves nothing behind the size and does what it should. -/
theorem FileOp.exec_ok (op : FileOp) (hc : Clean tn) (hv : op.Valid) (hf : op.Fits w tn) :
    Clean (op.exec w tn).2.2 ∧ op.Spec tn (op.exec w tn) := by
  cases op with
  | write env pos data => exact write_ok hc hf
  | read env pos len => exact ⟨hc, rfl, read_spec hc hf.1 hv.2 hf.2⟩
  | truncate e size => exact truncate_ok hc hf
  | fallocate e env keepSize offset length => exact fallocate_ok hc hv hf

theorem Clean.empty : Clean .empty := ⟨by decide, fun _ _ => rfl⟩

theorem clean_run {tr : List FileOp} (h : Run (fun tn op tn' => FileStep w tn op tn' ∧ op.Fits w tn) .empty tr tn) :
    Clean tn := by
  refine h.invariant_state Clean Clean.empty ?_
  rintro tn op _ hc ⟨⟨hv, rfl⟩, hf⟩
  exact (op.exec_ok hc hv hf).1

/-- In every run whose calls fit, each further call that fits does to the file what it does to an array of bytes. -/
theorem file_runs {tr : List FileOp} {tn : FileNode}
    (h : Run (fun tn op tn' => FileStep w tn op tn' ∧ op.Fits w tn) .empty tr tn) (op : FileOp) (hv : op.Valid)
    (hf : op.Fits w tn) : op.Spec tn (op.exec w tn) :=
  (op.exec_ok (clean_run h) hv hf).2

def plenty : Nat → Env := fun _ => {}

def oneByte : FileNode := (tmpfsFileWrite 32 plenty .empty 0 [97]).2.1

theorem oneByte_step : FileStep 32 .empty (.write plenty 0 [97]) oneByte := ⟨⟨by decide, by decide⟩, rfl⟩

theorem file_runs_read :
    (tmpfsFileRead 32 plenty oneByte 0 7).1 = 1 ∧ (FileOp.read plenty 0 7).Spec oneByte (1, [97], oneByte) := by
  have h := file_runs (.snoc .nil ⟨oneByte_step, .inr ⟨by decide, by decide⟩⟩) (.read plenty 0 7)
    ⟨by decide, by decide⟩ ⟨.inl (by decide), by decide⟩
  exact ⟨by decide, h⟩

/-- A write at 4 GiB replaces the first byte of the file. -/
theorem high_write_wraps : ∃ tr, Run (FileStep 32) .empty tr oneByte ∧ (FileOp.write plenty (2 ^ 32) [98]).Valid ∧
    (tmpfsFileWrite 32 plenty oneByte (2 ^ 32) [98]).1 = 1 ∧
    (tmpfsFileWrite 32 plenty oneByte (2 ^ 32) [98]).2.1.byte 0 = 98 ∧ oneByte.byte 0 = 97 ∧
    (tmpfsFileWrite 32 plenty oneByte (2 ^ 32) [98]).2.1.size = 1 :=
  ⟨_, .snoc .nil oneByte_step, ⟨by decide, by decide⟩, by decide, by decide, by decide, by decide⟩

end Mos.Tmpfs
