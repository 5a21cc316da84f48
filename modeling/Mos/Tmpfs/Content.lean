import Mos.Tmpfs.File
import Mos.Lib.Run
import Mathlib.Data.List.GetD

/-!
# A tmpfs file is an array of bytes

The bytes of a file are those of its pages, zero where a page is absent, and zero from the size on (`Clean`).  Within
the first 4 GiB the calls behave as on an array of bytes.
-/

namespace Mos.Tmpfs

open Lib List FileNode

/-- The byte at an offset of the pages. -/
def FileNode.byteAt (tn : FileNode) (o : Nat) : UInt8 := (tn.pages[o / pageSize]?).join.elim 0 fun p =>
    p (o % pageSize)

/-- The byte at an offset of the file: zero from the size on. -/
def FileNode.byte (tn : FileNode) (o : Nat) : UInt8 := if o < tn.size then tn.byteAt o else 0

/-- Nothing is stored from the size on. -/
structure Clean (tn : FileNode) : Prop where
  size_lt : tn.size < 2 ^ 32
  rest : ∀ o, tn.size ≤ o → tn.byteAt o = 0

variable {tn tn' : FileNode} {e : Env} {env : Nat → Env}

theorem Clean.byte_eq (h : Clean tn) (o : Nat) : tn.byte o = tn.byteAt o := by
  unfold byte
  split_ifs with ho
  · rfl
  · exact (h.rest o (by omega)).symm

variable {i offset size curOff : Nat} {data : List UInt8}

private theorem byteAt_modifyPage (tn : FileNode) (i : Nat) (f : Page → Page) (o : Nat) :
    (tn.modifyPage i f).byteAt o =
      if o / pageSize = i ∧ tn.present i then ((tn.pages[i]?).join.elim 0 fun p => f p (o % pageSize)) else tn.byteAt
      o := by
  unfold byteAt modifyPage present
  simp only [getElem?_modify]
  by_cases ho : o / pageSize = i
  · subst ho
    cases h : tn.pages[o / pageSize]? with
    | none => simp
    | some q =>
      cases q with
      | none => simp
      | some p => simp
  · rw [if_neg fun h => ho h.1]
    have hne : ¬i = o / pageSize := fun h => ho h.symm
    simp [hne]

private theorem present_modifyPage (tn : FileNode) (i j : Nat) (f : Page → Page) :
    (tn.modifyPage i f).present j = tn.present j := by
  unfold present modifyPage
  simp only [getElem?_modify]
  cases tn.pages[j]? with
  | none => rfl
  | some q =>
    by_cases hij : i = j
    · cases q <;> simp [hij]
    · simp [hij]

/-- A change of `size` bytes of one page to those of `g`; of a page that is absent only to zeros. -/
theorem byteAt_modify {f : Page → Page} {g : Nat → UInt8} (hfit : offset + size ≤ pageSize)
    (hf : ∀ p k, f p k = if offset ≤ k ∧ k < offset + size then g (k - offset) else p k)
    (hp : tn.present i ∨ ∀ k, g k = 0) (o : Nat) :
    (tn.modifyPage i f).byteAt o =
      if i * pageSize + offset ≤ o ∧ o < i * pageSize + offset +
      size then g (o - (i * pageSize + offset)) else tn.byteAt o := by
  rw [byteAt_modifyPage]
  by_cases ho : o / pageSize = i
  swap
  · rw [if_neg fun h => ho h.1, if_neg]
    intro hc
    unfold pageSize at *
    omega
  have hmod : i * pageSize + o % pageSize = o := by
    rw [← ho]
    exact Nat.div_add_mod' o pageSize
  cases hpg : (tn.pages[i]?).join with
  | none =>
    have habs : ¬tn.present i := by simp [present, hpg]
    have hzero : tn.byteAt o = 0 := by simp [byteAt, ho, hpg]
    rw [if_neg fun h => habs h.2, hp.resolve_left habs, hzero, ite_self]
  | some p =>
    have hpres : tn.present i := by simp [present, hpg]
    have hold : tn.byteAt o = p (o % pageSize) := by simp [byteAt, ho, hpg]
    have hidx : o - (i * pageSize + offset) = o % pageSize - offset := by omega
    rw [if_pos ⟨ho, hpres⟩, hold, Option.elim_some, hf, hidx]
    congr 1
    simp only [eq_iff_iff]
    omega

private theorem byteAt_write (hp : tn.present i) (hfit : offset + data.length ≤ pageSize) (o : Nat) :
    (tn.modifyPage i fun p => pageWrite p offset data).byteAt o =
      if i * pageSize + offset ≤ o ∧ o < i * pageSize + offset + data.length then
        data.getD (o - (i * pageSize + offset)) 0 else tn.byteAt o := by
  refine byteAt_modify (g := fun k => data.getD k 0) hfit (fun p k => ?_) (.inl hp) o
  unfold pageWrite
  by_cases h1 : offset ≤ k
  · by_cases h2 : k - offset < data.length
    · rw [if_pos h1, if_pos (by omega)]
      simp [h2]
    · rw [if_pos h1, if_neg (by omega)]
      simp [h2]
  · rw [if_neg h1, if_neg (by omega)]

private theorem byteAt_zero (tn : FileNode) (hfit : offset + size ≤ pageSize) (o : Nat) :
    (tn.modifyPage i fun p => pageZero p offset size).byteAt o =
      if i * pageSize + offset ≤ o ∧ o < i * pageSize + offset + size then 0 else tn.byteAt o :=
  byteAt_modify hfit (fun _ _ => rfl) (.inr fun _ => rfl) o

private theorem byteAt_setZero (tn : FileNode) (hp : tn.present i = false) (o : Nat) :
    byteAt { tn with pages := tn.pages.set i (some fun _ => 0) } o = tn.byteAt o := by
  unfold byteAt present at *
  rw [getElem?_set]
  by_cases ho : i = o / pageSize
  · subst ho
    rw [if_pos rfl]
    have hnone : (tn.pages[o / pageSize]?).join = none := by simpa using hp
    rw [hnone]
    split_ifs <;> rfl
  · rw [if_neg ho]

private theorem byteAt_grow (tn : FileNode) (n o : Nat) :
    byteAt { tn with pages := tn.pages ++ replicate n none } o = tn.byteAt o := by
  unfold byteAt
  rw [getElem?_append]
  split_ifs with h
  · rfl
  · rw [getElem?_replicate, getElem?_eq_none (by omega)]
    split_ifs <;> rfl

/-- `tmpfs_ensure_page` changes no byte; if it succeeds the page is there. -/
theorem ensurePage_spec (tn : FileNode) (offset : Nat) (e : Env) :
    let r := tmpfsEnsurePage tn offset e
    (∀ o, r.2.byteAt o = tn.byteAt o) ∧ r.2.size = tn.size ∧
      (r.1 = 0 ∧ r.2.present (offset / pageSize) ∨ r.1 = enomem) := by
  unfold tmpfsEnsurePage
  simp only
  split_ifs with hlt hp hpage hmal hpage
  · exact ⟨fun _ => rfl, rfl, .inl ⟨rfl, hp⟩⟩
  · refine ⟨byteAt_setZero tn (by simpa using hp), rfl, .inl ⟨rfl, ?_⟩⟩
    simp [present, hlt]
  · exact ⟨fun _ => rfl, rfl, .inr rfl⟩
  · refine ⟨fun o => ?_, rfl, .inl ⟨rfl, ?_⟩⟩
    · rw [← byteAt_grow tn (offset / pageSize + 1 - tn.pages.length) o]
      refine byteAt_setZero ⟨tn.size, _⟩ ?_ o
      unfold present
      rw [getElem?_append_right (by omega), getElem?_replicate]
      split_ifs <;> rfl
    · have hlen : offset / pageSize < tn.pages.length + (offset / pageSize + 1 - tn.pages.length) := by omega
      simp [present, hlen]
  · exact ⟨byteAt_grow tn _, rfl, .inr rfl⟩
  · exact ⟨fun _ => rfl, rfl, .inr rfl⟩

/-! ### Writing -/

private theorem zeroGap_spec (h : Clean tn) (curOff : Nat) (e : Env) : zeroGap tn curOff e = none ∧ e.zero = false ∨
    ∃ tn', zeroGap tn curOff e = some tn' ∧
      (∀ o, tn'.byteAt o = tn.byteAt o) ∧ tn'.size = tn.size ∧ ∀ i, tn'.present i = tn.present i := by
  unfold zeroGap
  simp only
  have hmod := Nat.mod_le ((tn.size / pageSize + 1) * pageSize) (2 ^ 32)
  generalize (tn.size / pageSize + 1) * pageSize % 2 ^ 32 = pageEnd at hmod
  have hle : (if curOff > pageEnd then pageEnd else curOff) ≤ (tn.size / pageSize + 1) * pageSize := by
    split <;> omega
  generalize (if curOff > pageEnd then pageEnd else curOff) = zeroEnd at hle
  split_ifs with _ _ hzero
  · refine .inr ⟨_, rfl, fun o => ?_, rfl, fun i => present_modifyPage _ _ _ _⟩
    have hsize := Nat.div_add_mod' tn.size pageSize
    rw [Nat.add_mul, Nat.one_mul] at hle
    rw [byteAt_zero tn (by omega)]
    split
    · exact (h.rest o (by omega)).symm
    · rfl
  · exact .inl ⟨rfl, by simpa using hzero⟩
  all_goals exact .inr ⟨tn, rfl, fun _ => rfl, rfl, fun _ => rfl⟩

/-- The bytes `d` were stored from `pos` on, and nothing else has changed. -/
structure Wrote (tn : FileNode) (pos : Nat) (d : List UInt8) (tn' : FileNode) : Prop where
  bytes : ∀ o, tn'.byteAt o = if pos ≤ o ∧ o < pos + d.length then d.getD (o - pos) 0 else tn.byteAt o
  size : tn'.size = if d = [] then tn.size else max tn.size (pos + d.length)

theorem Wrote.refl (tn : FileNode) (pos : Nat) : Wrote tn pos [] tn :=
  ⟨fun o => by rw [if_neg (by simp)], rfl⟩

variable {pos : Nat} {d : List UInt8} {tn1 tn2 : FileNode}

theorem Wrote.same (h : Wrote tn pos d tn1)
    (hb : ∀ o, tn2.byteAt o = tn1.byteAt o) (hs : tn2.size = tn1.size) : Wrote tn pos d tn2 :=
  ⟨fun o => (hb o).trans (h.bytes o), hs.trans h.size⟩

theorem Wrote.clean (h : Wrote tn pos d tn') (hc : Clean tn) (hfit : pos + d.length < 2 ^ 32) : Clean tn' := by
  have hlt := hc.size_lt
  constructor
  · rw [h.size]
    split <;> omega
  · intro o ho
    rw [h.size] at ho
    rw [h.bytes]
    split_ifs at ho with hd
    · subst hd
      rw [if_neg (by simp)]
      exact hc.rest o ho
    · rw [if_neg (by omega)]
      exact hc.rest o (by omega)

theorem Wrote.append {d' : List UInt8} (h : Wrote tn pos d tn1)
    (h' : Wrote tn1 (pos + d.length) d' tn2) : Wrote tn pos (d ++ d') tn2 := by
  constructor
  · intro o
    rw [h'.bytes, h.bytes, length_append]
    by_cases h1 : pos + d.length ≤ o ∧ o < pos + d.length + d'.length
    · rw [if_pos h1, if_pos (by omega), getD_append_right _ _ _ _ (by omega)]
      congr 1
      omega
    · rw [if_neg h1]
      by_cases h2 : pos ≤ o ∧ o < pos + d.length
      · rw [if_pos h2, if_pos (by omega), getD_append _ _ _ _ (by omega)]
      · rw [if_neg h2, if_neg (by omega)]
  · rw [h'.size, h.size]
    by_cases hd' : d' = []
    · simp [hd']
    have hne : d ++ d' ≠ [] := by simp [hd']
    rw [if_neg hd', if_neg hne, length_append]
    by_cases hd : d = []
    · simp [hd]
    · rw [if_neg hd]
      omega

private theorem wrote_page (tn : FileNode) (hd : d ≠ []) (hp : tn.present (curOff / pageSize))
    (hfit : curOff % pageSize + d.length ≤ pageSize) (hlt : curOff + d.length < 2 ^ 32) :
    Wrote tn curOff d (let tn' := tn.modifyPage (curOff / pageSize) fun p => pageWrite p (curOff % pageSize) d
       if addW 32 curOff d.length > tn'.size then { tn' with size := addW 32 curOff d.length } else tn') := by
  have hdiv := Nat.div_add_mod' curOff pageSize
  have hbytes : ∀ o, (tn.modifyPage (curOff / pageSize) fun p => pageWrite p (curOff % pageSize) d).byteAt o =
      if curOff ≤ o ∧ o < curOff + d.length then d.getD (o - curOff) 0 else tn.byteAt o := by
    intro o
    rw [byteAt_write hp hfit, hdiv]
  rw [addW_eq hlt]
  have hsize : (tn.modifyPage (curOff / pageSize) fun p => pageWrite p (curOff % pageSize) d).size = tn.size := rfl
  simp only [hsize]
  split_ifs with hgt
  · refine ⟨hbytes, ?_⟩
    rw [if_neg hd]
    simp only
    omega
  · refine ⟨hbytes, ?_⟩
    rw [if_neg hd, hsize]
    omega

theorem writeLoop_spec (env : Nat → Env) (hc : Clean tn) (hfit : pos + data.length < 2 ^ 32) (fuel : Nat) :
    ∀ (t : Nat) (tn1 : FileNode), t ≤ data.length → data.length - t ≤ fuel → Wrote tn pos (data.take t) tn1 →
      ∃ stop t' tn2, writeLoop env pos data fuel t tn1 = (stop, t', tn2) ∧ t' ≤ data.length ∧
        Wrote tn pos (data.take t') tn2 ∧ (stop = .notMapped → ∃ i, (env i).zero = false ∨ (env i).copy = false) := by
  induction fuel with
  | zero =>
    intro t tn1 ht hfuel hw
    exact ⟨.done, t, tn1, rfl, ht, hw, nofun⟩
  | succ fuel ih =>
    intro t tn1 ht hfuel hw
    have hlen : (data.take t).length = t := by simp [ht]
    unfold writeLoop
    by_cases hlt : t < data.length
    swap
    · rw [if_neg hlt]
      exact ⟨.done, t, tn1, rfl, ht, hw, nofun⟩
    rw [if_pos hlt]
    simp only
    have hcur : (pos + t) % 2 ^ 32 = pos + t := Nat.mod_eq_of_lt (by omega)
    rw [hcur]
    obtain ⟨hb, hs, hres⟩ := ensurePage_spec tn1 (pos + t) (env t)
    generalize tmpfsEnsurePage tn1 (pos + t) (env t) = r at hb hs hres
    obtain ⟨code, tn2⟩ := r
    have hw2 : Wrote tn pos (data.take t) tn2 := hw.same hb hs
    have hc2 : Clean tn2 := hw2.clean hc (by omega)
    rcases hres with ⟨hcode, hp⟩ | hcode
    swap
    · subst hcode
      exact ⟨.noPage, t, tn2, rfl, ht, hw2, nofun⟩
    subst hcode
    simp only
    obtain ⟨hz, hzero⟩ | ⟨tn3, hz, hb3, hs3, hp3⟩ := zeroGap_spec hc2 (pos + t) (env t)
    · rw [hz]
      exact ⟨.notMapped, t, tn2, rfl, ht, hw2, fun _ => ⟨t, .inl hzero⟩⟩
    rw [hz]
    have hw3 : Wrote tn pos (data.take t) tn3 := hw2.same hb3 hs3
    by_cases hcopy : (env t).copy
    swap
    · simp only [hcopy]
      exact ⟨.notMapped, t, tn3, rfl, ht, hw3, fun _ => ⟨t, .inr (by simpa using hcopy)⟩⟩
    simp only [hcopy, if_true]
    generalize hn : min (pageSize - (pos + t) % pageSize) (data.length - t) = copy
    have hmod := Nat.mod_lt (pos + t) (show 0 < pageSize by decide)
    have hchunk : ((data.drop t).take copy).length = copy := by
      rw [length_take, length_drop]
      omega
    have hpiece := wrote_page tn3 (d := (data.drop t).take copy) (ne_nil_of_length_pos (by omega))
      (show tn3.present ((pos + t) / pageSize) by rw [hp3]; exact hp) (by omega) (by omega)
    rw [hchunk] at hpiece
    rw [← hlen] at hpiece
    have hnext := hw3.append hpiece
    rw [hlen, ← take_add] at hnext
    exact ih (t + copy) _ (by omega) (by omega) hnext

/-- A front part of the data was stored and its length returned; the position moves behind it if every page was
mapped. -/
def WriteOk (env : Nat → Env) (tn : FileNode) (pos : Nat) (data : List UInt8) (r : Int × FileNode × Nat) : Prop :=
  ∃ n, n ≤ data.length ∧ Wrote tn pos (data.take n) r.2.1 ∧ (0 < r.1 → r.1 = n) ∧ (r.1 ≤ 0 → n = 0) ∧
    ((∀ i, (env i).zero = true ∧ (env i).copy = true) → r.2.2 = pos + n)

variable {w : Nat}

theorem write_spec (env : Nat → Env) (hc : Clean tn) (hfit : pos + data.length < 2 ^ 32)
    (hw : data.length < 2 ^ (w - 1)) : WriteOk env tn pos data (tmpfsFileWrite w env tn pos data) := by
  unfold tmpfsFileWrite
  by_cases hlen : data.length = 0
  · rw [if_pos hlen]
    exact ⟨0, Nat.zero_le _, Wrote.refl tn pos, fun h => absurd h (Int.lt_irrefl 0), fun _ => rfl, fun _ => rfl⟩
  rw [if_neg hlen]
  obtain ⟨stop, n, tn2, hloop, hn, hwr, hmap⟩ := writeLoop_spec env hc hfit data.length 0 tn (Nat.zero_le _)
    (by omega) (Wrote.refl tn pos)
  have hsigned : toSigned w n = n := toSigned_of_lt (by omega)
  have hsize : n ≠ 0 → ¬(pos + n) % 2 ^ 32 > tn2.size := by
    intro hn0
    have hne : data.take n ≠ [] := ne_nil_of_length_pos (by rw [length_take]; omega)
    have := hwr.size
    rw [if_neg hne, length_take] at this
    rw [Nat.mod_eq_of_lt (by omega)]
    omega
  have hret : WriteOk env tn pos data (if n = 0 then (enospc, tn2, pos) else (toSigned w n,
      (if (pos + n) % 2 ^ 32 > tn2.size then { tn2 with size := (pos + n) % 2 ^ 32 } else tn2), pos + n)) := by
    by_cases hn0 : n = 0
    · rw [if_pos hn0]
      exact ⟨n, hn, hwr, fun h => absurd h (show ¬(0 : Int) < -28 by decide), fun _ => hn0, fun _ => by rw [hn0]; rfl⟩
    · rw [if_neg hn0, if_neg (hsize hn0), hsigned]
      exact ⟨n, hn, hwr, fun _ => rfl, fun h => by simpa using h, fun _ => rfl⟩
  rw [hloop]
  cases stop with
  | done | noPage => exact hret
  | notMapped =>
    obtain ⟨i, hi⟩ := hmap rfl
    have hno : ¬∀ i, (env i).zero = true ∧ (env i).copy = true := by
      intro hall
      rcases hi with hi | hi
      · exact absurd ((hall i).1.symm.trans hi) (by decide)
      · exact absurd ((hall i).2.symm.trans hi) (by decide)
    simp only
    by_cases hn0 : n = 0
    · rw [if_neg (by simpa using hn0)]
      exact ⟨n, hn, hwr, fun h => absurd h (show ¬(0 : Int) < -5 by decide), fun _ => hn0, fun h => absurd h hno⟩
    · rw [if_pos hn0, hsigned]
      exact ⟨n, hn, hwr, fun _ => rfl, fun h => by simpa using h, fun h => absurd h hno⟩

/-! ### Reading -/

/-- Within the first 4 GiB the loop reads the bytes of the range, up to the first page that cannot be mapped. -/
theorem readLoop_spec (env : Nat → Env) (tn : FileNode) (hfit : pos + size ≤ 2 ^ 32) (fuel : Nat) :
    ∀ t, t ≤ size → size - t ≤ fuel →
      ∃ ok n, readLoop env tn pos size fuel ((range t).map fun i => tn.byteAt (pos + i)) =
          (ok, (range n).map fun i => tn.byteAt (pos + i)) ∧ n ≤ size ∧
        (ok = true → n = size) ∧ ((∀ i, (env i).copy = true) → ok = true) := by
  induction fuel with
  | zero =>
    intro t ht hfuel
    exact ⟨true, t, rfl, ht, fun _ => by omega, fun _ => rfl⟩
  | succ fuel ih =>
    intro t ht hfuel
    unfold readLoop
    simp only [length_map, length_range]
    by_cases hlt : t < size
    swap
    · rw [if_neg hlt]
      exact ⟨true, t, rfl, ht, fun _ => by omega, fun _ => rfl⟩
    rw [if_pos hlt]
    have hcur : (pos + t) % 2 ^ 32 = pos + t := Nat.mod_eq_of_lt (by omega)
    rw [hcur]
    generalize hn : min (pageSize - (pos + t) % pageSize) (size - t) = copy
    have hmod := Nat.mod_lt (pos + t) (show 0 < pageSize by decide)
    have hpage : ∀ i < copy, (pos + (t + i)) / pageSize = (pos + t) / pageSize ∧
        (pos + (t + i)) % pageSize = (pos + t) % pageSize + i := by
      intro i hi
      unfold pageSize at *
      omega
    have hout : ∀ l : List UInt8, (∀ i < copy, l[i]? = some (tn.byteAt (pos + (t + i)))) → l.length = copy →
        ((range t).map fun i => tn.byteAt (pos + i)) ++ l = (range (t + copy)).map fun i => tn.byteAt (pos + i) := by
      intro l hl hlen
      rw [range_add, map_append, map_map]
      congr 1
      refine ext_getElem? fun i => ?_
      by_cases hi : i < copy
      · rw [hl i hi]
        simp [hi]
      · rw [getElem?_eq_none (by omega), getElem?_eq_none (by simp; omega)]
    cases hp : (tn.pages[(pos + t) / pageSize]?).join with
    | none =>
      rw [hout (replicate copy 0) (fun i hi => ?_) (by simp)]
      · exact ih (t + copy) (by omega) (by omega)
      · rw [getElem?_replicate, if_pos hi, byteAt, (hpage i hi).1, hp]
        rfl
    | some p =>
      simp only
      by_cases hcopy : (env t).copy
      · rw [if_pos hcopy, hout ((range copy).map fun i => p ((pos + t) % pageSize + i)) (fun i hi => ?_) (by simp)]
        · exact ih (t + copy) (by omega) (by omega)
        · rw [byteAt, (hpage i hi).1, (hpage i hi).2, hp]
          simp [hi]
      · rw [if_neg hcopy]
        exact ⟨false, t, rfl, ht, nofun, fun h => absurd (h t) hcopy⟩

/-- What a read of the range returns: its bytes up to the size, or fewer if a page could not be mapped. -/
def ReadOk (env : Nat → Env) (tn : FileNode) (pos len : Nat) (r : Int × List UInt8) : Prop :=
  ∃ n, n ≤ min (pos + len) tn.size - pos ∧ r.2 = ((List.range n).map fun i => tn.byte (pos + i)) ∧
    (0 ≤ r.1 → r.1 = n) ∧ ((∀ i, (env i).copy = true) → r.1 = n ∧ n = min (pos + len) tn.size - pos)

theorem read_spec {len : Nat} (hc : Clean tn) (hpos : pos < 2 ^ 32 ∨ tn.size ≤ pos % 2 ^ 32 ∨ len = 0)
    (hlen : len < 2 ^ 32) (hw : len < 2 ^ (w - 1)) : ReadOk env tn pos len (tmpfsFileRead w env tn pos len) := by
  have hlt := hc.size_lt
  unfold tmpfsFileRead
  by_cases hout : pos % 2 ^ 32 ≥ tn.size ∨ len = 0
  · rw [if_pos hout]
    have hzero : min (pos + len) tn.size - pos = 0 := by
      have := Nat.mod_le pos (2 ^ 32)
      omega
    exact ⟨0, Nat.zero_le _, rfl, fun _ => rfl, fun _ => ⟨rfl, hzero.symm⟩⟩
  rw [if_neg hout]
  have hpos32 : pos < 2 ^ 32 := by omega
  have hmod : pos % 2 ^ 32 = pos := Nat.mod_eq_of_lt hpos32
  have hsum : toSigned 64 (addW 64 pos len) = (pos + len : Nat) := by
    rw [addW_eq (by omega), toSigned_of_lt (by omega)]
  have hsize : (if toSigned 64 (addW 64 pos len) > tn.size then tn.size - pos % 2 ^ 32 else len) =
      min (pos + len) tn.size - pos := by
    rw [hsum, hmod]
    split_ifs <;> omega
  simp only [hsize]
  generalize hm : min (pos + len) tn.size - pos = m
  obtain ⟨ok, n, hloop, hn, hok, hall⟩ := readLoop_spec env tn (show pos + m ≤ 2 ^ 32 by omega) m 0
    (Nat.zero_le _) (by omega)
  have hbytes : ((range n).map fun i => tn.byteAt (pos + i)) = (range n).map fun i => tn.byte (pos + i) := by
    refine map_congr_left fun i _ => ?_
    rw [hc.byte_eq]
  have hsigned : toSigned w n = n := toSigned_of_lt (by omega)
  have hlist : ((range n).map fun i => tn.byteAt (pos + i)).length = n := by simp
  rw [range_zero, map_nil] at hloop
  rw [hloop]
  cases ok with
  | true =>
    simp only [hlist, hsigned]
    exact ⟨n, by omega, hbytes, fun _ => rfl, fun _ => ⟨rfl, (hok rfl).trans hm.symm⟩⟩
  | false =>
    have hno : ¬∀ i, (env i).copy = true := fun h => absurd (hall h) (by decide)
    simp only [hlist, hsigned]
    by_cases hn0 : n = 0
    · rw [if_neg (by simpa using hn0)]
      exact ⟨n, by omega, hbytes, fun h => absurd h (show ¬(0 : Int) ≤ -5 by decide), fun h => absurd h hno⟩
    · rw [if_pos hn0]
      exact ⟨n, by omega, hbytes, fun _ => rfl, fun h => absurd h hno⟩

/-! ### Changing the size -/

theorem byteAt_take_grow (tn : FileNode) (n o : Nat) :
    byteAt { tn with pages := tn.pages.take n ++ replicate (n - tn.pages.length) none } o =
      if o / pageSize < n then tn.byteAt o else 0 := by
  unfold byteAt
  simp only [getElem?_append, length_take, getElem?_take, getElem?_replicate]
  by_cases h : o / pageSize < n
  · by_cases h' : o / pageSize < tn.pages.length
    · simp [h, h']
    · rw [if_neg (by omega), if_pos h, getElem?_eq_none (by omega)]
      split_ifs <;> rfl
  · rw [if_neg (by omega), if_neg (by omega), if_neg h]
    rfl

/-- The file has the new size, keeps its bytes below it, and is zero beyond. -/
structure Resized (tn : FileNode) (n : Nat) (tn' : FileNode) : Prop where
  size : tn'.size = n
  bytes : ∀ o, tn'.byteAt o = if o < n then tn.byteAt o else 0

variable {n N : Nat}

theorem Resized.clean (h : Resized tn n tn') (hn : n < 2 ^ 32) : Clean tn' := by
  constructor
  · rw [h.size]
    exact hn
  · intro o ho
    rw [h.size] at ho
    rw [h.bytes, if_neg (by omega)]

/-- The rest of the new last page is zeroed when the file becomes shorter. -/
theorem cutTail_spec (hc : Clean tn) (hN : (n + (pageSize - 1)) / pageSize = N) (o : Nat) (ho : o / pageSize < N) :
    byteAt (if n < tn.size ∧ N > 0 ∧ n % pageSize ≠ 0 ∧ tn.present (N - 1) then
      tn.modifyPage (N - 1) fun p => pageZero p (n % pageSize) (pageSize - n % pageSize) else tn) o =
        if o < n then tn.byteAt o else 0 := by
  have hmod := Nat.mod_lt n (show 0 < pageSize by decide)
  have hlast : n % pageSize ≠ 0 → N - 1 = n / pageSize := by
    intro h
    unfold pageSize at *
    omega
  have hpage : o < n ∨ n % pageSize ≠ 0 ∧ n / pageSize * pageSize + n % pageSize ≤ o ∧
      o < n / pageSize * pageSize + n % pageSize + (pageSize - n % pageSize) ∧ o / pageSize = n / pageSize := by
    unfold pageSize at *
    omega
  split_ifs with hcut hlt hlt
  · rw [hlast hcut.2.2.1, byteAt_zero tn (by omega), if_neg]
    have := Nat.div_add_mod' n pageSize
    omega
  · obtain hlt' | ⟨h0, h1, h2, -⟩ := hpage
    · exact absurd hlt' hlt
    · rw [hlast h0, byteAt_zero tn (by omega), if_pos ⟨h1, h2⟩]
  · rfl
  obtain hlt' | ⟨h0, h1, h2, h3⟩ := hpage
  · exact absurd hlt' hlt
  -- nothing was cut: the file is not shorter, or the page is absent
  by_cases hsize : n < tn.size
  swap
  · exact hc.rest o (by omega)
  have habs : tn.present (n / pageSize) = false := by
    rw [hlast h0] at hcut
    have hpos : N > 0 := by omega
    simpa [hsize, hpos, h0] using hcut
  unfold present at habs
  unfold byteAt
  rw [h3]
  cases hp : (tn.pages[n / pageSize]?).join with
  | none => rfl
  | some p => simp [hp] at habs

/-- `tmpfs_file_ftruncate` to a size whose pages can be counted. -/
theorem ftruncate_spec (hc : Clean tn) (hfit : n + pageSize ≤ 2 ^ 32) :
    let r := tmpfsFileFtruncate e tn n
    (r.1 = 0 ∧ Resized tn n r.2) ∨ ((r.1 = eio ∨ r.1 = enomem) ∧ ¬(e.zero = true ∧ e.malloc = true ∧ e.copy = true) ∧
      r.2.size = tn.size ∧ ∀ o, r.2.byteAt o = tn.byteAt o) := by
  have hps : 0 < pageSize := by decide
  have hnew : (((n : Int) % 2 ^ 32).toNat) = n := by omega
  have hpages : addW 32 n (pageSize - 1) = n + (pageSize - 1) := addW_eq (by omega)
  unfold tmpfsFileFtruncate
  simp only [hnew, hpages]
  rw [if_neg (by omega), if_neg (by unfold pageSize at hfit; omega)]
  generalize hN : (n + (pageSize - 1)) / pageSize = N
  by_cases hfail : n < tn.size ∧ N > 0 ∧ n % pageSize ≠ 0 ∧ tn.present (N - 1) ∧ ¬e.zero
  · rw [if_pos hfail]
    exact .inr ⟨.inl rfl, fun h => hfail.2.2.2.2 h.1, rfl, fun _ => rfl⟩
  rw [if_neg hfail]
  have hcut := cutTail_spec hc hN
  generalize hc1 : (if n < tn.size ∧ N > 0 ∧ n % pageSize ≠ 0 ∧ tn.present (N - 1) then
    tn.modifyPage (N - 1) fun p => pageZero p (n % pageSize) (pageSize - n % pageSize) else tn) = tn1 at hcut
  have hsize1 : tn1.size = tn.size := by
    rw [← hc1]
    split_ifs <;> rfl
  by_cases hmal : N > tn1.pages.length ∧ ¬e.malloc
  · -- without memory for a longer array nothing was cut either
    rw [if_pos hmal]
    have hsame : tn1 = tn := by
      rw [← hc1]
      refine if_neg fun h => ?_
      have hlen : tn1.pages.length = tn.pages.length := by
        rw [← hc1, if_pos h]
        exact length_modify _ _ _
      have hp := h.2.2.2
      unfold present at hp
      rw [getElem?_eq_none (by omega)] at hp
      cases hp
    rw [hsame]
    exact .inr ⟨.inr rfl, fun h => hmal.2 h.2.1, rfl, fun _ => rfl⟩
  · rw [if_neg hmal]
    have hres : Resized tn n { tn1 with
        size := n
        pages := tn1.pages.take N ++ replicate (N - tn1.pages.length) none } := by
      refine ⟨rfl, fun o => ?_⟩
      refine (byteAt_take_grow tn1 _ o).trans ?_
      split_ifs with h1 h2 h2
      · rw [hcut o h1, if_pos h2]
      · rw [hcut o h1, if_neg h2]
      · exfalso
        unfold pageSize at hN h1
        omega
      · rfl
    generalize tn1.pages.take N ++ replicate (N - tn1.pages.length) none = pages at hres
    by_cases htail : n > tn.size ∧ tn.size > 0 ∧ tn.size / pageSize = (n - 1) / pageSize ∧ tn.size % pageSize ≠ 0 ∧
        present { tn1 with pages := pages } (tn.size / pageSize)
    swap
    · rw [if_neg htail]
      exact .inl ⟨rfl, hres⟩
    rw [if_pos htail]
    by_cases hcopy : e.copy
    · rw [if_pos hcopy]
      refine .inl ⟨rfl, rfl, fun o => ?_⟩
      refine Eq.trans (byteAt_zero ⟨n, pages⟩ ?_ o) ?_
      · have := htail.2.2.1
        unfold pageSize at *
        omega
      · rw [hres.bytes]
        have := Nat.div_add_mod' tn.size pageSize
        split_ifs with h1 h2
        · exact (hc.rest o (by omega)).symm
        · rfl
        · rfl
        · rfl
    · rw [if_neg hcopy]
      refine .inr ⟨.inl rfl, fun h => hcopy h.2.2, hsize1, fun o => ?_⟩
      refine (hres.bytes o).trans ?_
      split_ifs with h1
      · rfl
      · exact (hc.rest o (by omega)).symm

theorem allocLoop_spec (env : Nat → Env) (pages : List Nat) (tn : FileNode) :
    let r := allocLoop env pages tn
    r.2.size = tn.size ∧ ∀ o, r.2.byteAt o = tn.byteAt o := by
  induction pages generalizing tn with
  | nil => exact ⟨rfl, fun _ => rfl⟩
  | cons page pages ih =>
    obtain ⟨hb, hs, hres⟩ := ensurePage_spec tn (page * pageSize) (env page)
    unfold allocLoop
    generalize tmpfsEnsurePage tn (page * pageSize) (env page) = r at hb hs hres
    obtain ⟨code, tn2⟩ := r
    rcases hres with ⟨hcode, -⟩ | hcode
    · subst hcode
      obtain ⟨h1, h2⟩ := ih tn2
      exact ⟨h1.trans hs, fun o => (h2 o).trans (hb o)⟩
    · subst hcode
      exact ⟨hs, hb⟩

end Mos.Tmpfs
