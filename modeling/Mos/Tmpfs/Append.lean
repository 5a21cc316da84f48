import Mos.Tmpfs.FileRuns

/-!
# Appending to a tmpfs file

Descriptions of one file that were opened with `O_APPEND`, and `fs_write` through them.  `tmpfs_open_direct` sets the
position of a new description to the end of the file; a write goes to the position of its description, which moves
only when this description is written.  Writes of one description after another append.  A description that was opened
before another one was written has fallen behind, and its next write replaces what the other has written.
-/

namespace Mos.Tmpfs

open Lib Function List

/-- What has happened to the file, with the bytes that a write has stored. -/
inductive Logged (D : Type)
  | opened (d : D)
  | wrote (d : D) (bytes : List UInt8)

def Logged.bytes {D : Type} : Logged D → List UInt8
  | .opened _ => []
  | .wrote _ bytes => bytes

structure Appenders (D : Type) where
  node : FileNode
  pos : D → Option Nat
  log : List (Logged D)

def Appenders.start (D : Type) (tn : FileNode) : Appenders D := ⟨tn, fun _ => none, []⟩

inductive AppendOp (D : Type)
  | open (d : D)
  | write (env : Nat → Env) (limit : Option Nat) (d : D) (data : List UInt8)

/-- The check of `RLIMIT_FSIZE` in `fs_write`. -/
def clampSize (limit : Option Nat) (pos : Nat) (data : List UInt8) : Option (List UInt8) :=
  match limit with
  | none => some data
  | some limit =>
    if pos ≥ limit then none
    else if (data.take (limit - pos)).length = 0 then none
    else some (data.take (limit - pos))

def ebadf : Int := -9

section

variable {D : Type} [DecidableEq D]

def AppendOp.exec (w : Nat) (s : Appenders D) : AppendOp D → Int × Appenders D
  | .open d => (0, ⟨s.node, update s.pos d (some s.node.size), s.log ++ [.opened d]⟩)
  | .write env limit d data =>
    match s.pos d with
    | none => (ebadf, s)
    | some pos =>
      match clampSize limit pos data with
      | none => (efbig, s)
      | some data =>
        let r := tmpfsFileWrite w env s.node pos data
        (r.1, ⟨r.2.1, update s.pos d (some r.2.2), s.log ++ [.wrote d (data.take r.1.toNat)]⟩)

/-- One entry of the log: an open or a write of `d` itself brings it to the end, a write of another one leaves it
behind unless nothing was stored. -/
def caughtUp (f : D → Bool) : Logged D → D → Bool
  | .opened d, d' => if d' = d then true else f d'
  | .wrote d bytes, d' => if d' = d then true else f d' && bytes.isEmpty

/-- Since the description was opened or written last, nothing was stored through another one. -/
def inTurn (log : List (Logged D)) : D → Bool := log.foldl caughtUp fun _ => false

/-- The write is in turn, the file stays below 4 GiB, and its pages can be mapped. -/
def AppendOp.InTurn (w : Nat) (s : Appenders D) : AppendOp D → Prop
  | .open _ => True
  | .write env _ d data =>
    inTurn s.log d = true ∧ s.node.size + data.length < 2 ^ 32 ∧ data.length < 2 ^ (w - 1) ∧
      ∀ i, (env i).zero = true ∧ (env i).copy = true

def FileNode.content (tn : FileNode) : List UInt8 := (List.range tn.size).map tn.byte

theorem Wrote.content {tn tn' : FileNode} {d : List UInt8} (hc : Clean tn) (h : Wrote tn tn.size d tn')
    (hfit : tn.size + d.length < 2 ^ 32) : tn'.content = tn.content ++ d := by
  have hc' := h.clean hc hfit
  have hsize : tn'.size = tn.size + d.length := by
    rw [h.size]
    split_ifs with hd
    · simp [hd]
    · omega
  unfold FileNode.content
  rw [hsize, range_add, map_append, map_map]
  congr 1
  · refine map_congr_left fun o ho => ?_
    have := mem_range.1 ho
    rw [hc'.byte_eq, h.bytes, if_neg (by omega), hc.byte_eq]
  · refine ext_getElem (by simp) fun i h1 h2 => ?_
    rw [getElem_map, getElem_range]
    simp only [comp_apply]
    rw [hc'.byte_eq, h.bytes, if_pos (by omega)]
    simp [getD_eq_getElem?_getD, h2]

/-- The file holds what was there at the start and then what was written, and who is in turn stands at its end. -/
structure AppendInv (tn : FileNode) (s : Appenders D) : Prop where
  clean : Clean s.node
  content : s.node.content = tn.content ++ s.log.flatMap Logged.bytes
  pos : ∀ d, inTurn s.log d = true → s.pos d = some s.node.size

private theorem inTurn_snoc (log : List (Logged D)) (e : Logged D) :
    inTurn (log ++ [e]) = caughtUp (inTurn log) e := by
  unfold inTurn
  rw [foldl_append]
  rfl

variable {w : Nat} {tn : FileNode} {s : Appenders D} {limit : Option Nat}

theorem AppendInv.open (h : AppendInv tn s) (d : D) : AppendInv tn ((AppendOp.open d).exec w s).2 := by
  refine ⟨h.clean, ?_, fun d' hd' => ?_⟩
  · simpa [AppendOp.exec, Logged.bytes] using h.content
  · simp only [AppendOp.exec] at hd' ⊢
    rw [inTurn_snoc] at hd'
    by_cases hd : d' = d
    · subst hd
      exact update_self _ _ _
    · rw [update_of_ne hd]
      refine h.pos d' ?_
      simpa [caughtUp, hd] using hd'

private theorem clampSize_length {pos : Nat} {data data' : List UInt8} (h : clampSize limit pos data = some data') :
    data'.length ≤ data.length := by
  unfold clampSize at h
  split at h
  · cases h
    exact le_rfl
  · split_ifs at h
    cases h
    rw [length_take]
    omega

open AppendOp

theorem AppendInv.write (h : AppendInv tn s) {env : Nat → Env} {d : D} {data : List UInt8}
    (ht : (write env limit d data).InTurn w s) : AppendInv tn ((write env limit d data).exec w s).2 := by
  obtain ⟨hturn, hfit, hw, hmap⟩ := ht
  simp only [exec, h.pos d hturn]
  cases hcl : clampSize limit s.node.size data with
  | none => exact h
  | some data' =>
    have hlen := clampSize_length hcl
    obtain ⟨n, hn, hwr, hr, hr0, hpos⟩ := write_spec (w := w) env h.clean
      (show s.node.size + data'.length < 2 ^ 32 by omega) (by omega)
    have htake : (data'.take n).length = n := by simp [hn]
    have hstored : data'.take (tmpfsFileWrite w env s.node s.node.size data').1.toNat = data'.take n := by
      rcases Int.lt_or_le 0 (tmpfsFileWrite w env s.node s.node.size data').1 with hp | hp
      · rw [hr hp, Int.toNat_natCast]
      · rw [hr0 hp, Int.toNat_of_nonpos hp]
    have hcontent := hwr.content h.clean (by omega)
    have hsize : (tmpfsFileWrite w env s.node s.node.size data').2.1.size = s.node.size + n := by
      rw [hwr.size]
      split_ifs with hd
      · rw [hd] at htake
        simp at htake
        omega
      · omega
    refine ⟨hwr.clean h.clean (by omega), ?_, fun d' hd' => ?_⟩
    · simp only [hcontent, hstored, h.content, flatMap_append, append_assoc]
      simp [Logged.bytes]
    · simp only at hd' ⊢
      rw [inTurn_snoc] at hd'
      rw [hsize]
      by_cases hd : d' = d
      · subst hd
        rw [update_self, hpos hmap]
      rw [update_of_ne hd]
      simp only [caughtUp, if_neg hd, Bool.and_eq_true, List.isEmpty_iff, hstored] at hd'
      have hzero : n = 0 := by
        rw [← htake, hd'.2]
        rfl
      rw [h.pos d' hd'.1, hzero]
      rfl

/-- In every run of writes in turn, the file holds its first content and then what was written, in this order. -/
theorem append_runs {tr₀ : List FileOp} {tr : List (AppendOp D)}
    (h₀ : Run (fun tn op tn' => FileStep w tn op tn' ∧ op.Fits w tn) .empty tr₀ tn)
    (h : Run (fun s op s' => (op.exec w s).2 = s' ∧ op.InTurn w s) (Appenders.start D tn) tr s) :
    s.node.content = tn.content ++ s.log.flatMap Logged.bytes := by
  have hc : Clean tn := clean_run h₀
  refine (h.invariant_state (AppendInv tn) ⟨hc, by simp [Appenders.start], nofun⟩ ?_).content
  rintro s op _ hi ⟨rfl, ht⟩
  cases op with
  | «open» d => exact hi.open d
  | write env limit d data => exact hi.write ht

end

def AppendOp.execAll (w : Nat) (s : Appenders Bool) (ops : List (AppendOp Bool)) : Appenders Bool :=
  ops.foldl (fun s op => (op.exec w s).2) s

theorem append_runs_two :
    (AppendOp.execAll 32 (.start Bool oneByte) [.open true, .write plenty none true [98], .open false,
      .write plenty (some 9) false [99]]).node.content = [97, 98, 99] := by
  have hfile : Run (fun tn op tn' => FileStep 32 tn op tn' ∧ op.Fits 32 tn) .empty [.write plenty 0 [97]] oneByte :=
    .snoc .nil ⟨oneByte_step, .inr ⟨by decide, by decide⟩⟩
  have hmap : ∀ i, (plenty i).zero = true ∧ (plenty i).copy = true := fun _ => ⟨rfl, rfl⟩
  have hopen : ∀ s : Appenders Bool, ∀ d, AppendOp.InTurn 32 s (.open d) := fun _ _ => trivial
  have hrun : Run (fun s op s' => (AppendOp.exec 32 s op).2 = s' ∧ AppendOp.InTurn 32 s op)
      (Appenders.start Bool oneByte) [] (.start Bool oneByte) := .nil
  have hrun := hrun.snoc ⟨rfl, hopen _ true⟩
  have hrun := hrun.snoc (e := AppendOp.write plenty none true [98]) ⟨rfl, by decide, by decide, by decide, hmap⟩
  have hrun := hrun.snoc ⟨rfl, hopen _ false⟩
  have hrun := hrun.snoc (e := AppendOp.write plenty (some 9) false [99]) ⟨rfl, by decide, by decide, by decide, hmap⟩
  exact append_runs hfile hrun

/-- Two descriptions are open before the first write: the second write replaces the first. -/
theorem append_overwrites :
    (AppendOp.execAll 32 (.start Bool .empty) [.open true, .open false, .write plenty none true [97],
      .write plenty none false [98]]).node.content = [98] ∧
    (AppendOp.execAll 32 (.start Bool .empty) [.open true, .open false, .write plenty none true [97],
      .write plenty none false [98]]).log.flatMap Logged.bytes = [97, 98] := by
  decide

end Mos.Tmpfs
