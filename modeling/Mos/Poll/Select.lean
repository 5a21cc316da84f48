import Mos.Poll.Returns

/-!
# The sets and the value that `select` returns

`do_select` and `select_ctx_check` of `src/fs/impl/select.c`, over the runs of the wait loop.  A set is a bit for each
descriptor; a null pointer is the empty set.  What a check finds is the mask that `fs_fd_poll` returns for each open
descriptor.
-/

namespace Mos.Poll

open Function List Lib State

variable {F S : Type}

inductive Cond
  | read
  | write
  | except

/-- The bits of `fs_fd_poll` for which a descriptor is put in the set. -/
def Cond.bits : Cond → BitVec 32
  | .read => 1 ||| 8
  | .write => 2
  | .except => 4

def Cond.any (p : Cond → Bool) : Bool := p .read || p .write || p .except

abbrev Sets := Cond → Nat → Bool

abbrev Files := Nat → Option (BitVec 32)

/-- The bits of the `set_bytes` bytes that are copied and cleared. -/
def setBits (nfds : Nat) : Nat := (max nfds 1 + 31) / 32 * 32

def scan (sets : Sets) (files : Files) : List Nat → Int → Sets → Int × Sets
  | [], ready, out => (ready, out)
  | i :: is, ready, out =>
    if Cond.any (sets · i) then
      match files i with
      | none => (ebadf, out)
      | some mask =>
        let hit c := sets c i && mask &&& c.bits != 0
        scan sets files is (ready + if Cond.any hit then 1 else 0) fun c => update (out c) i (out c i || hit c)
    else scan sets files is ready out

/-- `select_ctx_check`; no descriptor below `FD_SETSIZE` is above `MAX_FD`. -/
def selectCtxCheck (nfds : Nat) (sets : Sets) (files : Files) (out : Sets) : Int × Sets :=
  scan sets files (range nfds) 0 fun c i => decide (setBits nfds ≤ i) && out c i

def selectCall (nfds : Nat) (sets : Sets) (sources : Nat → List S) (justTest infinite : Bool) (deadline : Nat) :
    Call Nat S where
  select := true
  fds := (range nfds).filter fun i => Cond.any (sets · i)
  sources := sources
  cap := nfds * 2
  justTest := justTest
  infinite := infinite
  deadline := deadline

/-- The sets after checks that have found `found`, one after another. -/
def outputs (nfds : Nat) (sets : Sets) (found : List Files) : Sets :=
  found.foldl (fun out files => (selectCtxCheck nfds sets files out).2) fun c i =>
    decide (setBits nfds ≤ i) && sets c i

def results (tr : List (Act F S)) : List Int := tr.filterMap Act.result?

/-- A `do_select` that returns `v`: a run of the wait loop, whose checks have the results of `select_ctx_check`. -/
def DoSelect [DecidableEq S] (nfds : Int) (sets : Sets) (c : Call Nat S) (v : Int) (found : List Files) (out : Sets) :
    Prop :=
  if nfds < 0 ∨ nfds > 1024 then v = -22 ∧ found = [] ∧ out = sets
  else out = outputs nfds.toNat sets found ∧ ∃ ready owed isOpen signal us tr s,
    Run (Step c) (init ready owed isOpen signal us) tr s ∧ s.pc = .done v ∧
    results tr = found.map fun files => (selectCtxCheck nfds.toNat sets files fun _ _ => false).1

/-- The descriptor was given for the condition and meets it. -/
def meets (sets : Sets) (files : Files) (c : Cond) (i : Nat) : Bool :=
  sets c i && (files i).any (· &&& c.bits != 0)

/-! ### The result of the last check -/

/-- What the last check has returned is known where the loop is about to return it. -/
def Told (tr : List (Act F S)) : Pc F S → Prop
  | .test | .late => (results tr).getLast? = some 0
  | .cancel ret => (results tr).getLast? = some ret
  | .dereg (some ret) | .done ret => 0 ≤ ret → (results tr).getLast? = some ret
  | _ => True

section told

variable {c : Call F S} {s s' : State F S} {a : Act F S} {tr : List (Act F S)} {pc : Pc F S}

private theorem results_snoc (ha : a.result? = none) : results (tr ++ [a]) = results tr := by
  simp [results, ha]

theorem Told.snoc (h : Told tr pc) (ha : a.result? = none) : Told (tr ++ [a]) pc := by
  unfold Told at h ⊢
  rw [results_snoc ha]
  exact h

private theorem told_checked (tr : List (Act F S)) (ret : Int) (p : Point) : Told (tr ++ [.result ret])
    (checked ret p) := by
  have hlast : (results (tr ++ [Act.result ret])).getLast? = some ret := by simp [results, Act.result?]
  unfold checked
  cases p with
  | first | registered | published | woken =>
    dsimp only
    split
    · first | exact fun _ => hlast | exact hlast
    · first | trivial | exact hlast.trans (congrArg some (not_not.1 ‹_›))
  | refused =>
    intro h0
    split at h0
    · rw [if_pos ‹_›]
      exact hlast
    · exact absurd h0 (by decide)

theorem Move.told [DecidableEq S] (h : Told tr s.pc) (hmove : Move c s a s') : Told (tr ++ [a]) s'.pc := by
  cases hmove with
  | checked _ | badf _ _ => exact told_checked ..
  | tested hpc _ | expired hpc _ _ =>
    rw [hpc] at h
    exact fun _ => h.snoc (a := .loop) rfl
  | regBadf _ _ _ | interrupted _ _ => exact fun h0 => absurd h0 (by decide)
  | cancel hpc =>
    rw [hpc] at h
    exact fun _ => h.snoc (a := .loop) rfl
  | unsubscribe _ _ => exact h.snoc rfl
  | leave hpc _ =>
    rw [hpc] at h
    exact h.snoc (a := .loop) rfl
  | _ => trivial

/-- A number that the loop returns is the result of its last check. -/
theorem run_told [DecidableEq F] [DecidableEq S] {ready owed : S → Bool} {isOpen : F → Bool} {signal : Bool}
    {us : Nat} (hrun : Run (Step c) (init ready owed isOpen signal us) tr s) : Told tr s.pc := by
  refine hrun.invariant (fun tr (s : State F S) => Told tr s.pc) trivial ?_
  intro tr s a s' _ h hstep
  rcases hstep with hnext | henv
  · exact (next_move hnext).told h
  · rw [(env_drift henv).pc]
    refine h.snoc ?_
    cases a with
    | result ret => cases henv
    | _ => rfl

end told

variable {v ready : Int} {sets out out' : Sets} {files : Files} {is : List Nat}

private theorem scan_spec (h : scan sets files is ready out = (v, out')) (hv : 0 ≤ v) :
    (∀ c j, out' c j = (out c j || decide (j ∈ is) && meets sets files c j)) ∧
      v = ready + is.countP fun i => Cond.any (meets sets files · i) := by
  induction is generalizing ready out with
  | nil =>
    cases h
    simp
  | cons i is ih =>
    rw [scan] at h
    split_ifs at h with hwant
    · cases hf : files i with
      | none =>
        simp only [hf] at h
        cases h
        exact absurd hv (by decide)
      | some mask =>
        have hit : ∀ c, (sets c i && mask &&& c.bits != 0) = meets sets files c i := by simp [meets, hf]
        simp only [hf, hit] at h
        obtain ⟨ho, hn⟩ := ih h
        refine ⟨fun c j => ?_, ?_⟩
        · by_cases hj : j = i <;> simp +contextual [ho, hj]
        · rw [hn, countP_cons]
          split_ifs <;> omega
    · -- a descriptor of no set meets nothing
      have hno : ∀ c, meets sets files c i = false := by
        intro c
        cases c <;> simp_all [meets, Cond.any]
      obtain ⟨ho, hn⟩ := ih h
      refine ⟨fun c j => ?_, by simp [hn, hno, Cond.any]⟩
      by_cases hj : j = i <;> simp [ho, hj, hno]

/-- A descriptor that meets two conditions is counted once. -/
theorem countP_any (sets : Sets) (files : Files) (is : List Nat) :
    let total := is.countP (meets sets files .read) + is.countP (meets sets files .write) +
      is.countP (meets sets files .except)
    (is.countP fun i => Cond.any (meets sets files · i)) ≤ total ∧
    ((is.countP fun i => Cond.any (meets sets files · i)) = total ↔
      ∀ i ∈ is, ∀ c c', meets sets files c i → meets sets files c' i → c = c') := by
  induction is with
  | nil => simp
  | cons i is ih =>
    simp only [Cond.any] at ih
    obtain ⟨hle, hiff⟩ := ih
    have hone : (∀ c c', meets sets files c i → meets sets files c' i → c = c') ↔
        ¬(meets sets files .read i ∧ meets sets files .write i) ∧
        ¬(meets sets files .read i ∧ meets sets files .except i) ∧
        ¬(meets sets files .write i ∧ meets sets files .except i) := by
      constructor
      · intro h
        exact ⟨fun hc => Cond.noConfusion (h _ _ hc.1 hc.2), fun hc => Cond.noConfusion (h _ _ hc.1 hc.2),
          fun hc => Cond.noConfusion (h _ _ hc.1 hc.2)⟩
      · intro h c c' hc hc'
        cases c <;> cases c' <;> simp_all
    rw [forall_mem_cons, ← hiff, hone]
    simp only [countP_cons, Cond.any]
    cases meets sets files .read i <;> cases meets sets files .write i <;> cases meets sets files .except i <;>
      simp at hle ⊢ <;> omega

private theorem selectCtxCheck_count (nfds : Nat) (sets : Sets) (files : Files) (out out' : Sets) :
    (selectCtxCheck nfds sets files out).1 = (selectCtxCheck nfds sets files out').1 := by
  have hscan : ∀ is ready out out', (scan sets files is ready out).1 = (scan sets files is ready out').1 := by
    intro is
    induction is with
    | nil => exact fun _ _ _ => rfl
    | cons i is ih =>
      intro ready out out'
      rw [scan, scan]
      split
      · cases files i with
        | none => rfl
        | some mask => exact ih ..
      · exact ih ..
  exact hscan ..

private theorem outputs_concat (nfds : Nat) (sets : Sets) (found : List Files) (files : Files) :
    outputs nfds sets (found ++ [files]) = (selectCtxCheck nfds sets files (outputs nfds sets found)).2 := by
  rw [outputs, foldl_append]
  rfl

/-- A `select` that does not fail leaves in each set exactly the descriptors that meet its condition at the last
check, and it returns how many bits it left just if none of them meets two. -/
theorem select_exact [DecidableEq S] {nfds : Int} {c : Call Nat S} {found : List Files}
    (h : DoSelect nfds sets c v found out) (hv : 0 ≤ v) : ∃ files, found.getLast? = some files ∧
    (∀ c i, i < setBits nfds.toNat → out c i = (decide (i < nfds) && meets sets files c i)) ∧
    (let left c := (range nfds.toNat).countP (out c)
     v = left .read + left .write + left .except ↔
        ∀ i : Nat, i < nfds → ∀ c c', meets sets files c i → meets sets files c' i → c = c') := by
  unfold DoSelect at h
  split_ifs at h with hn
  · rw [h.1] at hv
    exact absurd hv (by decide)
  obtain ⟨rfl, _, _, _, _, _, tr, s, hrun, hpc, hresults⟩ := h
  have htold := run_told hrun
  rw [hpc] at htold
  have hlast := htold hv
  rw [hresults, getLast?_map, Option.map_eq_some_iff] at hlast
  obtain ⟨files, hfiles, hv'⟩ := hlast
  obtain ⟨front, rfl⟩ := getLast?_eq_some_iff.1 hfiles
  refine ⟨files, hfiles, ?_⟩
  have hcheck : selectCtxCheck nfds.toNat sets files (outputs nfds.toNat sets front) =
      (v, outputs nfds.toNat sets (front ++ [files])) := by
    rw [outputs_concat]
    exact Prod.ext ((selectCtxCheck_count ..).trans hv') rfl
  obtain ⟨ho, hcount⟩ := scan_spec hcheck hv
  have hout : ∀ c i, i < setBits nfds.toNat →
      outputs nfds.toNat sets (front ++ [files]) c i = (decide (i < nfds) && meets sets files c i) := by
    intro c i hi
    have hlt : i < nfds.toNat ↔ i < nfds := by omega
    simp [ho, hi, hlt]
  refine ⟨hout, ?_⟩
  have hleft : ∀ c, (range nfds.toNat).countP (outputs nfds.toNat sets (front ++ [files]) c) =
      (range nfds.toNat).countP (meets sets files c) := by
    intro c
    refine countP_congr fun i hi => ?_
    rw [mem_range] at hi
    have hb : i < setBits nfds.toNat := by rw [setBits]; omega
    have hlt : (i : Int) < nfds := by omega
    simp [hout c i hb, hlt]
  have hiff := (countP_any sets files (range nfds.toNat)).2
  have hrange : (∀ i : Nat, i < nfds → ∀ c c', meets sets files c i → meets sets files c' i → c = c') ↔
      ∀ i ∈ range nfds.toNat, ∀ c c', meets sets files c i → meets sets files c' i → c = c' :=
    forall_congr' fun i => by rw [mem_range, Int.lt_toNat]
  rw [hrange, ← hiff, hcount]
  simp only [hleft]
  omega

def allReady : Files := fun _ => some 3

/-- A test of two descriptors, both ready to be read and to be written, that are given for the conditions `p`. -/
def selectTwo (p : Sets) : Call Nat Nat := selectCall 2 p (fun fd => [fd]) true false 0

theorem doSelect_two {p : Sets} (tr : List (Act Nat Nat))
    (hrun : (tr.foldlM (exec (selectTwo p)) (init (fun _ => true) (fun _ => false) (fun _ => true) false 0)).any
      (·.pc = .done v) = true)
    (hres : results tr = [(selectCtxCheck 2 p allReady fun _ _ => false).1]) :
    DoSelect 2 p (selectTwo p) v [allReady] (outputs 2 p [allReady]) := by
  obtain ⟨s, hrun, hs⟩ := Run.exists_of_foldlM (fun _ _ _ _ => exec_step) hrun
  exact ⟨rfl, _, _, _, _, _, tr, s, hrun, of_decide_eq_true hs, hres⟩

/-- Descriptor 0 is given to be read, and descriptor 1 to be written. -/
def readWrite : Sets
  | .read, 0 | .write, 1 => true
  | _, _ => false

theorem select_exact_two : ∃ out, DoSelect 2 readWrite (selectTwo readWrite) 2 [allReady] out ∧
    out .read 0 = true ∧ out .write 1 = true ∧
    (2 : Int) = (range 2).countP (out .read) + (range 2).countP (out .write) + (range 2).countP (out .except) := by
  have h := doSelect_two (p := readWrite) (v := 2)
    [.start .first, .loop, .look 0 true, .loop, .loop, .look 1 true, .loop, .result 2]
    (by decide +kernel) (by decide +kernel)
  obtain ⟨files, hfiles, hout, hcount⟩ := select_exact h (by decide)
  obtain rfl := Option.some.inj hfiles
  refine ⟨_, h, (hout .read 0 (by decide)).trans (by decide), (hout .write 1 (by decide)).trans (by decide),
    hcount.2 ?_⟩
  intro i hi c c' hc hc'
  have hi2 : i = 0 ∨ i = 1 := by omega
  rcases hi2 with rfl | rfl <;> cases c <;> cases c' <;> first
    | rfl | exact absurd hc (by decide) | exact absurd hc' (by decide)

/-- A descriptor that is left in two sets counts once. -/
theorem select_counts_once : ∃ out, DoSelect 2 (fun _ i => i == 0) (selectTwo fun _ i => i == 0) 1 [allReady] out ∧
    out .read 0 = true ∧ out .write 0 = true :=
  ⟨_, doSelect_two [.start .first, .loop, .look 0 true, .loop, .result 1] (by decide +kernel) (by decide +kernel),
    by decide, by decide⟩

end Mos.Poll
