import Mos.Bpf.Filter

/-!
# What the verifier accepts

The pass over the instructions accepts exactly the filters whose instructions are well formed one by one (`InsnWf`)
and in which every scratch load comes after a store on every path to it.  It meets an instruction after all its
predecessors, so the word that it reads there is made of all the paths (`Exact`).
-/

namespace Mos.Bpf

open List Function BpfInsn Option

def opcodes : List Nat :=
  loadCodes ++ [2, 3, 4, 0x0c, 0x14, 0x1c, 0x24, 0x2c, 0x34, 0x3c, 0x44, 0x4c, 0x54, 0x5c, 0x64, 0x6c, 0x74, 0x7c,
    0x84, 0x94, 0x9c, 0xa4, 0xac, 5, 0x15, 0x1d, 0x25, 0x2d, 0x35, 0x3d, 0x45, 0x4d, 6, 0x16, 7, 0x87]

variable (p : BpfInsn)

def BpfInsn.IsLoad : Prop := p.code.toNat = 0x60 ∨ p.code.toNat = 0x61

def BpfInsn.IsStore : Prop := p.code.toNat = 2 ∨ p.code.toNat = 3

/-- Where the instruction at `i` may continue. -/
def BpfInsn.succs (i : Nat) : List Nat :=
  if p.code.toNat &&& 7 = 6 then []
  else if p.code.toNat = 5 then [i + 1 + p.k.toNat]
  else if p.code.toNat &&& 7 = 5 then [i + 1 + p.jt.toNat, i + 1 + p.jf.toNat]
  else [i + 1]

structure InsnWf (count i : Nat) : Prop where
  code : p.code.toNat ∈ opcodes
  slot : p.IsLoad ∨ p.IsStore → p.k.toNat < 16
  divisor : p.code.toNat = 0x34 ∨ p.code.toNat = 0x94 → p.k.toNat ≠ 0
  succ : ∀ t ∈ p.succs i, i < t ∧ t < count

/-- The slots stored after the instruction, for a word before it. -/
def BpfInsn.stored (word : Nat) : Nat :=
  if p.code.toNat = 2 ∨ p.code.toNat = 3 then (word &&& 0xffff) ||| (1 <<< p.k.toNat) else word &&& 0xffff

/-- The merges an instruction performs: none when it is not reachable. -/
def mergeAll (states : Nat → Nat) (i : Nat) (targets : List Nat) (mask : Nat) : Nat → Nat :=
  if states i ≠ 0 then targets.foldl (fun st t => merge st t mask) states else states

/-- The tests of `verifyInsn` on the opcode alone. -/
def codeOk (c : Nat) : Bool :=
  match c &&& 7 with
  | 0 | 1 => c ∈ loadCodes
  | 2 | 3 => c = 2 ∨ c = 3
  | 4 => ¬(c > 0xac ∨ c &&& 0xf0 > 0xa0 ∨ (c &&& 0xf0 = 0x80 ∧ c ≠ 0x84))
  | 5 => c = 5 ∨ ¬(c > 0x4d ∨ c &&& 0xf0 < 0x10)
  | 6 => c = 6 ∨ c = 0x16
  | _ => c = 7 ∨ c = 0x87

private theorem codeOk_iff (c : Nat) : codeOk c = true ↔ c ∈ opcodes := by
  by_cases hc : c < 256
  · have h : ∀ c < 256, codeOk c = decide (c ∈ opcodes) := by decide +kernel
    simp [h c hc]
  · have h : ∀ c ∈ opcodes, c < 256 := by decide
    refine ⟨fun hok => ?_, fun hm => absurd (h c hm) hc⟩
    unfold codeOk at hok
    have hl : ∀ c ∈ loadCodes, c < 256 := by decide
    split at hok <;> grind

private theorem divides_iff {c : Nat} (hc : c ∈ opcodes) (h4 : c &&& 7 = 4) :
    c &&& 8 = 0 ∧ (c &&& 0xf0 = 0x30 ∨ c &&& 0xf0 = 0x90) ↔ c = 0x34 ∨ c = 0x94 := by
  have h : ∀ c ∈ opcodes, c &&& 7 = 4 → (c &&& 8 = 0 ∧ (c &&& 0xf0 = 0x30 ∨ c &&& 0xf0 = 0x90) ↔ c = 0x34 ∨
    c = 0x94) := by
    decide
  exact h c hc h4

variable {p} {count i : Nat} {st st' : Nat → Nat} {b : Nat} {w : Nat}

private theorem testBit_and_low (w b : Nat) (hb : b < 16) : (w &&& 0xffff).testBit b = w.testBit b := by
  change (w &&& (2 ^ 16 - 1)).testBit b = _
  rw [Nat.testBit_and, Nat.testBit_two_pow_sub_one]
  simp [hb]

private theorem and_bit_iff {w k : Nat} (hk : k < 16) : w &&& 0xffff &&& (1 <<< k) = 0 ↔ ¬w.testBit k = true := by
  rw [Nat.one_shiftLeft, Nat.and_two_pow, testBit_and_low w k hk]
  simp

private theorem fallThrough_iff {mask : Nat} (hi : i < count) :
    fallThrough count i st mask = some st' ↔ i + 1 < count ∧ mergeAll st i [i + 1] mask = st' := by
  have hlt : ¬i + 1 = count ↔ i + 1 < count := by omega
  simp [fallThrough, mergeAll, hlt]

theorem succs_next (h5 : p.code.toNat &&& 7 ≠ 5) (h6 : p.code.toNat &&& 7 ≠ 6) : p.succs i = [i + 1] := by
  have hne : p.code.toNat ≠ 5 := fun h => h5 (by rw [h]; rfl)
  simp [succs, h5, h6, hne]

/-- The iteration of the loop at `i` accepts the instruction if it is well formed and loads no slot that some path to
it does not store. -/
theorem verifyInsn_iff (hi : i < count) : verifyInsn count i p st = some st' ↔ InsnWf p count i ∧
    (p.IsLoad → st i ≠ 0 → (st i).testBit p.k.toNat = true) ∧ mergeAll st i (p.succs i) (p.stored (st i)) = st' := by
  have hwf : InsnWf p count i ↔ p.code.toNat ∈ opcodes ∧ (p.IsLoad ∨ p.IsStore → p.k.toNat < 16) ∧
      (p.code.toNat = 0x34 ∨ p.code.toNat = 0x94 → p.k.toNat ≠ 0) ∧ ∀ t ∈ p.succs i, i < t ∧ t < count :=
    ⟨fun h => ⟨h.1, h.2, h.3, h.4⟩, fun h => ⟨h.1, h.2.1, h.2.2.1, h.2.2.2⟩⟩
  have hload : p.IsLoad → p.code.toNat &&& 7 < 2 := by rintro (h | h) <;> simp [h]
  have hstore : p.IsStore → p.code.toNat &&& 7 = 2 ∨ p.code.toNat &&& 7 = 3 := by rintro (h | h) <;> simp [h]
  have hdiv : p.code.toNat = 0x34 ∨ p.code.toNat = 0x94 → p.code.toNat &&& 7 = 4 := by rintro (h | h) <;> simp [h]
  have hplain : ¬p.IsStore → p.stored (st i) = st i &&& 0xffff := fun h => if_neg h
  rw [hwf, ← codeOk_iff]
  unfold verifyInsn codeOk
  dsimp only
  split
  case h_1 h | h_2 h =>
    have hst : ¬p.IsStore := mt hstore (by omega)
    simp only [ite_none_left_eq_some, fallThrough_iff hi, succs_next (p := p) (by omega) (by omega),
      hplain hst, hst, or_false, mem_singleton, forall_eq, not_not]
    grind [and_bit_iff, IsLoad]
  case h_3 h | h_4 h =>
    have hl : ¬p.IsLoad := mt hload (by omega)
    simp only [ite_none_left_eq_some, fallThrough_iff hi, succs_next (p := p) (by omega) (by omega),
      hl, false_or, mem_singleton, forall_eq, stored, IsStore]
    grind
  case h_5 h =>
    have hl : ¬p.IsLoad := mt hload (by omega)
    have hst : ¬p.IsStore := mt hstore (by omega)
    have hd := @divides_iff p.code.toNat
    rw [← codeOk_iff, codeOk] at hd
    simp only [h, ite_none_left_eq_some, fallThrough_iff hi, succs_next (p := p) (by omega) (by omega),
      hplain hst, hl, hst, or_false, mem_singleton, forall_eq, decide_eq_true_eq] at hd ⊢
    grind
  case h_6 h =>
    have hl : ¬p.IsLoad := mt hload (by omega)
    have hst : ¬p.IsStore := mt hstore (by omega)
    by_cases h5 : p.code.toNat = 5
    · have hs : p.succs i = [i + 1 + p.k.toNat] := by simp [succs, h5]
      simp only [h5, if_true, ite_none_left_eq_some, hplain hst, hs, mergeAll, foldl_cons, foldl_nil, mem_cons,
        not_mem_nil, or_false, forall_eq, hl, hst]
      grind
    · have hs : p.succs i = [i + 1 + p.jt.toNat, i + 1 + p.jf.toNat] := by simp [succs, h, h5]
      simp only [if_neg h5, ite_none_left_eq_some, hplain hst, hs, mergeAll, foldl_cons, foldl_nil, mem_cons,
        not_mem_nil, or_false, forall_eq_or_imp, forall_eq, hl, hst]
      grind
  case h_7 h =>
    have hl : ¬p.IsLoad := mt hload (by omega)
    have hst : ¬p.IsStore := mt hstore (by omega)
    have hs : p.succs i = [] := by simp [succs, h]
    simp only [ite_none_left_eq_some, hs, mergeAll, hl, hst, foldl_nil]
    grind
  case h_8 =>
    have h : p.code.toNat &&& 7 = 7 := by
      have := Nat.and_le_right (n := p.code.toNat) (m := 7)
      grind
    have hl : ¬p.IsLoad := mt hload (by omega)
    have hst : ¬p.IsStore := mt hstore (by omega)
    simp only [ite_none_left_eq_some, fallThrough_iff hi, succs_next (by omega) (by omega),
      hplain hst, hl, hst, or_false, mem_singleton, forall_eq, decide_eq_true_eq]
    grind

/-! ### Words -/

theorem testBit_reach (hb : b < 16) : (0x10000).testBit b = false := by
  change (2 ^ 16).testBit b = false
  rw [Nat.testBit_two_pow]
  simp
  omega

private theorem reach_ne_zero_iff : w &&& 0x10000 ≠ 0 ↔ w.testBit 16 = true := by
  rw [show 0x10000 = 2 ^ 16 from rfl, Nat.and_two_pow]
  simp

/-- The words after merges into `targets`: a word that is not marked is zero, and a target keeps the slots of
`mask`. -/
structure Merged (targets : List Nat) (mask : Nat) (st st' : Nat → Nat) : Prop where
  reach : ∀ q, (st' q).testBit 16 = true ↔ q ∈ targets ∨ (st q).testBit 16 = true
  zero : ∀ q, ¬(st' q).testBit 16 = true → st' q = 0
  bit : ∀ q, ∀ b < 16, (st' q).testBit b = true ↔
    (q ∈ targets → mask.testBit b = true ∧ ((st q).testBit 16 = true → (st q).testBit b = true)) ∧
    (q ∉ targets → (st q).testBit b = true)

variable {targets : List Nat} {mask : Nat}

theorem merge_reach (t q : Nat) : (merge st t mask q).testBit 16 = true ↔ q = t ∨ (st q).testBit 16 = true := by
  have h16 : (0x10000).testBit 16 = true := by decide
  unfold merge
  by_cases h : q = t
  · subst h
    rw [update_self]
    split <;> simp [h16]
  · simp [h]

theorem merge_bit (t q : Nat) (hb : b < 16) : (merge st t mask q).testBit b = true ↔
    (q = t → mask.testBit b = true ∧ ((st q).testBit 16 = true → (st q).testBit b = true)) ∧
    (q ≠ t → (st q).testBit b = true) := by
  unfold merge
  by_cases h : q = t
  swap
  · simp [h]
  subst h
  rw [update_self]
  split
  · rename_i hr
    rw [reach_ne_zero_iff] at hr
    rw [Nat.testBit_or, testBit_reach hb, testBit_and_low _ _ hb]
    simp [hr, and_comm]
  · rename_i hr
    rw [reach_ne_zero_iff] at hr
    rw [Nat.testBit_or, testBit_reach hb]
    simp [hr]

theorem merged_foldl (mask : Nat) (targets : List Nat) (h0 : ∀ q, ¬(st q).testBit 16 = true → st q = 0) :
    Merged targets mask st (targets.foldl (fun st t => merge st t mask) st) := by
  induction targets generalizing st with
  | nil => exact ⟨by simp, h0, by simp⟩
  | cons t ts ih =>
    have hm : ∀ q, ¬(merge st t mask q).testBit 16 = true → merge st t mask q = 0 := by
      intro q hq
      rw [merge_reach, not_or] at hq
      rw [merge, update_of_ne hq.1]
      exact h0 q hq.2
    obtain ⟨h1, h2, h3⟩ := ih hm
    refine ⟨?_, h2, ?_⟩
    · intro q
      rw [foldl_cons, h1, merge_reach, mem_cons]
      tauto
    · intro q b hb
      rw [foldl_cons, h3 q b hb, merge_bit t q hb, merge_reach, mem_cons]
      grind

/-! ### Paths -/

/-- A path from the first instruction to another, with the instructions on the way. -/
inductive Path (f : BpfFilter) : List Nat → Nat → Prop
  | start : Path f [] 0
  | step {l : List Nat} {i t : Nat} : Path f l i → i < f.count → t ∈ (f.instructions i).succs i → Path f (l ++ [i]) t

def StoredOn (f : BpfFilter) (l : List Nat) (slot : Nat) : Prop :=
  ∃ j ∈ l, (f.instructions j).IsStore ∧ (f.instructions j).k.toNat = slot

structure WellFormed (f : BpfFilter) : Prop where
  insn : ∀ i < f.count, InsnWf (f.instructions i) f.count i
  stored : ∀ l i, Path f l i → i < f.count → (f.instructions i).IsLoad → StoredOn f l (f.instructions i).k.toNat

/-- The words say what the paths through the first `n` instructions store. -/
structure Exact (f : BpfFilter) (n : Nat) (st : Nat → Nat) : Prop where
  reach : ∀ q, (st q).testBit 16 = true ↔ ∃ l, Path f l q ∧ ∀ j ∈ l, j < n
  zero : ∀ q, ¬(st q).testBit 16 = true → st q = 0
  bit : ∀ q, (st q).testBit 16 = true → ∀ b < 16,
    ((st q).testBit b = true ↔ ∀ l, Path f l q → (∀ j ∈ l, j < n) → StoredOn f l b)

variable {f : BpfFilter} {n q b : Nat} {l : List Nat}

theorem lt_of_mem_succs {t : Nat} (h : t ∈ p.succs i) : i < t := by
  unfold succs at h
  grind

theorem Path.lt (h : Path f l q) : ∀ j ∈ l, j < q := by
  induction h with
  | start => simp
  | step _ _ ht ih =>
    have := lt_of_mem_succs ht
    grind

/-- A path through the instructions up to `i` does not meet `i`, or has it as its last one. -/
theorem path_le_iff (hi : i < f.count) : (Path f l q ∧ ∀ j ∈ l, j < i + 1) ↔ (Path f l q ∧ ∀ j ∈ l, j < i) ∨
    ∃ l', l = l' ++ [i] ∧ Path f l' i ∧ q ∈ (f.instructions i).succs i := by
  constructor
  · rintro ⟨h, hl⟩
    cases h with
    | start => exact .inl ⟨.start, by simp⟩
    | @step l j _ hp hj ht =>
      have hlt := hp.lt
      by_cases he : j = i
      · subst he
        exact .inr ⟨l, rfl, hp, ht⟩
      · have hji := hl j (by simp)
        exact .inl ⟨hp.step hj ht, by grind⟩
  · rintro (⟨h, hl⟩ | ⟨l', rfl, h, ht⟩)
    · exact ⟨h, fun j hj => Nat.lt_succ_of_lt (hl j hj)⟩
    · have hlt := h.lt
      exact ⟨h.step hi ht, by grind⟩

theorem stored_testBit (p : BpfInsn) (hb : b < 16) :
    (p.stored w).testBit b = true ↔ w.testBit b = true ∨ p.IsStore ∧ p.k.toNat = b := by
  unfold stored IsStore
  split <;> rename_i h
  · rw [Nat.testBit_or, testBit_and_low _ _ hb, Nat.one_shiftLeft, Nat.testBit_two_pow]
    simp [h]
  · rw [testBit_and_low _ _ hb]
    simp [h]

theorem storedOn_snoc : StoredOn f (l ++ [i]) b ↔
    StoredOn f l b ∨ (f.instructions i).IsStore ∧ (f.instructions i).k.toNat = b := by
  simp only [StoredOn, mem_append, mem_singleton]
  grind

theorem Exact.path_iff (h : Exact f i st) : st i ≠ 0 ↔ ∃ l, Path f l i := by
  have hr := h.reach i
  have hz := h.zero i
  constructor
  · intro hne
    obtain ⟨l, hl, -⟩ := hr.1 (by_contra fun h0 => hne (hz h0))
    exact ⟨l, hl⟩
  · rintro ⟨l, hl⟩ h0
    have := hr.2 ⟨l, hl, hl.lt⟩
    simp [h0] at this

theorem Exact.step (h : Exact f i st) (hi : i < f.count) :
    Exact f (i + 1) (mergeAll st i ((f.instructions i).succs i) ((f.instructions i).stored (st i))) := by
  have hpath := h.path_iff
  unfold mergeAll
  split
  · rename_i hne
    obtain ⟨l0, hl0⟩ := hpath.1 hne
    have hbit := h.bit i ((h.reach i).mpr ⟨l0, hl0, hl0.lt⟩)
    obtain ⟨h1, h2, h3⟩ := merged_foldl ((f.instructions i).stored (st i)) ((f.instructions i).succs i) h.zero
    refine ⟨?_, h2, ?_⟩
    · intro q
      simp only [h1, h.reach, path_le_iff hi]
      grind
    · intro q hq b hb
      rw [h1] at hq
      rw [h3 q b hb, stored_testBit _ hb, hbit b hb]
      -- the paths that were there before, and those through `i`
      have hold : ((st q).testBit 16 = true → (st q).testBit b = true) ↔
          ∀ l, Path f l q → (∀ j ∈ l, j < i) → StoredOn f l b := by
        have hr := h.reach q
        have hb' := h.bit q
        grind
      have hnew : (∀ l, Path f l q → (∀ j ∈ l, j < i + 1) → StoredOn f l b) ↔
          (∀ l, Path f l q → (∀ j ∈ l, j < i) → StoredOn f l b) ∧
          (q ∈ (f.instructions i).succs i → ∀ l, Path f l i → StoredOn f (l ++ [i]) b) := by
        simp only [← and_imp, path_le_iff hi]
        grind
      rw [hnew, ← hold]
      simp only [storedOn_snoc]
      have hlt := @Path.lt f
      grind
  · rename_i hne
    refine ⟨?_, h.zero, ?_⟩
    · intro q
      rw [h.reach]
      simp only [path_le_iff hi]
      grind
    · intro q hq b hb
      rw [h.bit q hq b hb]
      simp only [← and_imp, path_le_iff hi]
      grind

theorem exact_init (f : BpfFilter) : Exact f 0 initStates := by
  have hnil : ∀ l q, Path f l q → (∀ j ∈ l, j < 0) → l = [] ∧ q = 0 := by
    intro l q h hl
    cases h with
    | start => exact ⟨rfl, rfl⟩
    | step => exact absurd (hl _ (mem_append_right _ mem_cons_self)) (Nat.not_lt_zero _)
  refine ⟨fun q => ?_, fun q hq => ?_, fun q hq b hb => ?_⟩
  · by_cases h : q = 0
    · subst h
      exact iff_of_true (by decide) ⟨[], .start, by simp⟩
    · refine iff_of_false (by simp [initStates, h]) ?_
      rintro ⟨l, hl, hlt⟩
      exact h (hnil l q hl hlt).2
  · by_cases h : q = 0
    · subst h
      exact absurd (by decide) hq
    · simp [initStates, h]
  · by_cases h : q = 0
    · subst h
      refine iff_of_false (by simp [initStates, testBit_reach hb]) fun hall => ?_
      obtain ⟨j, hj, -⟩ := hall [] .start (by simp)
      exact not_mem_nil hj
    · simp [initStates, h] at hq

/-- The loop from `i` on accepts if the rest of the filter is in order. -/
theorem verifyLoop_iff (h : Exact f i st) (hn : i + n = f.count) : (verifyLoop f n i st).isSome = true ↔
    ∀ j, i ≤ j → j < f.count → InsnWf (f.instructions j) f.count j ∧
      ((f.instructions j).IsLoad → ∀ l, Path f l j → StoredOn f l (f.instructions j).k.toNat) := by
  induction n generalizing i st with
  | zero =>
    refine iff_of_true rfl fun j h1 h2 => ?_
    omega
  | succ n ih =>
    have hi : i < f.count := by omega
    -- the word holds the slot if every path stores it
    have hload : InsnWf (f.instructions i) f.count i → (((f.instructions i).IsLoad → st i ≠ 0 →
        (st i).testBit (f.instructions i).k.toNat = true) ↔ ((f.instructions i).IsLoad →
          ∀ l, Path f l i → StoredOn f l (f.instructions i).k.toNat)) := by
      intro hwf
      refine imp_congr_right fun hl => ?_
      have hslot := hwf.slot (.inl hl)
      rw [h.path_iff]
      constructor
      · intro hbit l hp
        exact (h.bit i ((h.reach i).mpr ⟨l, hp, hp.lt⟩) _ hslot).mp (hbit ⟨l, hp⟩) l hp hp.lt
      · rintro hall ⟨l, hp⟩
        exact (h.bit i ((h.reach i).mpr ⟨l, hp, hp.lt⟩) _ hslot).mpr fun l hp _ => hall l hp
    have hv : ∀ st', verifyInsn f.count i (f.instructions i) st = some st' ↔ _ := fun st' => verifyInsn_iff hi
    unfold verifyLoop
    split
    · rename_i hnone
      refine iff_of_false (by simp) fun hall => ?_
      obtain ⟨hwf, hl⟩ := hall i le_rfl hi
      have := (hv _).mpr ⟨hwf, (hload hwf).mpr hl, rfl⟩
      rw [hnone] at this
      cases this
    · rename_i st' hsome
      obtain ⟨hwf, hl, rfl⟩ := (hv st').mp hsome
      rw [ih (h.step hi) (by omega)]
      constructor
      · intro hall j h1 h2
        rcases Nat.eq_or_lt_of_le h1 with rfl | hlt
        · exact ⟨hwf, (hload hwf).mp hl⟩
        · exact hall j hlt h2
      · exact fun hall j h1 h2 => hall j (Nat.le_of_succ_le h1) h2

theorem accepts_iff (f : BpfFilter) : (verifyLoop f f.count 0 initStates).isSome = true ↔ WellFormed f := by
  rw [verifyLoop_iff (exact_init f) (Nat.zero_add _)]
  constructor
  · exact fun h => ⟨fun i hi => (h i (Nat.zero_le i) hi).1, fun l i hp hi hl => (h i (Nat.zero_le i) hi).2 hl l hp⟩
  · exact fun h j _ hj => ⟨h.insn j hj, fun hl l hp => h.stored l j hp hj hl⟩

/-- A filter of 1 to 4096 instructions passes the verifier if and only if it is well formed. -/
theorem mosBpfVerify_iff (f : BpfFilter) (h0 : 1 ≤ f.count) (h1 : f.count ≤ 4096) :
    mosBpfVerify (some f) true = 0 ↔ WellFormed f := by
  rw [← accepts_iff]
  have hcount : ¬(f.count = 0 ∨ f.count > 4096) := by omega
  simp only [mosBpfVerify, if_neg hcount, Bool.not_true, Bool.false_eq_true, if_false]
  split_ifs with h
  · simp [h]
  · simp [h, einval]

/-- A load, a jump with both branches, and their two returns. -/
theorem mosBpfVerify_iff_ret : WellFormed ⟨4, fun i => if i = 0 then ⟨48, 0, 0, 3⟩ else if i = 1 then ⟨21, 0, 1,
    7⟩ else
    ⟨6, 0, 0, 0⟩⟩ :=
  (mosBpfVerify_iff _ (by decide) (by decide)).mp (by decide)

end Mos.Bpf
