import Mos.Bpf.Verify

/-!
# A verified filter runs safely

The words that the verifier ends with are exact (`Mos.Bpf.Exact`), so every successor's word lies below what an
instruction leaves stored (`Covers`).  The interpreter's invariant `Sound` then says that the current instruction is
marked reachable and that every slot in its word was stored earlier in the run; since all jumps go forward, the number
of iterations is bounded by the program counter.
-/

namespace Mos.Bpf

open List Function

/-- The word of `pc` marks it reachable, and claims no slot outside `mask`. -/
def Covers (states : Nat → Nat) (pc mask : Nat) : Prop :=
  (states pc).testBit 16 = true ∧ ∀ b < 16, (states pc).testBit b = true → mask.testBit b = true

/-- The facts established by an accepted iteration at instruction `i` whose word is `word`: it continues only at
`targets`, it uses only scratch slots below 16, it reads only slots of its word, and every slot of `out` is in its
word or stored by it. -/
structure InsnOk (count i : Nat) (p : BpfInsn) (word : Nat) (targets : List Nat) (out : Nat) : Prop where
  forward : ∀ t ∈ targets, i < t ∧ t < count
  next_mem : ∀ data length s s', s.pc = i → (bpfStep p data length s).outcome = .next s' → s'.pc ∈ targets
  load_ok : ∀ data length s slot, .scratchLoad slot ∈ (bpfStep p data length s).events →
    slot < 16 ∧ (word ≠ 0 → word.testBit slot = true)
  store_ok : ∀ data length s slot, .scratchStore slot ∈ (bpfStep p data length s).events → slot < 16
  out_ok : ∀ data length s, ∀ b < 16, out.testBit b = true →
    word.testBit b = true ∨ .scratchStore b ∈ (bpfStep p data length s).events

variable {s s' : BpfState} {e : BpfEvent} {p : BpfInsn} {data : Nat → UInt8} {length : UInt32}

private theorem advance_pc {skip : Nat} (h : s.pc + skip + 1 < 2 ^ 32) : (s.advance skip).pc = s.pc + 1 + skip := by
  simp only [BpfState.advance]
  rw [Nat.mod_eq_of_lt (a := s.pc + skip) (by omega), Nat.mod_eq_of_lt h]
  omega

private theorem setLoaded_pc (s : BpfState) (code : Nat) (v : UInt32) : (s.setLoaded code v).pc = s.pc := by
  unfold BpfState.setLoaded
  split <;> rfl

private theorem stepLoad_next (h : (stepLoad p data length s).outcome = .next s') : s'.pc = (s.advance 0).pc := by
  unfold stepLoad at h
  simp only at h
  split_ifs at h <;> cases h <;> simp [BpfState.advance, setLoaded_pc]

private theorem stepLoad_events (h : e ∈ (stepLoad p data length s).events) :
    (e = .scratchLoad p.k.toNat ∧ p.code.toNat &&& 0xe0 = 0x60) ∨ ∃ offset size, e = .packetLoad offset size ∧
        (offset + size ≤ length.toNat ∨ (stepLoad p data length s).outcome = .ret 0) := by
  unfold stepLoad at h ⊢
  simp only at h ⊢
  split_ifs at h ⊢ with h1 h2 h3 h4
  · left; exact ⟨by simpa using h, h1⟩
  · simp at h
  all_goals first
    | (simp at h; done)
    | (right
       refine ⟨_, _, by simpa using h, ?_⟩
       first
         | (right; rfl)
         | (left; omega))

private theorem stepAlu_next (h : (stepAlu p s).outcome = .next s') : s'.pc = (s.advance 0).pc := by
  unfold stepAlu at h
  simp only at h
  split at h <;> (try split_ifs at h) <;> cases h <;> rfl

private theorem stepAlu_events (h : e ∈ (stepAlu p s).events) :
    (∃ d, e = .divide d ∧ d ≠ 0) ∨ ∃ n, e = .shift n ∧ n < 32 := by
  unfold stepAlu at h
  simp only at h
  generalize (if p.code.toNat &&& 8 ≠ 0 then s.x else p.k) = value at h
  split at h <;> (try split_ifs at h with hv) <;> simp only [not_mem_nil, mem_singleton] at h
  · exact .inl ⟨_, h, hv⟩
  · exact .inr ⟨_, h, by simpa [UInt32.le_iff_toNat_le] using hv⟩
  · exact .inr ⟨_, h, by simpa [UInt32.le_iff_toNat_le] using hv⟩
  · exact .inl ⟨_, h, hv⟩

section Insn

variable {count i slot : Nat} {p : BpfInsn} {data : Nat → UInt8} {length : UInt32}

private theorem bpfStep_next (hwf : InsnWf p count i) (hc : count ≤ 4096) (hpc : s.pc = i)
    (h : (bpfStep p data length s).outcome = .next s') : s'.pc ∈ p.succs i := by
  have hskip : ∀ {skip : Nat}, i + 1 + skip ∈ p.succs i → (s.advance skip).pc = i + 1 + skip := by
    intro skip ht
    have := hwf.succ _ ht
    rw [advance_pc (by omega), hpc]
  have hplain : s'.pc = (s.advance 0).pc → p.code.toNat &&& 7 ≠ 5 → p.code.toNat &&& 7 ≠ 6 → s'.pc ∈ p.succs i := by
    intro heq h5 h6
    have hs : p.succs i = [i + 1] := succs_next h5 h6
    rw [heq, hskip (by rw [hs]; exact mem_cons_self), hs]
    exact mem_cons_self
  unfold bpfStep at h
  split at h
  case h_1 hcl | h_2 hcl => exact hplain (stepLoad_next h) (by omega) (by omega)
  case h_3 hcl | h_4 hcl =>
    cases h
    exact hplain rfl (by omega) (by omega)
  case h_5 hcl => exact hplain (stepAlu_next h) (by omega) (by omega)
  case h_6 hcl =>
    unfold stepJump at h
    by_cases h5 : p.code.toNat = 5
    · have hs : p.succs i = [i + 1 + p.k.toNat] := by simp [BpfInsn.succs, h5]
      rw [if_pos h5] at h
      cases h
      rw [hskip (by simp [hs]), hs]
      exact mem_cons_self
    · have hs : p.succs i = [i + 1 + p.jt.toNat, i + 1 + p.jf.toNat] := by simp [BpfInsn.succs, hcl, h5]
      rw [if_neg h5] at h
      cases h
      rw [hskip (by split <;> simp [hs]), hs]
      split <;> simp
  case h_7 => cases h
  case h_8 n0 n1 n2 n3 n4 n5 n6 =>
    cases h
    exact hplain (by split <;> rfl) n5 n6

private theorem bpfStep_load (hcode : p.code.toNat ∈ opcodes)
    (h : .scratchLoad slot ∈ (bpfStep p data length s).events) : p.IsLoad ∧ slot = p.k.toNat := by
  have hload : ∀ c ∈ opcodes, c &&& 7 = 0 ∨ c &&& 7 = 1 → c &&& 0xe0 = 0x60 → c = 0x60 ∨ c = 0x61 := by decide
  unfold bpfStep at h
  split at h
  case h_1 hcl | h_2 hcl =>
    rcases stepLoad_events h with ⟨he, hm⟩ | ⟨_, _, he, _⟩
    · cases he
      exact ⟨hload _ hcode (by omega) hm, rfl⟩
    · cases he
  case h_5 => rcases stepAlu_events h with ⟨_, he, _⟩ | ⟨_, he, _⟩ <;> cases he
  case h_6 =>
    unfold stepJump at h
    split at h <;> simp at h
  all_goals simp at h

private theorem bpfStep_store (hcode : p.code.toNat ∈ opcodes) :
    .scratchStore slot ∈ (bpfStep p data length s).events ↔ p.IsStore ∧ p.k.toNat = slot := by
  have hstore : ∀ c ∈ opcodes, c &&& 7 = 2 ∨ c &&& 7 = 3 ↔ c = 2 ∨ c = 3 := by decide
  have hiff : p.IsStore ↔ p.code.toNat &&& 7 = 2 ∨ p.code.toNat &&& 7 = 3 := (hstore _ hcode).symm
  rw [hiff]
  unfold bpfStep
  split
  case h_1 hcl | h_2 hcl =>
    refine iff_of_false (fun h => ?_) (by omega)
    rcases stepLoad_events h with ⟨he, -⟩ | ⟨_, _, he, _⟩ <;> cases he
  case h_3 hcl | h_4 hcl => simp [hcl, eq_comm]
  case h_5 hcl =>
    refine iff_of_false (fun h => ?_) (by omega)
    rcases stepAlu_events h with ⟨_, he, _⟩ | ⟨_, he, _⟩ <;> cases he
  case h_6 hcl =>
    unfold stepJump
    split <;> simp [hcl]
  case h_7 hcl => simp [hcl]
  case h_8 => simp_all

/-- A well-formed instruction keeps what the verifier grants for it. -/
theorem InsnWf.ok {word : Nat} (hwf : InsnWf p count i) (hc : count ≤ 4096)
    (hload : p.IsLoad → word ≠ 0 → word.testBit p.k.toNat = true) : InsnOk count i p word (p.succs i)
    (p.stored word) := by
  refine ⟨hwf.succ, fun data length s s' => bpfStep_next hwf hc, ?_, ?_, ?_⟩
  · intro data length s slot he
    obtain ⟨hl, rfl⟩ := bpfStep_load hwf.code he
    exact ⟨hwf.slot (.inl hl), hload hl⟩
  · intro data length s slot he
    obtain ⟨hst, rfl⟩ := (bpfStep_store hwf.code).mp he
    exact hwf.slot (.inr hst)
  · intro data length s b hb hbit
    rw [bpfStep_store hwf.code]
    exact (stored_testBit p hb).mp hbit

end Insn

variable {f : BpfFilter} {data : Nat → UInt8} {length : UInt32} {words : Nat → Nat} {n : Nat}

/-- The outcome of an accepted verification. -/
structure Verified (f : BpfFilter) (words : Nat → Nat) : Prop where
  count_pos : 0 < f.count
  count_le : f.count ≤ 4096
  entry : words 0 = 0x10000
  insn : ∀ j < f.count, ∃ targets out, InsnOk f.count j (f.instructions j) (words j) targets out ∧
    (words j ≠ 0 → ∀ t ∈ targets, Covers words t out)

private theorem mergeAll_of_not_mem {st : Nat → Nat} {targets : List Nat} {q : Nat} (i mask : Nat) (h : q ∉ targets) :
    mergeAll st i targets mask q = st q := by
  unfold mergeAll
  split
  · clear * - h
    induction targets generalizing st with
    | nil => rfl
    | cons t ts ih =>
      rw [mem_cons, not_or] at h
      rw [foldl_cons, ih h.2, merge, update_of_ne h.1]
  · rfl

/-- No instruction continues at the first one, so its word stays as it was set. -/
private theorem exact_words (hn : n ≤ f.count) : ∃ words, Exact f n words ∧ words 0 = 0x10000 := by
  induction n with
  | zero => exact ⟨initStates, exact_init f, update_self _ _ _⟩
  | succ n ih =>
    obtain ⟨words, hw, h0⟩ := ih (by omega)
    refine ⟨_, hw.step (by omega), (mergeAll_of_not_mem _ _ fun h => ?_).trans h0⟩
    have := lt_of_mem_succs h
    omega

/-- Every path to an instruction goes on to its successors, so their words claim no more than it leaves stored. -/
theorem Exact.covers (h : Exact f f.count words) {j t : Nat} (hj : j < f.count) (hne : words j ≠ 0)
    (ht : t ∈ (f.instructions j).succs j) : Covers words t ((f.instructions j).stored (words j)) := by
  have hreach : ∀ {q l}, Path f l q → q ≤ f.count → ∀ i ∈ l, i < f.count := by
    intro q l hl hq i hi
    have := hl.lt i hi
    omega
  have hmark : (words j).testBit 16 = true := by_contra fun hm => hne (h.zero j hm)
  have hsnoc : ∀ {l}, Path f l j → ∀ i ∈ l ++ [j], i < f.count := by
    intro l hl
    exact forall_mem_append.2 ⟨hreach hl (by omega), forall_mem_singleton.2 hj⟩
  obtain ⟨l0, hl0, -⟩ := (h.reach j).mp hmark
  have htmark := (h.reach t).mpr ⟨_, hl0.step hj ht, hsnoc hl0⟩
  refine ⟨htmark, fun b hb hbit => (stored_testBit _ hb).mpr ?_⟩
  by_cases hst : (f.instructions j).IsStore ∧ (f.instructions j).k.toNat = b
  · exact .inr hst
  · refine .inl ((h.bit j hmark b hb).mpr fun l hl _ => ?_)
    have hon := (h.bit t htmark b hb).mp hbit _ (hl.step hj ht) (hsnoc hl)
    exact (storedOn_snoc.1 hon).resolve_right hst

private theorem verified_of_accept {zallocOk : Bool} (h : mosBpfVerify (some f) zallocOk = 0) :
    ∃ words, Verified f words := by
  unfold mosBpfVerify at h
  simp only [einval, enomem] at h
  split_ifs at h with h1 h2 h3
  have hw := (accepts_iff f).mp h3
  obtain ⟨words, hex, h0⟩ := exact_words le_rfl
  refine ⟨words, by omega, by omega, h0, fun j hj => ⟨_, _, (hw.insn j hj).ok (by omega) fun hl hne => ?_,
    fun hne t ht => hex.covers hj hne ht⟩⟩
  have hmark : (words j).testBit 16 = true := by_contra fun hm => hne (hex.zero j hm)
  exact (hex.bit j hmark _ ((hw.insn j hj).slot (.inl hl))).mpr fun l hp _ => hw.stored l j hp hj hl

/-! ### Runs of a verified filter -/

/-- Slot `slot` was stored in one of the first `n` iterations of the run. -/
def StoredBefore (f : BpfFilter) (data : Nat → UInt8) (length : UInt32) (n slot : Nat) : Prop :=
  ∃ m s, m < n ∧ RunReaches f data length m s ∧
    .scratchStore slot ∈ (bpfStep (f.instructions s.pc) data length s).events

/-- The invariant of a run: the instruction is inside the program and marked reachable, the slots of its word have
been stored, and every iteration so far has moved the program counter forward. -/
structure Sound (f : BpfFilter) (data : Nat → UInt8) (length : UInt32) (words : Nat → Nat) (n : Nat)
    (s : BpfState) : Prop where
  pc_lt : s.pc < f.count
  le_pc : n ≤ s.pc
  reach : (words s.pc).testBit 16 = true
  stored : ∀ b < 16, (words s.pc).testBit b = true → StoredBefore f data length n b

private theorem word_ne_zero {w : Nat} (h : w.testBit 16 = true) : w ≠ 0 := by
  rintro rfl
  simp at h

section

variable (hv : Verified f words)

include hv

theorem Sound.step (hr : RunReaches f data length n s) (hs : Sound f data length words n s)
    (hn : (bpfStep (f.instructions s.pc) data length s).outcome = .next s') :
    Sound f data length words (n + 1) s' := by
  obtain ⟨targets, out, hok, hcov⟩ := hv.insn s.pc hs.pc_lt
  have hmem := hok.next_mem data length s s' rfl hn
  have hfw := hok.forward _ hmem
  have hle := hs.le_pc
  obtain ⟨hreach, hmask⟩ := hcov (word_ne_zero hs.reach) _ hmem
  refine ⟨hfw.2, by omega, hreach, fun b hb hbit => ?_⟩
  rcases hok.out_ok data length s b hb (hmask b hb hbit) with hw | he
  · obtain ⟨m, sm, hm, h1, h2⟩ := hs.stored b hb hw
    exact ⟨m, sm, by omega, h1, h2⟩
  · exact ⟨n, s, by omega, hr, he⟩

theorem RunReaches.sound (h : RunReaches f data length n s) : Sound f data length words n s := by
  induction h with
  | start =>
    have e : words initState.pc = 0x10000 := hv.entry
    refine ⟨hv.count_pos, Nat.zero_le _, by rw [e]; decide, fun b hb hbit => ?_⟩
    rw [e, testBit_reach hb] at hbit
    cases hbit
  | step hr _ hn ih => exact ih.step hv hr hn

/-- From a state of the run, as many iterations as there are instructions left are enough to return. -/
private theorem runLoop_returns : ∀ (fuel n : Nat) (s : BpfState),
    RunReaches f data length n s → f.count ≤ fuel + s.pc → ∃ v, runLoop f data length fuel s = some v := by
  intro fuel
  induction fuel with
  | zero =>
    intro n s hr hle
    have := (hr.sound hv).pc_lt
    omega
  | succ fuel ih =>
    intro n s hr hle
    have hs := hr.sound hv
    unfold runLoop
    rw [if_pos hs.pc_lt]
    split
    · exact ⟨_, rfl⟩
    rename_i s' hn
    have hr' := RunReaches.step hr hs.pc_lt hn
    obtain ⟨targets, out, hok, _⟩ := hv.insn s.pc hs.pc_lt
    have := (hok.forward _ (hok.next_mem data length s s' rfl hn)).1
    exact ih (n + 1) s' hr' (by omega)

end

/-- What the interpreter's own tests guarantee: packet loads are inside the packet or return the failure value,
divisors are not zero, and shifts are by less than the word size. -/
def EventOk (length : UInt32) (outcome : BpfOutcome) : BpfEvent → Prop
  | .packetLoad offset size => offset + size ≤ length.toNat ∨ outcome = .ret 0
  | .divide d => d ≠ 0
  | .shift n => n < 32
  | .scratchLoad _ | .scratchStore _ => True

private theorem bpfStep_events (he : e ∈ (bpfStep p data length s).events) :
    EventOk length (bpfStep p data length s).outcome e := by
  have hload : (bpfStep p data length s = stepLoad p data length s) ∨ (bpfStep p data length s = stepAlu p s) ∨
      ∀ e ∈ (bpfStep p data length s).events, ∃ slot, e = .scratchStore slot := by
    unfold bpfStep stepJump
    split <;> (try split_ifs) <;> simp
  rcases hload with h | h | h
  · rw [h] at he ⊢
    rcases stepLoad_events he with ⟨rfl, _⟩ | ⟨offset, size, rfl, hin⟩
    · trivial
    · exact hin
  · rw [h] at he
    rcases stepAlu_events he with ⟨d, rfl, hd⟩ | ⟨n, rfl, hn⟩
    · exact hd
    · exact hn
  · obtain ⟨slot, rfl⟩ := h e he
    trivial

/-- What the iteration from state `s`, the `n`-th of the run, may do. -/
structure SafeStep (f : BpfFilter) (data : Nat → UInt8) (length : UInt32) (n : Nat) (s : BpfState) : Prop where
  pc_lt : s.pc < f.count
  scratch_load : ∀ slot, .scratchLoad slot ∈ (bpfStep (f.instructions s.pc) data length s).events →
    slot < 16 ∧ StoredBefore f data length n slot
  scratch_store : ∀ slot, .scratchStore slot ∈ (bpfStep (f.instructions s.pc) data length s).events → slot < 16
  packet : ∀ offset size, .packetLoad offset size ∈ (bpfStep (f.instructions s.pc) data length s).events →
    offset + size ≤ length.toNat ∨ (bpfStep (f.instructions s.pc) data length s).outcome = .ret 0
  divide : ∀ d, .divide d ∈ (bpfStep (f.instructions s.pc) data length s).events → d ≠ 0
  shift : ∀ n, .shift n ∈ (bpfStep (f.instructions s.pc) data length s).events → n < 32

/-- A filter accepted by the verifier returns within `count` iterations on every packet, never leaves the program,
and every iteration is safe. -/
theorem mosBpfRun_safe (f : BpfFilter) (zallocOk : Bool) (h : mosBpfVerify (some f) zallocOk = 0)
    (data : Nat → UInt8) (length : UInt32) : (∃ v, mosBpfRun (some f) data length f.count = some v) ∧
    ∀ n s, RunReaches f data length n s → n < f.count ∧ SafeStep f data length n s := by
  obtain ⟨words, hv⟩ := verified_of_accept h
  refine ⟨runLoop_returns hv f.count 0 initState .start (Nat.le_add_right _ _), fun n s hr => ?_⟩
  have hs := hr.sound hv
  obtain ⟨targets, out, hok, _⟩ := hv.insn s.pc hs.pc_lt
  refine ⟨hs.le_pc.trans_lt hs.pc_lt, hs.pc_lt, ?_, hok.store_ok data length s, ?_, ?_, ?_⟩
  · intro slot he
    obtain ⟨hlt, hbit⟩ := hok.load_ok data length s slot he
    exact ⟨hlt, hs.stored slot hlt (hbit (word_ne_zero hs.reach))⟩
  · intro offset size he
    exact bpfStep_events he
  · intro d he
    exact bpfStep_events he
  · intro n he
    exact bpfStep_events he

/-- Store the packet length in slot 3, load it back, divide it by a constant and return it. -/
def sampleFilter : BpfFilter where
  count := 5
  instructions := fun i => [⟨0x80, 0, 0, 0⟩, ⟨2, 0, 0, 3⟩, ⟨0x60, 0, 0, 3⟩, ⟨0x34, 0, 0, 2⟩,
    ⟨0x16, 0, 0, 0⟩].getD i default

theorem mosBpfRun_safe_sample : (∃ v, mosBpfRun (some sampleFilter) (fun _ => 0) 64 5 = some v) ∧
    ∀ n s, RunReaches sampleFilter (fun _ => 0) 64 n s → n < 5 ∧ SafeStep sampleFilter (fun _ => 0) 64 n s :=
  mosBpfRun_safe sampleFilter true (by decide) (fun _ => 0) 64

/-! ### What a run sees of the packet -/

/-- The bytes of the packet, and zeros behind it. -/
def within (data : Nat → UInt8) (length : UInt32) (i : Nat) : UInt8 := if i < length.toNat then data i else 0

theorem loadBytes_within {offset size : Nat} (h : offset + size ≤ length.toNat) :
    loadBytes (within data length) offset size = loadBytes data offset size := by
  induction size with
  | zero => rfl
  | succ n ih => rw [loadBytes, loadBytes, ih (by omega), within, if_pos (by omega)]

theorem bpfStep_within (p : BpfInsn) (s : BpfState) :
    bpfStep p (within data length) length s = bpfStep p data length s := by
  have hload : stepLoad p (within data length) length s = stepLoad p data length s := by
    unfold stepLoad
    refine ite_congr rfl (fun _ => rfl) fun _ => ite_congr rfl (fun _ => rfl) fun _ =>
      ite_congr rfl (fun _ => ite_congr rfl (fun _ => rfl) fun hin => ?_) fun _ => rfl
    rw [loadBytes_within (by omega)]
  unfold bpfStep
  rw [hload]

theorem runLoop_within (f : BpfFilter) (steps : Nat) (s : BpfState) :
    runLoop f (within data length) length steps s = runLoop f data length steps s := by
  induction steps generalizing s with
  | zero => rfl
  | succ n ih => simp only [runLoop, bpfStep_within, ih]

/-- The verdict of an accepted filter depends on the packet only. -/
theorem mosBpfRun_reads_packet (f : BpfFilter) (zallocOk : Bool) (h : mosBpfVerify (some f) zallocOk = 0)
    (data : Nat → UInt8) (length : UInt32) :
    ∃ v, ∀ data', (∀ i < length.toNat, data' i = data i) → mosBpfRun (some f) data' length f.count = some v := by
  obtain ⟨words, hv⟩ := verified_of_accept h
  obtain ⟨v, hrun⟩ : ∃ v, mosBpfRun (some f) data length f.count = some v :=
    runLoop_returns hv f.count 0 initState .start (Nat.le_add_right _ _)
  refine ⟨v, fun data' hagree => ?_⟩
  have hwithin : within data' length = within data length := by
    funext i
    unfold within
    split
    · exact hagree i ‹_›
    · rfl
  rw [← hrun]
  calc runLoop f data' length f.count initState
      = runLoop f (within data' length) length f.count initState := (runLoop_within ..).symm
    _ = runLoop f data length f.count initState := by rw [hwithin, runLoop_within]

/-- A filter that returns the first byte of the packet. -/
def firstByte : BpfFilter where
  count := 2
  instructions := fun i => [⟨0x30, 0, 0, 0⟩, ⟨0x16, 0, 0, 0⟩].getD i default

theorem mosBpfRun_reads_packet_first : ∃ v, v = 7 ∧ ∀ data', (∀ i < (2 : UInt32).toNat, data' i = [7, 9].getD i 1) →
    mosBpfRun (some firstByte) data' 2 2 = some v := by
  obtain ⟨v, h⟩ := mosBpfRun_reads_packet firstByte true (by decide) (fun i => [7, 9].getD i 1) 2
  have hv : some v = some 7 := (h _ fun _ _ => rfl).symm.trans (by decide)
  exact ⟨v, Option.some.inj hv, h⟩

end Mos.Bpf
