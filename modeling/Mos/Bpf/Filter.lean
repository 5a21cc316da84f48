import Mathlib.Data.Nat.Bitwise

/-!
# The packet filter: verifier and interpreter

The classic packet filter of `src/lib/impl/bpf.c`.  `mosBpfVerify` is the load-time check: one pass over the
instructions that computes, for every instruction, a word `states i` whose bit 16 says that the instruction is
reachable and whose bits 0..15 say which scratch slots are stored on every path leading to it.  `mosBpfRun` is the
interpreter.

One iteration of the interpreter's loop is `bpfStep`; besides its outcome it lists what it did to scratch memory,
to the packet and to the arithmetic unit (`BpfEvent`), which is what the safety results speak about.
-/

namespace Mos.Bpf

/-- `struct mos_bpf_insn`. -/
structure BpfInsn where
  code : UInt16
  jt : UInt8
  jf : UInt8
  k : UInt32
  deriving DecidableEq, Repr, Inhabited

/-- `struct mos_bpf_filter`: `count` instructions in a flexible array. -/
structure BpfFilter where
  count : Nat
  instructions : Nat → BpfInsn

def einval : Int := -22

def enomem : Int := -12

/-- Record a path into `pc` on which the slots of `mask` are stored. -/
def merge (states : Nat → Nat) (pc mask : Nat) : Nat → Nat :=
  Function.update states pc
    (if states pc &&& 0x10000 ≠ 0 then 0x10000 ||| ((states pc &&& mask) &&& 0xffff) else 0x10000 ||| mask)

/-- The end of the loop body for an instruction that is neither a return nor a jump. -/
def fallThrough (count i : Nat) (states : Nat → Nat) (mask : Nat) : Option (Nat → Nat) :=
  if i + 1 = count then none
  else some (if states i ≠ 0 then merge states (i + 1) mask else states)

/-- The opcodes accepted in the two load classes. -/
def loadCodes : List Nat :=
  [0, 1, 0x20, 0x28, 0x30, 0x40, 0x48, 0x50, 0x60, 0x61, 0x80, 0x81, 0xb1]

/-- One iteration of the verifier's loop; `none` is `goto out` with the result `-EINVAL`. -/
def verifyInsn (count i : Nat) (p : BpfInsn) (states : Nat → Nat) : Option (Nat → Nat) :=
  let code := p.code.toNat
  let k := p.k.toNat
  let mask := states i &&& 0xffff
  match code &&& 7 with
  | 0 | 1 =>
    if code ∉ loadCodes then none
    else if (code = 0x60 ∨ code = 0x61) ∧ (k ≥ 16 ∨ (states i ≠ 0 ∧ mask &&& (1 <<< k) = 0)) then none
    else fallThrough count i states mask
  | 2 | 3 =>
    if (code ≠ 2 ∧ code ≠ 3) ∨ k ≥ 16 then none
    else fallThrough count i states (mask ||| (1 <<< k))
  | 4 =>
    if code > 0xac ∨ code &&& 0xf0 > 0xa0 ∨ (code &&& 0xf0 = 0x80 ∧ code ≠ 0x84) then none
    else if code &&& 8 = 0 ∧ (code &&& 0xf0 = 0x30 ∨ code &&& 0xf0 = 0x90) ∧ k = 0 then none
    else fallThrough count i states mask
  | 5 =>
    if code = 5 then
      if k ≥ count - i - 1 then none
      else some (if states i ≠ 0 then merge states (i + 1 + k) mask else states)
    else if code > 0x4d ∨ code &&& 0xf0 < 0x10 ∨ p.jt.toNat ≥ count - i - 1 ∨ p.jf.toNat ≥ count - i - 1 then none
    else some
      (if states i ≠ 0 then merge (merge states (i + 1 + p.jt.toNat) mask) (i + 1 + p.jf.toNat) mask else states)
  | 6 =>
    if code ≠ 6 ∧ code ≠ 0x16 then none else some states
  | _ =>
    if code ≠ 7 ∧ code ≠ 0x87 then none else fallThrough count i states mask

/-- The verifier's loop from instruction `i`, with `n` iterations left. -/
def verifyLoop (filter : BpfFilter) : Nat → Nat → (Nat → Nat) → Option (Nat → Nat)
  | 0, _, states => some states
  | n + 1, i, states =>
    match verifyInsn filter.count i (filter.instructions i) states with
    | none => none
    | some states' => verifyLoop filter n (i + 1) states'

def initStates : Nat → Nat := Function.update (fun _ => 0) 0 0x10000

/-- `mos_bpf_verify`; `zallocOk` says whether the state array could be allocated. -/
def mosBpfVerify (filter : Option BpfFilter) (zallocOk : Bool) : Int :=
  match filter with
  | none => einval
  | some f =>
    if f.count = 0 ∨ f.count > 4096 then einval
    else if !zallocOk then enomem
    else if (verifyLoop f f.count 0 initStates).isSome then 0 else einval

/-- The local variables of `mos_bpf_run`. -/
structure BpfState where
  pc : Nat
  a : UInt32
  x : UInt32
  memory : Nat → UInt32

/-- What one iteration of the interpreter touches. -/
inductive BpfEvent
  | scratchLoad (slot : Nat)
  | scratchStore (slot : Nat)
  | packetLoad (offset size : Nat)
  | divide (divisor : UInt32)
  | shift (amount : Nat)
  deriving DecidableEq, Repr

inductive BpfOutcome
  | next (s : BpfState)
  | ret (value : UInt32)

structure BpfEffect where
  outcome : BpfOutcome
  events : List BpfEvent

/-- `pc++` of the `for` loop, after `pc` was advanced by `skip`. -/
def BpfState.advance (s : BpfState) (skip : Nat) : BpfState :=
  { s with pc := ((s.pc + skip) % 2 ^ 32 + 1) % 2 ^ 32 }

/-- The big-endian word made of the `size` bytes at `offset`. -/
def loadBytes (data : Nat → UInt8) (offset : Nat) : Nat → UInt32
  | 0 => 0
  | n + 1 => (loadBytes data offset n <<< 8) ||| (data (offset + n)).toUInt32

/-- `if (code & 1) x = loaded; else a = loaded;` -/
def BpfState.setLoaded (s : BpfState) (code : Nat) (loaded : UInt32) : BpfState :=
  if code &&& 1 ≠ 0 then { s with x := loaded } else { s with a := loaded }

/-- The load classes, `case 0` and `case 1`. -/
def stepLoad (p : BpfInsn) (data : Nat → UInt8) (length : UInt32) (s : BpfState) : BpfEffect :=
  let code := p.code.toNat
  let mode := code &&& 0xe0
  if mode = 0x60 then
    ⟨.next ((s.setLoaded code (s.memory p.k.toNat)).advance 0), [.scratchLoad p.k.toNat]⟩
  else if mode = 0x80 then
    ⟨.next ((s.setLoaded code length).advance 0), []⟩
  else if mode = 0x20 ∨ mode = 0x40 ∨ mode = 0xa0 then
    let offset := if mode = 0x40 then p.k.toNat + s.x.toNat else p.k.toNat
    let size := if mode = 0xa0 ∨ code &&& 0x18 = 0x10 then 1 else if code &&& 0x18 = 8 then 2 else 4
    if offset > length.toNat ∨ size > length.toNat - offset then
      ⟨.ret 0, [.packetLoad offset size]⟩
    else
      let loaded := loadBytes data offset size
      let loaded := if mode = 0xa0 then (loaded &&& 15) <<< 2 else loaded
      ⟨.next ((s.setLoaded code loaded).advance 0), [.packetLoad offset size]⟩
  else
    ⟨.next ((s.setLoaded code p.k).advance 0), []⟩

/-- The arithmetic class, `case 4`. -/
def stepAlu (p : BpfInsn) (s : BpfState) : BpfEffect :=
  let code := p.code.toNat
  let value := if code &&& 8 ≠ 0 then s.x else p.k
  let set (a : UInt32) : BpfOutcome := .next (({ s with a := a }).advance 0)
  match code &&& 0xf0 with
  | 0x00 => ⟨set (s.a + value), []⟩
  | 0x10 => ⟨set (s.a - value), []⟩
  | 0x20 => ⟨set (s.a * value), []⟩
  | 0x30 => if value = 0 then ⟨.ret 0, []⟩ else ⟨set (s.a / value), [.divide value]⟩
  | 0x40 => ⟨set (s.a ||| value), []⟩
  | 0x50 => ⟨set (s.a &&& value), []⟩
  | 0x60 => if value ≥ 32 then ⟨set 0, []⟩ else ⟨set (s.a <<< value), [.shift value.toNat]⟩
  | 0x70 => if value ≥ 32 then ⟨set 0, []⟩ else ⟨set (s.a >>> value), [.shift value.toNat]⟩
  | 0x80 => ⟨set (0 - s.a), []⟩
  | 0x90 => if value = 0 then ⟨.ret 0, []⟩ else ⟨set (s.a % value), [.divide value]⟩
  | 0xa0 => ⟨set (s.a ^^^ value), []⟩
  | _ => ⟨set s.a, []⟩

def jumpTaken (p : BpfInsn) (s : BpfState) : Bool :=
  let code := p.code.toNat
  let value := if code &&& 8 ≠ 0 then s.x else p.k
  match code &&& 0xf0 with
  | 0x10 => s.a == value
  | 0x20 => s.a > value
  | 0x30 => s.a ≥ value
  | 0x40 => s.a &&& value != 0
  | _ => false

/-- The jump class, `case 5`. -/
def stepJump (p : BpfInsn) (s : BpfState) : BpfEffect :=
  if p.code.toNat = 5 then ⟨.next (s.advance p.k.toNat), []⟩
  else ⟨.next (s.advance (if jumpTaken p s then p.jt.toNat else p.jf.toNat)), []⟩

/-- One iteration of the interpreter's loop at an instruction `p`. -/
def bpfStep (p : BpfInsn) (data : Nat → UInt8) (length : UInt32) (s : BpfState) : BpfEffect :=
  let k := p.k.toNat
  match p.code.toNat &&& 7 with
  | 0 | 1 => stepLoad p data length s
  | 2 => ⟨.next (({ s with memory := Function.update s.memory k s.a }).advance 0), [.scratchStore k]⟩
  | 3 => ⟨.next (({ s with memory := Function.update s.memory k s.x }).advance 0), [.scratchStore k]⟩
  | 4 => stepAlu p s
  | 5 => stepJump p s
  | 6 => ⟨.ret (if p.code.toNat = 6 then p.k else s.a), []⟩
  | _ => ⟨.next ((if p.code.toNat = 7 then { s with x := s.a } else { s with a := s.x }).advance 0), []⟩

def initState : BpfState := ⟨0, 0, 0, fun _ => 0⟩

/-- The interpreter's loop with a bound on the number of iterations; `none` means that the bound was too small. -/
def runLoop (filter : BpfFilter) (data : Nat → UInt8) (length : UInt32) : Nat → BpfState → Option UInt32
  | 0, s => if s.pc < filter.count then none else some 0
  | n + 1, s =>
    if s.pc < filter.count then
      match (bpfStep (filter.instructions s.pc) data length s).outcome with
      | .ret v => some v
      | .next s' => runLoop filter data length n s'
    else some 0

/-- `mos_bpf_run`, given `steps` loop iterations. -/
def mosBpfRun (filter : Option BpfFilter) (data : Nat → UInt8) (length : UInt32) (steps : Nat) : Option UInt32 :=
  match filter with
  | none => some length
  | some f => runLoop f data length steps initState

/-- `RunReaches f data length n s`: the run is in state `s` after `n` iterations of its loop. -/
inductive RunReaches (f : BpfFilter) (data : Nat → UInt8) (length : UInt32) : Nat → BpfState → Prop
  | start : RunReaches f data length 0 initState
  | step {n : Nat} {s s' : BpfState} : RunReaches f data length n s → s.pc < f.count →
      (bpfStep (f.instructions s.pc) data length s).outcome = .next s' → RunReaches f data length (n + 1) s'

end Mos.Bpf
