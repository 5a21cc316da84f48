import Mos.Lib.Ring
import Mathlib.Algebra.GroupWithZero.Nat

/-!
# Sending datagrams

`write`, `sendto` and `sendmsg` on UDP and raw sockets.  Every path allocates a packet buffer for a length cut to 16
bits and copies the caller's bytes, whose length is not cut, so the request is sent as it is exactly when it is
shorter than 64 KiB or the call fails before its copy (`datagram_good_iff`).
-/

namespace Mos.Net

open Lib List

variable {α : Type}

inductive Arch
  | i386
  | x8664

def Arch.bits : Arch → Nat
  | .i386 => 32
  | .x8664 => 64

/-- The type of the socket; `hdrincl` is a raw socket whose caller writes the IP header. -/
inductive Kind
  | udp
  | raw
  | hdrincl

structure Sock where
  kind : Kind
  err : Int
  connected : Bool
  pcb : Bool

/-- Whether the allocations, the route and the output succeed, and the bytes of a fresh buffer. -/
structure Env (α : Type) where
  pbuf : Bool
  flat : Bool
  route : Bool
  output : Bool
  fresh : Nat → α

/-- Whether a copy of the call ran over its buffer, the packet buffer it hands to lwIP, and its result. -/
structure Sent (α : Type) where
  overrun : Bool
  pbuf : Option (List α)
  ret : Except Int Nat

inductive Call (α : Type)
  | write (buf : List α)
  | sendto (buf : List α)
  | sendmsg (iov : List (List α))

def Call.bytes : Call α → List α
  | .write buf | .sendto buf => buf
  | .sendmsg iov => iov.flatten

def refuse (e : Int) : Sent α := ⟨false, none, .error e⟩

/-- The loop over an iovec array; the offset is kept modulo `wrap`. -/
def copyLoop (wrap size : Nat) : List (List α) → Nat → (Nat → α) → Bool × (Nat → α)
  | [], _, p => (false, p)
  | b :: iov, off, p =>
    let r := copyLoop wrap size iov ((off + b.length) % wrap) (blit p off b)
    (decide (size < off + b.length) || r.1, r.2)

/-- `msg_alloc_payload` and the output; `inet_write` and `do_sendto` do the same with one buffer. -/
def sendPayload (env : Env α) (iov : List (List α)) (totlen : Nat) : Sent α :=
  if env.pbuf then
    let r := copyLoop (2 ^ 16) (totlen % 2 ^ 16) iov 0 env.fresh
    ⟨r.1, some (slice r.2 0 (totlen % 2 ^ 16)), if env.output then .ok totlen else .error (-5)⟩
  else refuse (-105)

def rawSendHdrincl (env : Env α) (buf : List α) : Sent α :=
  if buf.length < 20 then refuse (-22)
  else if env.route then sendPayload env [buf] buf.length
  else refuse (-101)

/-- `zalloc` takes a 32-bit size. -/
def sockRawSendHdrinclMsg (a : Arch) (env : Env α) (iov : List (List α)) (totlen : Nat) : Sent α :=
  if env.flat then
    let r := copyLoop (2 ^ a.bits) (totlen % 2 ^ 32) iov 0 env.fresh
    let s := rawSendHdrincl env (slice r.2 0 (totlen % 2 ^ 32))
    { s with overrun := r.1 || s.overrun }
  else refuse (-105)

/-- A length converted to `unsigned`. -/
def cut (buf : List α) : List α := buf.take (buf.length % 2 ^ 32)

/-- `inet_write`, `do_sendto` and `sock_send_datagram`. -/
def send (a : Arch) (env : Env α) (sk : Sock) (c : Call α) : Sent α :=
  if sk.err ≠ 0 then refuse sk.err
  else match c, sk.kind with
    | .write buf, .hdrincl | .sendto buf, .hdrincl => rawSendHdrincl env (cut buf)
    | .write buf, .raw => if sk.connected && sk.pcb then sendPayload env [buf] buf.length else refuse (-107)
    | .write buf, .udp => if sk.pcb then sendPayload env [buf] buf.length else refuse (-107)
    | .sendto buf, _ => sendPayload env [cut buf] (cut buf).length
    | .sendmsg iov, .hdrincl => sockRawSendHdrinclMsg a env iov (iov.flatten.length % 2 ^ a.bits)
    | .sendmsg iov, _ => sendPayload env iov (iov.flatten.length % 2 ^ a.bits)

/-- No copy runs over its buffer, a successful call sends exactly the caller's bytes, and a request that no buffer can
hold is refused before a packet buffer is filled. -/
structure Sent.Good (bytes : List α) (r : Sent α) : Prop where
  inside : r.overrun = false
  exact : ∀ n, r.ret = .ok n → r.pbuf = some bytes
  refused : 2 ^ 16 ≤ bytes.length → r.pbuf = none

/-- The call fails before a packet buffer is filled. -/
def Refused (env : Env α) (sk : Sock) (c : Call α) : Prop :=
  sk.err ≠ 0 ∨ match c, sk.kind with
    | .write buf, .hdrincl | .sendto buf, .hdrincl => buf.length % 2 ^ 32 < 20 ∨ env.route = false ∨ env.pbuf = false
    | .write _, .raw => (sk.connected && sk.pcb) = false ∨ env.pbuf = false
    | .write _, .udp => sk.pcb = false ∨ env.pbuf = false
    | .sendmsg iov, .hdrincl =>
      env.flat = false ∨ iov.flatten.length < 2 ^ 32 ∧ (env.route = false ∨ env.pbuf = false)
    | _, _ => env.pbuf = false

variable {env : Env α} {iov : List (List α)} {bytes buf : List α} {p : Nat → α} {wrap size off totlen : Nat}

private theorem refuse_good (e : Int) : (refuse e : Sent α).Good bytes := ⟨rfl, nofun, fun _ => rfl⟩

private theorem blit_append (b c : List α) : blit (blit p off b) (off + b.length) c = blit p off (b ++ c) := by
  funext i
  simp only [blit, List.getElem?_append]
  grind

private theorem slice_blit (l : List α) : slice (blit p 0 l) 0 l.length = l := by
  apply ext_getElem
  · simp
  · intro i _ h
    simp [slice, blit, h]

/-- The loop copies everything, in order, if the buffer is large enough and the offset does not wrap. -/
theorem copyLoop_fits (h : off + iov.flatten.length ≤ size) (hsize : size < wrap) :
    copyLoop wrap size iov off p = (false, blit p off iov.flatten) := by
  induction iov generalizing off p with
  | nil => simp [copyLoop]
  | cons b iov ih =>
    rw [flatten_cons, length_append] at h
    rw [copyLoop, Nat.mod_eq_of_lt (by omega), ih (by omega), blit_append]
    simp
    omega

/-- The copy that crosses `bound` runs over a smaller buffer. -/
theorem copyLoop_overruns {bound : Nat} (hoff : off < bound) (h : bound ≤ off + iov.flatten.length)
    (hsize : size < bound) (hwrap : bound ≤ wrap) : (copyLoop wrap size iov off p).1 = true := by
  induction iov generalizing off p with
  | nil =>
    rw [flatten_nil, length_nil] at h
    omega
  | cons b iov ih =>
    rw [flatten_cons, length_append] at h
    simp only [copyLoop, Bool.or_eq_true, decide_eq_true_eq]
    by_cases hb : bound ≤ off + b.length
    · left
      omega
    · right
      rw [Nat.mod_eq_of_lt (by omega)]
      exact ih (by omega) (by omega)

private theorem sendPayload_iff (h : bytes.length < 2 ^ 16 → iov.flatten = bytes ∧ totlen = bytes.length) :
    (sendPayload env iov totlen).Good bytes ↔ bytes.length < 2 ^ 16 ∨ env.pbuf = false := by
  unfold sendPayload
  by_cases hp : env.pbuf = true
  swap
  · simp [hp, refuse_good]
  rw [if_pos hp]
  constructor
  · intro hg
    -- a long request would not be refused
    exact .inl (Nat.not_le.1 fun hlong => nomatch hg.refused hlong)
  · intro hshort
    replace hshort := hshort.resolve_right (by simp [hp])
    obtain ⟨rfl, rfl⟩ := h hshort
    rw [Nat.mod_eq_of_lt hshort, copyLoop_fits (Nat.le_of_eq (Nat.zero_add _)) hshort]
    exact ⟨rfl, fun _ _ => congrArg some (slice_blit _), fun hn => absurd hshort (Nat.not_lt.2 hn)⟩

private theorem rawSendHdrincl_iff (h : bytes.length < 2 ^ 16 → buf = bytes) : (rawSendHdrincl env buf).Good bytes ↔
    bytes.length < 2 ^ 16 ∨ buf.length < 20 ∨ env.route = false ∨ env.pbuf = false := by
  have hpay : (sendPayload env [buf] buf.length).Good bytes ↔ _ := sendPayload_iff fun hlt => by simp [h hlt]
  unfold rawSendHdrincl
  split_ifs with h20 hroute
  · simp [h20, refuse_good]
  · simp [h20, hroute, hpay]
  · simp [hroute, refuse_good]

theorem Arch.bits_ge (a : Arch) : 2 ^ 32 ≤ 2 ^ a.bits := by
  cases a <;> simp [bits]

/-- `sendmsg` with the header included copies twice: a request of 4 GiB or more overruns the first buffer. -/
theorem sockRawSendHdrinclMsg_iff (a : Arch) (iov : List (List α)) :
    (sockRawSendHdrinclMsg a env iov (iov.flatten.length % 2 ^ a.bits)).Good iov.flatten ↔
      iov.flatten.length < 2 ^ 16 ∨ env.flat = false ∨
        iov.flatten.length < 2 ^ 32 ∧ (env.route = false ∨ env.pbuf = false) := by
  have hbits := a.bits_ge
  unfold sockRawSendHdrinclMsg
  by_cases hf : env.flat = true
  swap
  · simp [hf, refuse_good]
  rw [if_pos hf]
  by_cases h32 : iov.flatten.length < 2 ^ 32
  · have hraw : (rawSendHdrincl env iov.flatten).Good iov.flatten ↔ _ := rawSendHdrincl_iff fun _ => rfl
    rw [Nat.mod_eq_of_lt (show iov.flatten.length < 2 ^ a.bits by omega), Nat.mod_eq_of_lt h32,
      copyLoop_fits (Nat.le_of_eq (Nat.zero_add _)) (by omega)]
    simp only [slice_blit, Bool.false_or, hraw, hf, h32, Bool.true_eq_false, false_or, true_and]
    have h20 : iov.flatten.length < 20 → iov.flatten.length < 2 ^ 16 := by omega
    tauto
  have hover := copyLoop_overruns (p := env.fresh) (Nat.two_pow_pos 32) (by omega : _ ≤ 0 + iov.flatten.length)
    (Nat.mod_lt (iov.flatten.length % 2 ^ a.bits) (Nat.two_pow_pos 32)) hbits
  constructor
  · intro hg
    have hin := (Bool.or_eq_false_iff.1 hg.inside).1
    rw [hover] at hin
    cases hin
  · rintro (h | h | h)
    · omega
    · simp [hf] at h
    · exact absurd h.1 h32

theorem length_cut (buf : List α) : (cut buf).length = buf.length % 2 ^ 32 := by
  rw [cut, length_take, Nat.min_eq_left (Nat.mod_le _ _)]

theorem cut_of_lt (h : buf.length < 2 ^ 32) : cut buf = buf := by
  rw [cut, Nat.mod_eq_of_lt h, take_length]

theorem cut_eq (h : buf.length < 2 ^ 16) : cut buf = buf := cut_of_lt (by omega)

/-- A datagram is sent as the caller wrote it, without an overrun, exactly when the request is shorter than 64 KiB or
the call fails before its packet buffer is filled. -/
theorem datagram_good_iff (a : Arch) (env : Env α) (sk : Sock) (c : Call α) :
    (send a env sk c).Good c.bytes ↔ c.bytes.length < 2 ^ 16 ∨ Refused env sk c := by
  obtain ⟨kind, err, connected, pcb⟩ := sk
  by_cases herr : err = 0
  swap
  · simp [send, Refused, herr, refuse_good]
  have hbits := a.bits_ge
  simp only [send, Refused, herr, ne_eq, not_true_eq_false, if_false, false_or]
  cases c with
  | write buf =>
    have hraw : (rawSendHdrincl env (cut buf)).Good buf ↔ _ := rawSendHdrincl_iff cut_eq
    have hpay : (sendPayload env [buf] buf.length).Good buf ↔ _ :=
      sendPayload_iff fun _ => ⟨flatten_singleton, rfl⟩
    rw [length_cut] at hraw
    cases kind with
    | hdrincl => exact hraw
    | _ =>
      dsimp only [Call.bytes]
      split_ifs <;> simp_all [refuse_good]
  | sendto buf =>
    have hraw : (rawSendHdrincl env (cut buf)).Good buf ↔ _ := rawSendHdrincl_iff cut_eq
    have hpay : (sendPayload env [cut buf] (cut buf).length).Good buf ↔ _ :=
      sendPayload_iff fun h => by simp [cut_eq h]
    rw [length_cut] at hraw
    cases kind with
    | hdrincl => exact hraw
    | _ => exact hpay
  | sendmsg iov =>
    cases kind with
    | hdrincl => exact sockRawSendHdrinclMsg_iff a iov
    | _ => exact sendPayload_iff fun h => ⟨rfl, Nat.mod_eq_of_lt (Nat.lt_of_lt_of_le h (by omega))⟩

/-- `write` of 64 KiB to a UDP socket: the packet buffer is empty, and all bytes are copied behind it. -/
theorem long_write_overruns :
    send .x8664 ⟨true, true, true, true, fun _ => 0⟩ ⟨.udp, 0, true, true⟩ (.write (List.replicate (2 ^ 16) 1)) =
      ⟨true, some [], .ok (2 ^ 16)⟩ := by
  have hlen : (List.replicate (2 ^ 16) 1).length = 2 ^ 16 := length_replicate
  generalize List.replicate (2 ^ 16) 1 = buf at hlen ⊢
  simp [send, sendPayload, copyLoop, slice, hlen]

end Mos.Net
