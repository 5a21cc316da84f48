import Mos.Net.Recv

/-!
# Peeking

`MSG_PEEK` on the receive paths below `do_recvfrom` and `sock_recvmsg_file`.  AF_UNIX datagram and seqpacket receives
set `rx_head` back after they have read a record.  The other paths do not look at the flag, so a peek leaves the
socket as it was only if there was nothing to take (`peek_keeps_iff`).
-/

namespace Mos.Net

open Function List

inductive Family
  | unixStream
  | unixDgram
  | unixSeqpacket
  | tcp
  | udp
  | raw

/-- `unix_passfd_msg`, with the credentials if it has any. -/
@[ext]
structure PassMsg where
  readyHead : UInt32
  endHead : UInt32
  files : List Nat
  credentials : Option (Nat × Nat × Nat)

/-- What a receive reads and changes: the receive ring and, for AF_UNIX, the circular queue of ancillary records. -/
@[ext]
structure Socket where
  family : Family
  shutRd : Bool
  rxHead : UInt32
  ring : List Nat
  slots : Fin 16 → PassMsg
  passHead : Fin 16
  passTail : Fin 16

/-- A new socket; its ancillary records are not yet written. -/
def Socket.new (family : Family) (slots : Fin 16 → PassMsg) : Socket := ⟨family, false, 0, [], slots, 0, 0⟩

def nextSlot (i : Fin 16) : Fin 16 := i + 1

/-- The socket after calls of `rx_read` that leave these bytes. -/
def Socket.rest (sk : Socket) (ring : List Nat) : Socket :=
  { sk with rxHead := sk.rxHead + UInt32.ofNat (sk.ring.length - ring.length), ring := ring }

/-- The oldest ancillary record is not taken. -/
def Socket.unready (sk : Socket) : Prop :=
  (sk.slots sk.passHead).readyHead > sk.rxHead ∨ (sk.slots sk.passHead).files.length > 16

/-- A record with credentials of which bytes are left. -/
def Socket.partly (sk : Socket) (msg : PassMsg) : Prop := msg.credentials.isSome ∧ sk.rxHead < msg.endHead

instance (sk : Socket) : Decidable sk.unready := inferInstanceAs (Decidable (_ ∨ _))

instance (sk : Socket) (msg : PassMsg) : Decidable (sk.partly msg) := inferInstanceAs (Decidable (_ ∧ _))

/-- `unix_collect_one_ready_passfd`. -/
def Socket.collectOne (sk : Socket) : Socket :=
  if sk.passHead = sk.passTail ∨ sk.unready then sk
  else { sk with slots := update sk.slots sk.passHead { sk.slots sk.passHead with files := [] },
                 passHead := nextSlot sk.passHead }

/-- `unix_recvmsg_stream_limit`. -/
def Socket.streamLimit (sk : Socket) : Nat :=
  if sk.passHead = sk.passTail then sk.ring.length
  else if (sk.slots sk.passHead).endHead > sk.rxHead then
    min sk.ring.length ((sk.slots sk.passHead).endHead - sk.rxHead).toNat
  else 0

def dgramFraming : Framing := ⟨244, 4⟩

def seqpacketFraming : Framing := ⟨16, 4⟩

/-- The record that a datagram or seqpacket receive reads: what the ring does not have of the header is as it was on
the stack. -/
def Socket.record (f : Framing) (stack iov : List Nat) (sk : Socket) : Record :=
  readRecord f iov (sk.ring ++ (stack.take f.size).drop sk.ring.length)

/-- Datagram and seqpacket receives; `parses` says that the wait for a record may end without one. -/
def recvRecord (f : Framing) (stack : List Nat) (peek parses : Bool) (iov : List Nat) (sk : Socket) : Socket :=
  if sk.ring.length < f.size ∧ parses = false then sk
  else
    let read := sk.rest (sk.record f stack iov).rest
    if peek then { read with rxHead := sk.rxHead, ring := sk.ring } else read.collectOne

/-- The stream part of `unix_recvmsg`. -/
def recvStream (iov : List Nat) (sk : Socket) : Socket :=
  let read := sk.rest (rxIovRead iov sk.streamLimit sk.ring).2.2
  if sk.passHead = sk.passTail then read
  else if read.partly (sk.slots sk.passHead) then
    { read.collectOne with
      slots := update read.collectOne.slots sk.passHead { sk.slots sk.passHead with files := [] },
      passHead := read.collectOne.passHead - 1 }
  else read.collectOne

inductive Receive
  | recvfrom (len : Nat)
  | recvmsg (iov : List Nat)

def Receive.iov : Receive → List Nat
  | .recvfrom len => [len]
  | .recvmsg iov => iov

/-- `recvmsg` on an inet socket returns at once for a total length of 0, and `recvfrom` on an AF_UNIX stream for a
length of 0. -/
def Receive.returnsAtOnce (a : Arch) (unix : Bool) : Receive → Bool
  | .recvfrom len => unix && len % 2 ^ 32 == 0
  | .recvmsg iov => !unix && iov.sum % 2 ^ a.bits == 0

/-- `do_recvfrom` and `sock_recvmsg_file`; a receive that waits or fails leaves the socket as it is. -/
def recv (a : Arch) (stack : List Nat) (peek : Bool) (c : Receive) (sk : Socket) : Socket :=
  match sk.family with
  | .unixStream =>
    if c.returnsAtOnce a true ∨ sk.ring = [] ∧ sk.passHead = sk.passTail then sk else recvStream c.iov sk
  | .unixDgram => recvRecord dgramFraming stack peek (sk.shutRd || sk.passHead != sk.passTail) c.iov sk
  | .unixSeqpacket => recvRecord seqpacketFraming stack peek false c.iov sk
  | .tcp =>
    if c.returnsAtOnce a false ∨ sk.ring = [] then sk else sk.rest (rxIovRead c.iov sk.ring.length sk.ring).2.2
  | .udp | .raw =>
    if c.returnsAtOnce a false ∨ sk.ring.length < 2 then sk else sk.rest (readRecord udpFraming c.iov sk.ring).rest

/-- The ancillary record in front stays as it is when no byte is taken. -/
def Socket.frontStays (sk : Socket) : Prop :=
  sk.passHead = sk.passTail ∨ sk.unready ∧ ¬sk.partly (sk.slots sk.passHead) ∨
    ¬sk.unready ∧ sk.partly (sk.slots sk.passHead) ∧ (sk.slots sk.passHead).files = []

/-- The receive honours the flag, or there is nothing that it would take. -/
def PeekKeeps (a : Arch) (c : Receive) (sk : Socket) : Prop :=
  match sk.family with
  | .unixDgram | .unixSeqpacket => True
  | .unixStream => c.returnsAtOnce a true = true ∨ min (capacity c.iov) sk.streamLimit = 0 ∧ sk.frontStays
  | .tcp => c.returnsAtOnce a false = true ∨ min (capacity c.iov) sk.ring.length = 0
  | .udp | .raw => c.returnsAtOnce a false = true ∨ sk.ring.length < 2

variable {sk : Socket} {iov ring : List Nat} {limit : Nat}

theorem Socket.rest_eq_iff : sk.rest ring = sk ↔ ring = sk.ring := by
  constructor
  · intro h
    exact congrArg Socket.ring h
  · rintro rfl
    simp [rest]

private theorem rxIovRead_rest (h : limit ≤ ring.length) :
    (rxIovRead iov limit ring).2.2 = ring.drop (min (capacity iov) limit) := by
  have hread := rxIovRead_append iov (ring.take limit) (ring.drop limit)
  rw [take_append_drop, length_take_of_le h] at hread
  rw [hread]
  by_cases hc : capacity iov ≤ limit
  · rw [Nat.min_eq_left hc, ← drop_append_of_le_length (by simp; omega), take_append_drop]
  · rw [Nat.min_eq_right (by omega), drop_of_length_le (by simp; omega), nil_append]

private theorem rxIovRead_length_le (iov ring : List Nat) (limit : Nat) :
    (rxIovRead iov limit ring).2.2.length ≤ ring.length := by
  induction iov generalizing limit ring with
  | nil => exact Nat.le_refl _
  | cons len iov ih =>
    refine Nat.le_trans (ih _ _) ?_
    simp

open Socket

private theorem rest_drop_eq_iff {n : Nat} (h : n ≤ sk.ring.length) : sk.rest (sk.ring.drop n) = sk ↔ n = 0 := by
  rw [rest_eq_iff]
  constructor
  · intro heq
    have := congrArg List.length heq
    rw [length_drop] at this
    omega
  · rintro rfl
    rfl

theorem Socket.streamLimit_le (sk : Socket) : sk.streamLimit ≤ sk.ring.length := by
  unfold streamLimit
  split_ifs
  · exact Nat.le_refl _
  · exact Nat.min_le_left _ _
  · exact Nat.zero_le _

private theorem recvStream_eq_iff (iov : List Nat) (sk : Socket) :
    recvStream iov sk = sk ↔ min (capacity iov) sk.streamLimit = 0 ∧ sk.frontStays := by
  have hle : min (capacity iov) sk.streamLimit ≤ sk.ring.length :=
    Nat.le_trans (Nat.min_le_right _ _) sk.streamLimit_le
  have hfix := rest_drop_eq_iff hle
  have hcollect : ∀ s : Socket, s.collectOne.ring = s.ring := by
    intro s
    unfold Socket.collectOne
    split_ifs <;> rfl
  unfold recvStream
  simp only [rxIovRead_rest sk.streamLimit_le]
  by_cases h0 : min (capacity iov) sk.streamLimit = 0
  · have hne : nextSlot sk.passHead ≠ sk.passHead ∧ sk.passHead - 1 ≠ sk.passHead ∧
      nextSlot sk.passHead - 1 = sk.passHead := by
      generalize sk.passHead = i
      revert i
      decide
    rw [hfix.2 h0]
    unfold Socket.frontStays Socket.collectOne
    by_cases hq : sk.passHead = sk.passTail
    · simp [hq, h0]
    · by_cases hu : sk.unready <;> by_cases hp : sk.partly (sk.slots sk.passHead) <;>
        simp [hq, hu, hp, h0, Socket.ext_iff, PassMsg.ext_iff, hne]
  · have hring : sk.ring.drop (min (capacity iov) sk.streamLimit) ≠ sk.ring :=
      fun h => h0 (hfix.1 (Socket.rest_eq_iff.2 h))
    simp only [h0, false_and, iff_false]
    intro h
    have heq := congrArg Socket.ring h
    simp only [apply_ite Socket.ring, hcollect, ite_self] at heq
    exact hring heq

/-- A peek leaves everything that later receives read as it was exactly when its path honours the flag or takes
nothing. -/
theorem peek_keeps_iff (a : Arch) (stack : List Nat) (c : Receive) (sk : Socket) :
    recv a stack true c sk = sk ↔ PeekKeeps a c sk := by
  unfold recv PeekKeeps
  cases sk.family with
  | unixDgram | unixSeqpacket =>
    simp only [recvRecord, if_true, iff_true]
    split_ifs <;> rfl
  | unixStream =>
    dsimp only
    split_ifs with h
    · simp only [true_iff]
      refine h.imp_right fun h => ⟨?_, .inl h.2⟩
      simp [streamLimit, h.1, h.2]
    · rw [recvStream_eq_iff]
      simp [not_or.1 h]
  | tcp =>
    dsimp only
    split_ifs with h
    · simp only [true_iff]
      refine h.imp_right fun h => ?_
      simp [h]
    · rw [rxIovRead_rest (Nat.le_refl _), rest_drop_eq_iff (Nat.min_le_right _ _)]
      simp [not_or.1 h]
  | udp | raw =>
    dsimp only
    split_ifs with h
    · simpa using h
    simp only [h, iff_false]
    intro heq
    have hlen := congrArg (fun s => s.ring.length) heq
    have hle := rxIovRead_length_le c.iov (sk.ring.drop 2) (ofBytes ((sk.ring.take 2).take 2))
    simp [rest, readRecord, udpFraming] at hlen hle
    omega

/-- A byte is queued on a TCP socket, and `recv` with `MSG_PEEK` takes it away. -/
theorem tcp_peek_consumes :
    (recv .x8664 [] true (.recvfrom 1) { Socket.new .tcp fun _ => ⟨0, 0, [], none⟩ with ring := [7] }).ring = [] := by
  simp [recv, Receive.returnsAtOnce, Receive.iov, rxIovRead, rest, new]

end Mos.Net
