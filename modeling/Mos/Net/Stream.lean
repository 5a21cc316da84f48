import Mos.Lib.Run
import Mos.Net.Peek

/-!
# Received TCP bytes

The receive ring of a TCP socket, with its cells and its counters, between the segments of lwIP and the reads.  No
byte is lost or doubled.  The window credit is given back when a segment is accepted, and `inet_read` gives it back
once more.
-/

namespace Mos.Net

open Lib List

/-- `SOCK_RXBUF_INET_SIZE`. -/
def rxbufSize : Nat := 256 * 1024

/-- `rxbuf`, `rx_head` and `rx_tail`. -/
structure RxRing where
  cells : Nat → Nat
  head : UInt32
  tail : UInt32

namespace RxRing

def used (r : RxRing) : Nat := (r.tail - r.head).toNat % rxbufSize

def free (r : RxRing) : Nat := rxbufSize - 1 - r.used

/-- `rx_write`. -/
def write (r : RxRing) (src : List Nat) : RxRing :=
  { r with
    cells := blitWrap r.cells rxbufSize (r.tail.toNat % rxbufSize) (src.take r.free)
    tail := r.tail + UInt32.ofNat (src.take r.free).length }

/-- `rx_read`. -/
def read (r : RxRing) (len : Nat) : List Nat × RxRing :=
  let n := min len r.used
  let pos := r.head.toNat % rxbufSize
  let first := min (rxbufSize - pos) n
  (slice r.cells pos first ++ slice r.cells 0 (n - first), { r with head := r.head + UInt32.ofNat n })

/-- `rx_iov_read`. -/
def iovRead : List Nat → Nat → RxRing → List Nat × RxRing
  | [], _, r => ([], r)
  | len :: iov, limit, r =>
    let n := min (len % 2 ^ 32) limit
    let rest := iovRead iov (limit - n) (r.read n).2
    ((r.read n).1 ++ rest.1, rest.2)

def bytes (r : RxRing) : List Nat := window r.cells rxbufSize (r.head.toNat % rxbufSize) r.used

variable (r : RxRing)

private theorem length_bytes : r.bytes.length = r.used := length_window ..

private theorem bytes_write (src : List Nat) : (r.write src).bytes = r.bytes ++ src.take r.free := by
  have hlen : (src.take r.free).length ≤ rxbufSize - 1 - r.used := length_take_le _ _
  have hlt : r.used < rxbufSize := Nat.mod_lt _ (by decide)
  have htail : r.tail.toNat % rxbufSize = (r.head.toNat % rxbufSize + r.used) % rxbufSize := by
    have hhead := r.head.toNat_lt
    simp only [used, rxbufSize, UInt32.toNat_sub]
    omega
  have hused : (r.write src).used = r.used + (src.take r.free).length := by
    simp only [used, write, rxbufSize, UInt32.toNat_sub, UInt32.toNat_add, UInt32.toNat_ofNat'] at *
    omega
  rw [bytes, hused]
  dsimp only [write]
  rw [htail, window_blitWrap_append (Nat.mod_lt _ (by decide)) (by omega), bytes]

private theorem read_bytes (len : Nat) : (r.read len).1 = r.bytes.take len ∧
    (r.read len).2.bytes = r.bytes.drop len := by
  have hlt : r.used < rxbufSize := Nat.mod_lt _ (by decide)
  have h32 := r.head.toNat_lt
  have hused : (r.read len).2.used = r.used - min len r.used := by
    simp only [used, read, rxbufSize, UInt32.toNat_sub, UInt32.toNat_add, UInt32.toNat_ofNat'] at *
    omega
  have hhead : (r.read len).2.head.toNat % rxbufSize = (r.head.toNat % rxbufSize + min len r.used) % rxbufSize := by
    simp only [read, rxbufSize, UInt32.toNat_add, UInt32.toNat_ofNat'] at *
    omega
  rw [take_eq_take_min, drop_eq_drop_min, length_bytes, bytes, bytes, hused, hhead, take_window _ _ _ (by omega),
    drop_window _ _ _ (by omega), window_eq_slices _ (Nat.mod_lt _ (by decide)) (by omega)]
  exact ⟨rfl, rfl⟩

private theorem iovRead_bytes (iov : List Nat) (limit : Nat) :
    (iovRead iov limit r).1 ++ (iovRead iov limit r).2.bytes = r.bytes := by
  induction iov generalizing r limit with
  | nil => rfl
  | cons len iov ih =>
    obtain ⟨h1, h2⟩ := r.read_bytes (min (len % 2 ^ 32) limit)
    rw [iovRead, append_assoc, ih, h1, h2, take_append_drop]

theorem bytes_foldl_write (l : List (List Nat)) (h : l.flatten.length ≤ r.free) :
    (l.foldl write r).bytes = r.bytes ++ l.flatten := by
  induction l generalizing r with
  | nil => simp
  | cons src l ih =>
    rw [flatten_cons, length_append] at h
    have hbytes := r.bytes_write src
    rw [take_of_length_le (by omega)] at hbytes
    have hused := congrArg length hbytes
    simp only [length_append, length_bytes] at hused
    rw [foldl_cons, ih _ (by unfold free at *; omega), hbytes, flatten_cons, append_assoc]

end RxRing

/-- A TCP socket.  `accepted` and `returned` are the bytes of the accepted segments and those handed out so far,
`credit` the sum of the lengths passed to `tcp_recved`. -/
structure TcpSocket where
  tcp : Bool
  ring : RxRing
  accepted : List Nat
  returned : List Nat
  credit : Nat

def TcpSocket.new (tcp : Bool) : TcpSocket := ⟨tcp, ⟨fun _ => 0, 0, 0⟩, [], [], 0⟩

inductive TcpOp
  | segment (p : Pbuf)
  | read (count : Nat)
  | recv (c : Receive)
  /-- The socket gets its PCB, or loses it. -/
  | pcb (tcp : Bool)

/-- `tcp_on_recv`, `inet_read` (whose credit is a `u16_t`), and the TCP parts of `do_recvfrom` and
`sock_recvmsg_file`. -/
def TcpSocket.exec (a : Arch) (s : TcpSocket) : TcpOp → TcpSocket
  | .segment p =>
    if s.ring.free < p.chain.flatten.length then s
    else { s with ring := p.chain.foldl RxRing.write s.ring, accepted := s.accepted ++ p.chain.flatten,
                  credit := s.credit + p.chain.flatten.length }
  | .read count =>
    let r := s.ring.read (count % 2 ^ 32)
    { s with ring := r.2, returned := s.returned ++ r.1, credit :=
      s.credit + if s.tcp then r.1.length % 2 ^ 16 else 0 }
  | .recv c =>
    if c.returnsAtOnce a false ∨ s.ring.used = 0 then s
    else
      let r := RxRing.iovRead c.iov s.ring.used s.ring
      { s with ring := r.2, returned := s.returned ++ r.1 }
  | .pcb tcp => { s with tcp := tcp }

/-- A `read` finds no PCB, or asks for no byte, or finds none. -/
def TcpOp.Uncredited (s : TcpSocket) : TcpOp → Prop
  | .read count => s.tcp = true → min (count % 2 ^ 32) s.ring.used = 0
  | _ => True

variable {a : Arch} {s : TcpSocket} {op : TcpOp}

theorem TcpSocket.exec_bytes (h : s.returned ++ s.ring.bytes = s.accepted) :
    (s.exec a op).returned ++ (s.exec a op).ring.bytes = (s.exec a op).accepted := by
  cases op with
  | segment p =>
    dsimp only [exec]
    split
    · exact h
    · rw [RxRing.bytes_foldl_write _ _ (by omega), ← append_assoc, h]
  | read count =>
    obtain ⟨h1, h2⟩ := s.ring.read_bytes (count % 2 ^ 32)
    dsimp only [exec]
    rw [append_assoc, h1, h2, take_append_drop, h]
  | recv c =>
    dsimp only [exec]
    split
    · exact h
    · rw [append_assoc, RxRing.iovRead_bytes, h]
  | pcb tcp => exact h

theorem TcpSocket.exec_credit (hop : op.Uncredited s) (h : s.credit = s.accepted.length) :
    (s.exec a op).credit = (s.exec a op).accepted.length := by
  cases op with
  | segment p =>
    dsimp only [exec]
    split
    · exact h
    · simp [h]
  | read count =>
    have hlen : s.tcp = true → (s.ring.read (count % 2 ^ 32)).1.length = 0 := by
      intro ht
      rw [(s.ring.read_bytes _).1, length_take, RxRing.length_bytes]
      exact hop ht
    dsimp only [exec]
    split
    · rw [hlen ‹_›]
      exact h
    · exact h
  | recv c =>
    dsimp only [exec]
    split <;> exact h
  | pcb tcp => exact h

/-- In every run the bytes handed out and those in the ring are the accepted ones; if no `read` gives credit, the
credit is at most their number. -/
theorem tcp_runs (a : Arch) (tcp : Bool) (tr : List TcpOp) (s : TcpSocket) :
    (Run (fun s op s' => s' = s.exec a op) (.new tcp) tr s → s.returned ++ s.ring.bytes = s.accepted) ∧
    (Run (fun s op s' => op.Uncredited s ∧ s' = s.exec a op) (.new tcp) tr s → s.credit ≤ s.accepted.length) := by
  constructor
  · intro h
    refine h.invariant_state (fun s => s.returned ++ s.ring.bytes = s.accepted)
      (by simp [TcpSocket.new, RxRing.bytes, RxRing.used]) ?_
    rintro s op _ hs rfl
    exact s.exec_bytes hs
  · intro h
    refine Nat.le_of_eq (h.invariant_state (fun s => s.credit = s.accepted.length) rfl ?_)
    rintro s op _ hs ⟨hop, rfl⟩
    exact s.exec_credit hop hs

theorem tcp_runs_recv : ∃ s : TcpSocket, Run (fun s op s' => op.Uncredited s ∧ s' = s.exec .x8664 op) (.new true)
    [.segment oneByte, .segment oneByte, .recv (.recvfrom 1)] s ∧ s.returned = [7] ∧ s.credit = 2 ∧
      s.credit ≤ s.accepted.length := by
  have h : Run (fun s op s' => TcpOp.Uncredited s op ∧ s' = s.exec .x8664 op) (.new true)
      [.segment oneByte, .segment oneByte, .recv (.recvfrom 1)] _ :=
    .snoc (.snoc (.single ⟨trivial, rfl⟩) ⟨trivial, rfl⟩) ⟨trivial, rfl⟩
  exact ⟨_, h, rfl, rfl, (tcp_runs .x8664 true _ _).2 h⟩

/-- The byte is credited when it arrives, and again by `read`. -/
theorem read_credits_again : ∃ s : TcpSocket,
    Run (fun s op s' => s' = s.exec .x8664 op) (.new true) [.segment oneByte, .read 1] s ∧
      s.credit = 2 ∧ s.accepted = [7] := ⟨_, (Run.nil.snoc rfl).snoc rfl, rfl, rfl⟩

end Mos.Net
