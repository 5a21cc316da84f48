import Mos.Net.Send

/-!
# Receiving datagrams

A UDP or raw socket keeps the datagrams of lwIP in its receive ring, each behind its length.  The source, destination,
interface and TTL are kept beside the ring for the last arrival only, so a receive returns those of the datagram that
it hands out as long as none with others arrives while a datagram is queued (`receives_match`).
-/

namespace Mos.Net

open List

/-- `rx_write` on the bytes in the ring. -/
def rxWrite (size : Nat) (ring src : List Nat) : List Nat := ring ++ src.take (size - 1 - ring.length)

def rxIovWrite (size : Nat) (ring : List Nat) (iov : List (List Nat)) : List Nat :=
  iov.foldl (fun ring src => rxWrite size ring (cut src)) ring

/-- `rx_iov_read`: the bytes handed out, what is left of the limit, and the rest of the ring. -/
def rxIovRead : List Nat → Nat → List Nat → List Nat × Nat × List Nat
  | [], limit, ring => ([], limit, ring)
  | len :: iov, limit, ring =>
    let n := min (len % 2 ^ 32) limit
    let r := rxIovRead iov (limit - n) (ring.drop n)
    (ring.take n ++ r.1, r.2)

def capacity (iov : List Nat) : Nat := (iov.map (· % 2 ^ 32)).sum

def ofBytes (l : List Nat) : Nat := l.foldr (fun b n => b + 256 * n) 0

/-- The size of a header, and how many of its first bytes hold the length of the record. -/
structure Framing where
  size : Nat
  lenSize : Nat

/-- A whole record: its header states its length. -/
structure Frame (f : Framing) where
  head : List Nat
  payload : List Nat
  size : head.length = f.size
  length : ofBytes (head.take f.lenSize) = payload.length

def Frame.bytes {f : Framing} (r : Frame f) : List Nat := r.head ++ r.payload

/-- What a receive reads: the header, the bytes handed out, the number of those dropped, and the rest of the ring. -/
structure Record where
  head : List Nat
  data : List Nat
  dropped : Nat
  rest : List Nat

def readRecord (f : Framing) (iov ring : List Nat) : Record :=
  let r := rxIovRead iov (ofBytes ((ring.take f.size).take f.lenSize)) (ring.drop f.size)
  ⟨ring.take f.size, r.1, r.2.1, r.2.2.drop r.2.1⟩

theorem rxIovWrite_fits {size : Nat} {ring : List Nat} {iov : List (List Nat)}
    (h : ring.length + iov.flatten.length ≤ size - 1) (h32 : iov.flatten.length < 2 ^ 32) :
    rxIovWrite size ring iov = ring ++ iov.flatten := by
  induction iov generalizing ring with
  | nil => simp [rxIovWrite]
  | cons src iov ih =>
    simp only [flatten_cons, length_append] at h h32
    have hw : rxWrite size ring (cut src) = ring ++ src := by
      rw [cut_of_lt (by omega), rxWrite, take_of_length_le (by omega)]
    rw [rxIovWrite, foldl_cons, hw, ← rxIovWrite, ih (by rw [length_append]; omega) (by omega)]
    simp

theorem rxIovRead_append (iov payload rest : List Nat) : rxIovRead iov payload.length (payload ++ rest) =
    (payload.take (capacity iov), payload.length - capacity iov, payload.drop (capacity iov) ++ rest) := by
  induction iov generalizing payload with
  | nil => simp [rxIovRead, capacity]
  | cons len iov ih =>
    have hcap : capacity (len :: iov) = len % 2 ^ 32 + capacity iov := by simp [capacity]
    rw [rxIovRead, drop_append_of_le_length (Nat.min_le_right _ _), ← length_drop, ih,
      take_append_of_le_length (Nat.min_le_right _ _), hcap]
    by_cases hle : len % 2 ^ 32 ≤ payload.length
    · rw [Nat.min_eq_left hle, length_drop, drop_drop, take_add, Nat.sub_sub]
    · have hall : payload.length ≤ len % 2 ^ 32 + capacity iov := by omega
      rw [Nat.min_eq_right (by omega), take_of_length_le hall, drop_of_length_le hall]
      simp
      omega

/-- A receive takes exactly the record at the head of the ring. -/
theorem readRecord_append {f : Framing} (r : Frame f) (iov rest : List Nat) : readRecord f iov (r.bytes ++ rest) =
    ⟨r.head, r.payload.take (capacity iov), r.payload.length - capacity iov, rest⟩ := by
  have htake : (r.bytes ++ rest).take f.size = r.head := by
    rw [Frame.bytes, append_assoc, take_left' r.size]
  have hdrop : (r.bytes ++ rest).drop f.size = r.payload ++ rest := by
    rw [Frame.bytes, append_assoc, drop_left' r.size]
  rw [readRecord, htake, hdrop, r.length, rxIovRead_append]
  simp

/-- What lwIP says about a datagram; the port of a raw one is 0. -/
structure Meta where
  addr : Nat
  port : Nat
  dst : Nat
  ifindex : Nat
  ttl : Nat

/-- A chain of packet buffers, whose total length is a `u16_t`. -/
structure Pbuf where
  chain : List (List Nat)
  totLen : chain.flatten.length < 2 ^ 16

/-- A socket, with its `icmp_filter` if it is raw, and the `rx_` fields of the last arrival. -/
structure Inet where
  size : Nat
  filter : Option Nat
  ring : List Nat
  rx : Meta

inductive Recv
  | read (count : Nat)
  | recvfrom (len : Nat) (name : Bool)
  | recvmsg (iov : List Nat) (name ttl pktinfo : Bool)

/-- The source address and the ancillary data that a receive returns. -/
structure Info where
  src : Option (Nat × Nat) := none
  ttl : Option Nat := none
  pktinfo : Option (Nat × Nat) := none
deriving DecidableEq

def Recv.iov : Recv → List Nat
  | .read len | .recvfrom len _ => [len]
  | .recvmsg iov .. => iov

def Recv.info (m : Meta) : Recv → Info
  | .read _ => {}
  | .recvfrom _ name => { src := if name then some (m.addr, m.port) else none }
  | .recvmsg _ name ttl pktinfo =>
    ⟨if name then some (m.addr, m.port) else none, if ttl then some m.ttl else none,
      if pktinfo then some (m.ifindex, m.dst) else none⟩

/-- `recvmsg` returns at once for a total length of 0, which is computed in a `size_t`. -/
def Recv.empty (a : Arch) : Recv → Bool
  | .recvmsg iov .. => iov.sum % 2 ^ a.bits == 0
  | _ => false

inductive Op
  | deliver (p : Pbuf) (m : Meta)
  | receive (c : Recv)

/-- `ICMP_FILTER`, by the type in the first packet buffer; the shift count is taken modulo 32. -/
def filtered (filter : Option Nat) (p : Pbuf) : Bool :=
  match filter, (p.chain.headD [])[(p.chain.headD []).headD 0 % 16 * 4]? with
  | some data, some type => data.testBit (type % 32)
  | _, _ => false

def udpFraming : Framing := ⟨2, 2⟩

def header (n : Nat) : List Nat := [n % 256, n / 256]

/-- `udp_on_recv` and `raw_on_recv`. -/
def onRecv (sk : Inet) (p : Pbuf) (m : Meta) : Inet :=
  if filtered sk.filter p then sk
  else if 2 + p.chain.flatten.length ≤ sk.size - 1 - sk.ring.length then
    { sk with rx := m, ring := rxIovWrite sk.size (rxWrite sk.size sk.ring (header p.chain.flatten.length)) p.chain }
  else { sk with rx := m }

/-- `inet_read`, `do_recvfrom` and `sock_recvmsg_file`; a receive that finds no datagram fails or waits. -/
def receive (a : Arch) (sk : Inet) (c : Recv) : Inet × Option (List Nat × Info) :=
  if c.empty a then (sk, some ([], { c.info sk.rx with src := none }))
  else if sk.ring.length < 2 then (sk, none)
  else
    let r := readRecord udpFraming c.iov sk.ring
    ({ sk with ring := r.rest }, some (r.data, c.info sk.rx))

def exec (a : Arch) (sk : Inet) : Op → Inet × Option (List Nat × Info)
  | .deliver p m => (onRecv sk p m, none)
  | .receive c => receive a sk c

/-- A datagram with what came with it. -/
structure Dgram where
  payload : List Nat
  fits : payload.length < 2 ^ 16
  info : Meta

def Dgram.frame (d : Dgram) : Frame udpFraming where
  head := header d.payload.length
  payload := d.payload
  size := rfl
  length := by
    simp [ofBytes, udpFraming, header]
    omega

def queueBytes (q : List Dgram) : List Nat := (q.map fun d => d.frame.bytes).flatten

/-- The socket's purpose: datagrams are handed out in order, each with its own data. -/
def specExec (a : Arch) (size : Nat) (filter : Option Nat) (q : List Dgram) :
    Op → List Dgram × Option (List Nat × Info)
  | .deliver p m =>
    (if filtered filter p = false ∧ 2 + p.chain.flatten.length ≤ size - 1 - (queueBytes q).length then
      q ++ [⟨p.chain.flatten, p.totLen, m⟩] else q, none)
  | .receive c =>
    if c.empty a then (q, some ([], {}))
    else match q with
      | [] => ([], none)
      | d :: q => (q, some (d.payload.take (capacity c.iov), c.info d.info))

/-- What the calls of a run return, one after another. -/
def outputs {σ β : Type} (f : σ → Op → σ × β) : σ → List Op → List β
  | _, [] => []
  | s, op :: ops => (f s op).2 :: outputs f (f s op).1 ops

/-- A datagram arrives at an empty ring or with the same data as the last one, and a `recvmsg` without room for a
payload asks for no ancillary data. -/
def Allowed (a : Arch) (sk : Inet) : Op → Prop
  | .deliver p m => filtered sk.filter p = true ∨ sk.ring = [] ∨ sk.rx = m
  | .receive (.recvmsg iov _ ttl pktinfo) => iov.sum % 2 ^ a.bits = 0 → ttl = false ∧ pktinfo = false
  | .receive _ => True

def AllowedRun (a : Arch) : Inet → List Op → Prop
  | _, [] => True
  | sk, op :: ops => Allowed a sk op ∧ AllowedRun a (exec a sk op).1 ops

/-- The ring holds the queue, and everything in the queue came with the data kept beside the ring. -/
structure Inet.Holds (sk : Inet) (q : List Dgram) : Prop where
  ring : sk.ring = queueBytes q
  rx : ∀ d ∈ q, d.info = sk.rx

variable {a : Arch} {sk : Inet} {q : List Dgram} {p : Pbuf} {m : Meta} {c : Recv}

private theorem queueBytes_cons (d : Dgram) : queueBytes (d :: q) = d.frame.bytes ++ queueBytes q := by
  simp [queueBytes]

theorem Inet.Holds.nil (h : sk.Holds q) (hring : sk.ring = []) : q = [] := by
  cases q with
  | nil => rfl
  | cons d q =>
    rw [h.ring, queueBytes_cons] at hring
    simp [Dgram.frame, Frame.bytes, header] at hring

private theorem onRecv_holds (h : sk.Holds q) (hok : Allowed a sk (.deliver p m)) :
    (onRecv sk p m).Holds (specExec a sk.size sk.filter q (.deliver p m)).1 := by
  unfold onRecv
  by_cases hf : filtered sk.filter p = true
  · simpa [specExec, hf] using h
  have hall : ∀ d ∈ q, d.info = m := by
    intro d hd
    rcases hok.resolve_left hf with hring | rfl
    · simp [h.nil hring] at hd
    · exact h.rx d hd
  rw [if_neg hf]
  simp only [specExec, Bool.not_eq_true _ ▸ hf, true_and, ← h.ring]
  split_ifs with hfree
  · have hhead : (header p.chain.flatten.length).length = 2 := rfl
    constructor
    · have hlen := p.totLen
      rw [rxWrite, take_of_length_le (by omega), rxIovWrite_fits (by rw [length_append]; omega) (by omega), h.ring]
      simp [queueBytes, Frame.bytes, Dgram.frame]
    · exact forall_mem_append.2 ⟨hall, forall_mem_singleton.2 rfl⟩
  · exact ⟨h.ring, hall⟩

private theorem receive_holds (h : sk.Holds q) (hok : Allowed a sk (.receive c)) :
    (receive a sk c).1.Holds (specExec a sk.size sk.filter q (.receive c)).1 ∧
      (receive a sk c).2 = (specExec a sk.size sk.filter q (.receive c)).2 := by
  unfold receive
  by_cases he : c.empty a = true
  · simp only [specExec, he, if_true]
    refine ⟨h, ?_⟩
    cases c with
    | recvmsg iov name ttl pktinfo => simp_all [Allowed, Recv.empty, Recv.info]
    | _ => cases he
  simp only [specExec, if_neg he]
  cases q with
  | nil => simpa [h.ring, queueBytes] using h
  | cons d q =>
    have hlen : ¬sk.ring.length < 2 := by
      simp [h.ring, queueBytes_cons, Dgram.frame, Frame.bytes, header]
    rw [if_neg hlen, h.ring, queueBytes_cons, readRecord_append]
    refine ⟨⟨rfl, fun x hx => h.rx x (mem_cons_of_mem _ hx)⟩, ?_⟩
    simp [h.rx d, Dgram.frame]

private theorem exec_config (op : Op) : (exec a sk op).1.size = sk.size ∧ (exec a sk op).1.filter = sk.filter := by
  cases op <;> simp only [exec, onRecv, receive] <;> split_ifs <;> simp

theorem outputs_eq (ops : List Op) (h : sk.Holds q) (hok : AllowedRun a sk ops) :
    outputs (exec a) sk ops = outputs (specExec a sk.size sk.filter) q ops := by
  induction ops generalizing sk q with
  | nil => rfl
  | cons op ops ih =>
    have hstep : (exec a sk op).1.Holds (specExec a sk.size sk.filter q op).1 ∧
        (exec a sk op).2 = (specExec a sk.size sk.filter q op).2 := by
      cases op with
      | deliver p m => exact ⟨onRecv_holds h hok.1, rfl⟩
      | receive c => exact receive_holds h hok.1
    have hrest := ih hstep.1 hok.2
    rw [(exec_config op).1, (exec_config op).2] at hrest
    simp only [outputs, hstep.2, hrest]

/-- In every allowed run of a new socket each receive returns the oldest datagram with its own address and ancillary
data. -/
theorem receives_match (a : Arch) (size : Nat) (filter : Option Nat) (rx : Meta) {ops : List Op}
    (h : AllowedRun a ⟨size, filter, [], rx⟩ ops) :
    outputs (exec a) ⟨size, filter, [], rx⟩ ops = outputs (specExec a size filter) [] ops :=
  outputs_eq ops ⟨rfl, by simp⟩ h

def oneByte : Pbuf := ⟨[[7]], by decide⟩

/-- Two datagrams of one source and one of another. -/
theorem receives_match_one : ∃ ops, outputs (exec .x8664) ⟨16, none, [], ⟨0, 0, 0, 0, 0⟩⟩ ops =
    [none, none, some ([7], { src := some (1, 1) }), some ([7], { src := some (1, 1) }), none,
      some ([7], { src := some (2, 2) })] ∧
    outputs (exec .x8664) ⟨16, none, [], ⟨0, 0, 0, 0, 0⟩⟩ ops = outputs (specExec .x8664 16 none) [] ops :=
  ⟨[.deliver oneByte ⟨1, 1, 9, 1, 64⟩, .deliver oneByte ⟨1, 1, 9, 1, 64⟩, .receive (.recvfrom 8 true),
    .receive (.recvfrom 8 true), .deliver oneByte ⟨2, 2, 9, 1, 64⟩, .receive (.recvfrom 8 true)], by decide,
    receives_match _ _ _ _ ⟨.inr (.inl rfl), .inr (.inr rfl), trivial, trivial, .inr (.inl (by decide)), trivial,
      trivial⟩⟩

/-- Two datagrams are queued: the first is returned with the source of the second. -/
theorem source_of_later : outputs (exec .x8664) ⟨16, none, [], ⟨0, 0, 0, 0, 0⟩⟩
    [.deliver oneByte ⟨1, 1, 9, 1, 64⟩, .deliver oneByte ⟨2, 2, 9, 1, 64⟩, .receive (.recvfrom 8 true)] =
      [none, none, some ([7], { src := some (2, 2) })] := by
  decide

end Mos.Net
