import Mos.Net.Peek
import Mos.Lib.Run

/-!
# AF_UNIX records

Datagram and seqpacket sockets keep whole records in the receive ring.  A datagram receive goes on to the parser
although there is no record when the socket is shut down for reading or an ancillary record is queued.  The second
never happens with an empty ring: the queued ancillary records belong to the last of the records that carry files
(`Holds`).
-/

namespace Mos.Net

open Function Lib List Socket

def positions (head tail : Fin 16) : List (Fin 16) := ((List.finRange 16).take (tail - head).val).map (head + ·)

private theorem positions_cons : ∀ head tail : Fin 16, head ≠ tail →
    positions head tail = head :: positions (nextSlot head) tail ∧ head ∉ positions (nextSlot head) tail := by
  decide +kernel

private theorem positions_snoc : ∀ head tail : Fin 16, nextSlot tail ≠ head →
    positions head (nextSlot tail) = positions head tail ++ [tail] ∧ tail ∉ positions head tail := by
  decide +kernel

def Socket.queue (sk : Socket) : List PassMsg := (positions sk.passHead sk.passTail).map sk.slots

/-- `unix_queue_passfds` without credentials. -/
def Socket.queuePassfds (sk : Socket) (files : List Nat) : Option Socket :=
  if files = [] then some sk
  else if nextSlot sk.passTail = sk.passHead then none
  else
    let tail := sk.rxHead + UInt32.ofNat sk.ring.length
    some { sk with slots := update sk.slots sk.passTail ⟨tail, tail, files, none⟩, passTail := nextSlot sk.passTail }

variable {sk : Socket}

private theorem map_update_of_not_mem {l : List (Fin 16)} {slots : Fin 16 → PassMsg} {i : Fin 16} {msg : PassMsg}
    (h : i ∉ l) : l.map (update slots i msg) = l.map slots := by
  apply map_congr_left
  intro j hj
  exact update_of_ne (ne_of_mem_of_not_mem hj h) _ _

theorem Socket.queue_of_ne (h : sk.passHead ≠ sk.passTail) :
    ∃ q, sk.queue = sk.slots sk.passHead :: q ∧ (¬sk.unready → sk.collectOne.queue = q) := by
  obtain ⟨hcons, hnot⟩ := positions_cons _ _ h
  refine ⟨(positions (nextSlot sk.passHead) sk.passTail).map sk.slots, by rw [queue, hcons, map_cons], ?_⟩
  intro hready
  rw [collectOne, if_neg (not_or.2 ⟨h, hready⟩)]
  exact map_update_of_not_mem hnot

theorem Socket.queuePassfds_spec (sk : Socket) {files : List Nat}
    (h : files = [] ∨ nextSlot sk.passTail ≠ sk.passHead) :
    ∃ sk', sk.queuePassfds files = some sk' ∧ sk'.ring = sk.ring ∧ sk'.rxHead = sk.rxHead ∧
      sk'.queue = sk.queue ++ if files = [] then [] else
        [⟨sk.rxHead + UInt32.ofNat sk.ring.length, sk.rxHead + UInt32.ofNat sk.ring.length, files, none⟩] := by
  unfold queuePassfds
  by_cases hnil : files = []
  · exact ⟨sk, by simp [hnil]⟩
  · obtain ⟨hsnoc, hnot⟩ := positions_snoc _ _ (h.resolve_left hnil)
    rw [if_neg hnil, if_neg (h.resolve_left hnil)]
    refine ⟨_, rfl, rfl, rfl, ?_⟩
    simp [queue, hnil, hsnoc, map_update_of_not_mem hnot]

/-! ### Sends and receives -/

inductive RecordType
  | dgram
  | seqpacket
deriving DecidableEq

def RecordType.framing : RecordType → Framing
  | .dgram => dgramFraming
  | .seqpacket => seqpacketFraming

def RecordType.family : RecordType → Family
  | .dgram => .unixDgram
  | .seqpacket => .unixSeqpacket

def RecordType.rxbufSize : RecordType → Nat
  | .dgram => 4096
  | .seqpacket => 262144

def RecordType.longest : RecordType → Nat
  | .dgram => 0xffff
  | .seqpacket => RecordType.seqpacket.rxbufSize - 1 - seqpacketFraming.size

def word (n : Nat) : List Nat := [n % 256, n / 256 % 256, n / 65536 % 256, n / 16777216 % 256]

/-- A message: `info` is the rest of its header, and `unix_cmsg_collect_files` takes at most 16 files. -/
structure Message (k : RecordType) where
  iov : List (List Nat)
  info : List Nat
  files : List Nat
  info_length : info.length + 4 = k.framing.size
  files_length : files.length ≤ 16

inductive Reply
  | failed
  | done (count : Nat)
  | received (count : Nat) (data : List Nat) (trunc : Bool)
  | endOfFile
deriving DecidableEq

/-- A call on the receiving socket or one that sends to it.  A send may fail before it looks at the ring; `full` is
`MSG_TRUNC`, and `stack` is what the header on the stack holds before it is read. -/
inductive RecordOp (k : RecordType)
  | send (m : Message k) (refused : Bool)
  | recv (c : Receive) (peek full : Bool) (stack : List Nat)
  | shutdown

variable {k : RecordType} (a : Arch)

/-- `unix_sendmsg` on the socket of the receiver; `unix_sendmsg_seqpacket` does not look at the result of
`unix_queue_passfds`. -/
def sendRecord (sk : Socket) (m : Message k) (refused : Bool) : Socket × Reply :=
  let total := m.iov.flatten.length % 2 ^ a.bits
  if refused = true ∨ m.files ≠ [] ∧ nextSlot sk.passTail = sk.passHead ∨ total > k.longest ∨
      k.rxbufSize - 1 - sk.ring.length < k.framing.size + total then (sk, .failed)
  else
    let read := { sk with ring := rxIovWrite k.rxbufSize (rxWrite k.rxbufSize sk.ring (word total ++ m.info)) m.iov }
    match read.queuePassfds m.files with
    | some sk' => (sk', .done total)
    | none => (read, if k = .dgram then .failed else .done total)

/-- The wait of a datagram receive ends without a record. -/
def Socket.parses (k : RecordType) (sk : Socket) : Bool := k == .dgram && (sk.shutRd || sk.passHead != sk.passTail)

def execRecord (sk : Socket) : RecordOp k → Socket × Reply
  | .send m refused => sendRecord a sk m refused
  | .recv c peek full stack =>
    if sk.ring.length < k.framing.size ∧ sk.parses k = false then
      (sk, if k = .seqpacket ∧ sk.shutRd = true then .endOfFile else .failed)
    else
      let r := sk.record k.framing stack c.iov
      let length := ofBytes (r.head.take 4)
      (recvRecord k.framing stack peek (sk.parses k) c.iov sk,
        .received (if full then length else length - r.dropped) r.data (0 < r.dropped))
  | .shutdown => ({ sk with shutRd := true }, .done 0)

/-! ### The records -/

/-- The total of a send does not wrap, the lengths of a receive fit in 32 bits, and no datagram is received from an
empty socket that is shut down. -/
def AllowedRecord (sk : Socket) : RecordOp k → Prop
  | .send m _ => m.iov.flatten.length < 2 ^ a.bits
  | .recv c .. => (∀ len ∈ c.iov, len < 2 ^ 32) ∧ (k = .dgram → sk.shutRd = true → sk.ring ≠ [])
  | .shutdown => True

def RecordStep (sk : Socket) (op : RecordOp k) (sk' : Socket) : Prop :=
  AllowedRecord a sk op ∧ sk' = (execRecord a sk op).1

/-- What a call does to a ring of whole records. -/
structure RecordGood (sk : Socket) (op : RecordOp k) (sk' : Socket) (r : Reply) : Prop where
  whole : ∃ l : List (Frame k.framing), sk'.ring = (l.map Frame.bytes).flatten
  failed : r = .failed → sk'.ring = sk.ring
  received : ∀ c full stack count data trunc, op = .recv c false full stack → r = .received count data trunc →
    ∃ fr : Frame k.framing, sk.ring = fr.bytes ++ sk'.ring ∧ data = fr.payload.take c.iov.sum ∧
      (trunc = true ↔ c.iov.sum < fr.payload.length) ∧ count = if full then fr.payload.length else data.length
  endOfFile : r = .endOfFile → sk' = sk ∧ sk.ring = []

/-- The offsets behind the records that carry files. -/
def ends (head : UInt32) : List (Frame k.framing × Bool) → List UInt32
  | [] => []
  | (fr, carries) :: l =>
    let tail := head + UInt32.ofNat fr.bytes.length
    (if carries then [tail] else []) ++ ends tail l

def framesBytes (l : List (Frame k.framing × Bool)) : List Nat := (l.map fun x => x.1.bytes).flatten

structure Socket.Holds (sk : Socket) (l : List (Frame k.framing × Bool)) : Prop where
  ring : sk.ring = framesBytes l
  queue : sk.queue.map PassMsg.readyHead <:+ ends sk.rxHead l
  files : ∀ msg ∈ sk.queue, msg.files.length ≤ 16

variable {a} {l : List (Frame k.framing × Bool)} {m : Message k} {c : Receive} {op : RecordOp k}

private theorem ends_append (head : UInt32) (fr : Frame k.framing) (carries : Bool) :
    ends head (l ++ [(fr, carries)]) =
    ends head l ++ if carries then [head + UInt32.ofNat (framesBytes l ++ fr.bytes).length] else [] := by
  induction l generalizing head with
  | nil => simp [ends, framesBytes]
  | cons x l ih =>
    have hlen : framesBytes (x :: l) = x.1.bytes ++ framesBytes l := by simp [framesBytes]
    rw [cons_append, ends, ends, ih, hlen]
    simp [UInt32.ofNat_add, UInt32.add_assoc]

private theorem ofBytes_word {n : Nat} (h : n < 2 ^ 32) : ofBytes (word n) = n := by
  simp [ofBytes, word]
  omega

private theorem framing_lenSize : k.framing.lenSize = 4 := by
  cases k <;> rfl

theorem Socket.Holds.whole (h : sk.Holds l) : ∃ l : List (Frame k.framing), sk.ring = (l.map Frame.bytes).flatten :=
  ⟨l.map Prod.fst, by rw [h.ring, framesBytes, map_map]; rfl⟩

theorem Socket.Holds.eq_tail (h : sk.Holds ([] : List (Frame k.framing × Bool))) : sk.passHead = sk.passTail := by
  by_contra hne
  obtain ⟨q, hq, -⟩ := sk.queue_of_ne hne
  have hsuffix := h.queue
  rw [hq] at hsuffix
  simp [ends] at hsuffix

/-- Taking the oldest record takes its ancillary record as well: that one is ready. -/
theorem Socket.Holds.collectOne (carries : Bool) (hring : sk.ring = framesBytes l)
    (hqueue : sk.queue.map PassMsg.readyHead <:+ (if carries then [sk.rxHead] else []) ++ ends sk.rxHead l)
    (hfiles : ∀ msg ∈ sk.queue, msg.files.length ≤ 16) : sk.collectOne.Holds l := by
  have hcases : sk.queue.map PassMsg.readyHead = sk.rxHead :: ends sk.rxHead l ∨
      sk.queue.map PassMsg.readyHead <:+ ends sk.rxHead l := by
    cases carries with
    | false => exact .inr hqueue
    | true => exact suffix_cons_iff.1 hqueue
  by_cases hready : sk.passHead = sk.passTail ∨ sk.unready
  · rw [Socket.collectOne, if_pos hready]
    refine ⟨hring, hcases.resolve_left ?_, hfiles⟩
    intro heq
    by_cases hne : sk.passHead = sk.passTail
    · simp [Socket.queue, hne, positions] at heq
    obtain ⟨q, hq, -⟩ := sk.queue_of_ne hne
    rw [hq, map_cons] at heq
    rcases hready.resolve_left hne with hlt | hlong
    · rw [(List.cons.inj heq).1] at hlt
      exact UInt32.lt_irrefl _ hlt
    · have := hfiles _ (hq ▸ mem_cons_self)
      omega
  · obtain ⟨q, hq, hpop⟩ := sk.queue_of_ne (not_or.1 hready).1
    have hrest := hpop (not_or.1 hready).2
    rw [hq, map_cons] at hcases
    have hsuffix : q.map PassMsg.readyHead <:+ ends sk.rxHead l := by
      rcases hcases with heq | hsuffix
      · exact (List.cons.inj heq).2 ▸ suffix_rfl
      · exact (suffix_cons _ _).trans hsuffix
    rw [hq] at hfiles
    rw [Socket.collectOne, if_neg hready] at hrest ⊢
    exact ⟨hring, hrest ▸ hsuffix, fun msg hmsg => hfiles msg (mem_cons_of_mem _ (hrest ▸ hmsg))⟩

/-- A send fails and changes nothing, or puts one record behind the others. -/
theorem sendRecord_holds {refused : Bool} (h : sk.Holds l) (hlen : m.iov.flatten.length < 2 ^ a.bits) :
    sendRecord a sk m refused = (sk, .failed) ∨ ∃ l' : List (Frame k.framing × Bool),
      (sendRecord a sk m refused).1.Holds l' ∧ ∃ n, (sendRecord a sk m refused).2 = .done n := by
  unfold sendRecord
  rw [Nat.mod_eq_of_lt hlen]
  dsimp only
  generalize hpayload : m.iov.flatten = payload at hlen
  split
  · exact .inl rfl
  rename_i hc
  simp only [not_or, not_and, Nat.not_lt, gt_iff_lt] at hc
  obtain ⟨-, hroom, hlong, hfree⟩ := hc
  have hsize : 4 < k.framing.size ∧ k.longest < 2 ^ 32 := by cases k <;> decide
  have hhead : (word payload.length ++ m.info).length = k.framing.size := by
    rw [length_append, ← m.info_length, Nat.add_comm]
    rfl
  let fr : Frame k.framing := ⟨word payload.length ++ m.info, payload, hhead, by
    rw [framing_lenSize]
    exact ofBytes_word (by omega)⟩
  have hring : rxIovWrite k.rxbufSize (rxWrite k.rxbufSize sk.ring (word payload.length ++ m.info)) m.iov =
      framesBytes l ++ fr.bytes := by
    rw [rxWrite, take_of_length_le (by omega),
      rxIovWrite_fits (by rw [hpayload, length_append]; omega) (by rw [hpayload]; omega), h.ring, hpayload,
      append_assoc]
    rfl
  have hfiles : m.files = [] ∨ nextSlot sk.passTail ≠ sk.passHead := or_iff_not_imp_left.2 hroom
  obtain ⟨sk', hsome, hring', hhead', hqueue⟩ :=
    queuePassfds_spec { sk with ring := framesBytes l ++ fr.bytes } hfiles
  rw [hring, hsome]
  refine .inr ⟨l ++ [(fr, !m.files.isEmpty)], ⟨?_, ?_, ?_⟩, _, rfl⟩
  · rw [hring']
    simp [framesBytes]
  · rw [hqueue, hhead', ends_append, map_append]
    obtain ⟨t, ht⟩ := h.queue
    by_cases hnil : m.files = [] <;> exact ⟨t, by simp [hnil, ← ht, queue]⟩
  · intro msg hmsg
    rw [hqueue] at hmsg
    rcases mem_append.1 hmsg with hmsg | hmsg
    · exact h.files msg hmsg
    · split_ifs at hmsg
      · cases hmsg
      · rw [mem_singleton.1 hmsg]
        exact m.files_length

private theorem recvRecord_holds {fr : Frame k.framing} {carries : Bool} (h : sk.Holds ((fr, carries) :: l))
    (stack : List Nat) (parses : Bool) (iov : List Nat) :
    let r := recvRecord k.framing stack false parses iov sk
    sk.record k.framing stack iov = ⟨fr.head, fr.payload.take (capacity iov), fr.payload.length - capacity iov,
      framesBytes l⟩ ∧
      ¬sk.ring.length < k.framing.size ∧ sk.ring = fr.bytes ++ framesBytes l ∧ r.ring = framesBytes l ∧
        r.Holds l := by
  have hring : sk.ring = fr.bytes ++ framesBytes l := by
    rw [h.ring]
    simp [framesBytes]
  have hlen := congrArg List.length hring
  rw [length_append, Frame.bytes, length_append, fr.size] at hlen
  have hrecord : sk.record k.framing stack iov =
      ⟨fr.head, fr.payload.take (capacity iov), fr.payload.length - capacity iov, framesBytes l⟩ := by
    rw [record, drop_of_length_le (by simp; omega), append_nil, hring, readRecord_append]
  have hholds : (sk.rest (framesBytes l)).collectOne.Holds l := by
    have hrx : (sk.rest (framesBytes l)).rxHead = sk.rxHead + UInt32.ofNat fr.bytes.length := by
      simp [rest, hring]
    refine Holds.collectOne carries rfl ?_ h.files
    rw [hrx]
    exact h.queue
  refine ⟨hrecord, by omega, hring, ?_⟩
  rw [recvRecord, if_neg (by omega), hrecord]
  exact ⟨hholds.ring, hholds⟩

theorem Socket.Holds.good {sk' : Socket} {r : Reply} (h : sk'.Holds l) (hr : r = .failed → sk'.ring = sk.ring)
    (hop : ∀ c full stack, op ≠ .recv c false full stack) (he : r ≠ .endOfFile) : RecordGood sk op sk' r :=
  ⟨h.whole, hr, fun c full stack _ _ _ heq => absurd heq (hop c full stack), fun heq => absurd heq he⟩

private theorem execRecord_good (h : sk.Holds l) (hok : AllowedRecord a sk op) :
    (∃ l' : List (Frame k.framing × Bool), (execRecord a sk op).1.Holds l') ∧
      RecordGood sk op (execRecord a sk op).1 (execRecord a sk op).2 := by
  cases op with
  | send m refused =>
    rw [execRecord]
    rcases sendRecord_holds h hok with heq | ⟨l', hl', n, hn⟩
    · rw [heq]
      exact ⟨⟨l, h⟩, h.good (fun _ => rfl) (by simp) (by simp)⟩
    · rw [hn]
      exact ⟨⟨l', hl'⟩, hl'.good (by simp) (by simp) (by simp)⟩
  | shutdown =>
    have h' : (execRecord a sk (.shutdown : RecordOp k)).1.Holds l := { h with }
    exact ⟨⟨l, h'⟩, h'.good (fun _ => rfl) (by simp) (by simp [execRecord])⟩
  | recv c peek full stack =>
    cases l with
    | nil =>
      have hparses : sk.parses k = false := by
        cases k with
        | dgram => simpa [parses, h.eq_tail] using fun hs => hok.2 rfl hs h.ring
        | seqpacket => rfl
      have hlen : sk.ring.length < k.framing.size := by
        rw [h.ring]
        cases k <;> decide
      rw [execRecord, if_pos ⟨hlen, hparses⟩]
      refine ⟨⟨[], h⟩, h.whole, fun _ => rfl, ?_, fun _ => ⟨rfl, h.ring⟩⟩
      intro _ _ _ _ _ _ _ hr
      split_ifs at hr
    | cons x l =>
      obtain ⟨hrecord, hlen, hring, hring', hholds⟩ := recvRecord_holds h stack (sk.parses k) c.iov
      rw [execRecord, if_neg fun hc => hlen hc.1]
      cases peek with
      | true =>
        have hkeep : recvRecord k.framing stack true (sk.parses k) c.iov sk = sk := by
          rw [recvRecord, if_neg fun hc => hlen hc.1]
          rfl
        rw [hkeep]
        exact ⟨⟨_, h⟩, h.good (fun _ => rfl) (by simp) (by simp)⟩
      | false =>
        refine ⟨⟨l, hholds⟩, hholds.whole, by simp, ?_, by simp⟩
        rintro _ _ _ _ _ _ ⟨⟩ ⟨⟩
        refine ⟨x.1, by rw [hring', hring], ?_⟩
        have hlength := x.1.length
        rw [framing_lenSize] at hlength
        rw [hrecord, capacity, map_congr_left fun len hlen => Nat.mod_eq_of_lt (hok.1 len hlen), map_id']
        dsimp only
        rw [hlength]
        refine ⟨rfl, by simp only [decide_eq_true_eq]; omega, ?_⟩
        split_ifs
        · rfl
        · rw [length_take]
          omega

/-- In every allowed run the ring holds whole records, a failed send changes nothing, and a receive takes the oldest
record or finds the end of file. -/
theorem records_runs {slots : Fin 16 → PassMsg} {ops : List (RecordOp k)}
    (h : Run (RecordStep a) (.new k.family slots) ops sk) (hok : AllowedRecord a sk op) :
    RecordGood sk op (execRecord a sk op).1 (execRecord a sk op).2 := by
  have hinv : ∃ l : List (Frame k.framing × Bool), sk.Holds l := by
    refine h.invariant_state (fun sk => ∃ l : List (Frame k.framing × Bool), sk.Holds l)
      ⟨[], rfl, suffix_rfl, nofun⟩ ?_
    rintro t e _ ⟨l, hl⟩ ⟨hok, rfl⟩
    exact (execRecord_good hl hok).1
  obtain ⟨l, hl⟩ := hinv
  exact (execRecord_good hl hok).2

def noSlots : Fin 16 → PassMsg := fun _ => ⟨0, 0, [], none⟩

def firstReceive (k : RecordType) : RecordOp k := .recv (.recvfrom 1) false false [1]

/-- Three bytes in two pieces, with a file. -/
def withFile : Message .dgram := ⟨[[1, 2], [3]], replicate (dgramFraming.size - 4) 0, [9], rfl, by decide⟩

def plain : Message .dgram := ⟨[[4]], replicate (dgramFraming.size - 4) 0, [], rfl, by decide⟩

def cutReceive : RecordOp .dgram := .recv (.recvfrom 2) false false []

/-- The first of two datagrams, cut to the two bytes of the buffer. -/
theorem records_runs_cut : ∃ sk, Run (RecordStep .x8664) (.new .unixDgram noSlots)
      [.send withFile false, .send plain false] sk ∧ sk.passHead ≠ sk.passTail ∧
    (execRecord .x8664 sk cutReceive).2 = .received 2 [1, 2] true ∧
    RecordGood sk cutReceive (execRecord .x8664 sk cutReceive).1 (execRecord .x8664 sk cutReceive).2 := by
  have hsend : ∀ sk (m : Message .dgram), m.iov.flatten.length < 2 ^ 64 →
      RecordStep .x8664 sk (.send m false) (execRecord .x8664 sk (.send m false)).1 := fun _ _ h => ⟨h, rfl⟩
  have h := (Run.single (hsend (.new .unixDgram noSlots) withFile (by decide))).snoc (hsend _ plain (by decide))
  exact ⟨_, h, by decide +kernel, by decide +kernel,
    records_runs h ⟨by simp [Receive.iov], fun _ _ => by decide +kernel⟩⟩

/-- A datagram socket is shut down for reading: a receive returns the length that the stack holds. -/
theorem shutdown_reads_stack :
    (execRecord .x8664 (execRecord (k := .dgram) .x8664 (.new .unixDgram noSlots) .shutdown).1
    (firstReceive .dgram)).2 = .received 1 [] false := by
  decide

end Mos.Net
