import Mos.Signal.Pending
import Mos.Lib.Word

/-!
# Delivery of queued signals

The payloads that `sigqueueinfo` accepts against those that `ps_take_signal_info` hands out.  The queue of a signal
loses nothing: what is queued leaves it in order, and its pending bit is set while something is queued (`PendingOk`).
But a real-time signal other than `SIGRTMIN_KERNEL` is queued only if no instance of it is pending; otherwise the call
returns 0 and drops its payload (`sigqueueinfo_merges`).
-/

namespace Mos.Signal

open Lib Function List Pending

variable {sig : Nat}

private theorem getLsbD_sigBit {i : Nat} (h : 0 < sig) (h' : sig < nsig) :
    (sigBit sig).getLsbD i = decide (i + 1 = sig) := by
  have hs : sig < 65 := h'
  rw [sigBit, BitVec.getLsbD_twoPow]
  by_cases hi : i + 1 = sig
  · simp [hi, show sig - 1 = i by omega, show i < 64 by omega]
  · simp [hi, show sig - 1 ≠ i by omega]

theorem Pending.has_eq (p : Pending) (h : 0 < sig) (h' : sig < nsig) : p.has sig = p.bits.getLsbD (sig - 1) := by
  have hs : sig < 65 := h'
  have hne : BitVec.twoPow 64 (sig - 1) ≠ 0#64 := by
    intro h0
    have := congrArg (fun b => b.getLsbD (sig - 1)) h0
    simp [show sig - 1 < 64 by omega] at this
  rw [has, sigBit, BitVec.and_twoPow]
  cases hb : p.bits.getLsbD (sig - 1) with
  | true => simpa using hne
  | false => simp

theorem getLsbD_ctz {s : SigSet} (h : s ≠ 0) : s.getLsbD (ctz s) = true ∧ ctz s < 64 := (find_getLsbD h).symm

/-- The payloads of `sigqueueinfo`: not of a timer, and with a code that only it accepts. -/
def isPayload (i : Info) : Bool := i.timerId = -1 ∧ i.code < 0 ∧ i.code ≠ -6

def payloadOf (i : Info) : List Info := if isPayload i then [i] else []

/-- The payloads of `sig` that wait in a queue. -/
def queued (sig : Nat) (q : List Entry) : List Info :=
    (q.filter fun e => e.signo = sig ∧ e.timerId < 0).map Entry.info

private theorem queued_cons (sig : Nat) (a : Entry) (q : List Entry) :
    queued sig (a :: q) = (if a.signo = sig ∧ a.timerId < 0 then [a.info] else []) ++ queued sig q := by
  by_cases h : a.signo = sig ∧ a.timerId < 0 <;> simp [queued, h]

private theorem queued_append (sig : Nat) (q q' : List Entry) :
    queued sig (q ++ q') = queued sig q ++ queued sig q' := by
  simp [queued]

/-- The payload for `sig` of a call that returned 0. -/
def Event.accepted {T : Type} (sig : Nat) : Event T → List Info
  | .queueinfo c ret => if ret = 0 ∧ c.sig = sig then (c.uinfo.map c.payload).toList else []
  | _ => []

def Event.taken {T : Type} (sig : Nat) : Event T → List Info
  | .take _ _ (some (s, i)) => if s = sig then payloadOf i else []
  | _ => []

def accepted {T : Type} (sig : Nat) (tr : List (Event T)) : List Info := (tr.map (Event.accepted sig)).flatten

def taken {T : Type} (sig : Nat) (tr : List (Event T)) : List Info := (tr.map (Event.taken sig)).flatten

/-- Queued instances of `sig` keep its bit set, and the default payload of `sig` is told from the queued ones. -/
structure PendingOk (sig : Nat) (p : Pending) : Prop where
  bit : ∀ e ∈ p.queue, e.signo = sig → p.has sig = true
  payload : ∀ e ∈ p.queue, e.timerId < 0 → isPayload e.info = true
  default : isPayload (p.info sig) = false

/-- Only timers queue for a single task. -/
structure GroupOk {T : Type} (sig : Nat) (g : Group T) : Prop where
  shared : PendingOk sig g.shared
  own : ∀ t, PendingOk sig (g.own t)
  timers : ∀ t, ∀ e ∈ (g.own t).queue, 0 ≤ e.timerId

theorem PendingOk.empty (sig : Nat) : PendingOk sig .empty where
  bit := nofun
  payload := nofun
  default := rfl

theorem GroupOk.init (T : Type) (sig : Nat) : GroupOk sig (Group.init T) where
  shared := .empty sig
  own := fun _ => .empty sig
  timers := nofun

/-! ### Queueing -/

variable {p : Pending} {s x : Nat}

/-- Posting `s` clears the bit of `x`: `SIGCONT` those of the stop signals, and a stop signal that of `SIGCONT`. -/
def Clears (s x : Nat) : Prop := s = sigcont ∧ sigstop ≤ x ∧ x ≤ sigttou ∨ (sigstop ≤ s ∧ s ≤ sigttou) ∧ x = sigcont

instance (s x : Nat) : Decidable (Clears s x) := inferInstanceAs (Decidable (_ ∨ _))

theorem Pending.has_queueSignal_iff (hs : 0 < s) (hs' : s < nsig) (hx : 0 < x) (hx' : x < nsig) (p : Pending) :
    (p.queueSignal s).has x = true ↔ x = s ∨ p.has x = true ∧ ¬Clears s x := by
  have hstop : ∀ s < 65, 0 < s → (sigBit s &&& stopSignalsMask ≠ 0 ↔ 19 ≤ s ∧ s ≤ 22) := by decide +kernel
  have hmask : ∀ i < 64, stopSignalsMask.getLsbD i = decide (18 ≤ i ∧ i ≤ 21) := by decide +kernel
  have hcont : ∀ i < 64, (sigBit sigcont).getLsbD i = decide (i = 17) := by decide +kernel
  have hlt : x - 1 < 64 := by unfold nsig at hx'; omega
  have hself : x - 1 + 1 = s ↔ x = s := by omega
  rw [has_eq _ hx hx', has_eq _ hx hx']
  simp only [queueSignal, BitVec.getLsbD_or, Bool.or_eq_true, getLsbD_sigBit hs hs', hself, decide_eq_true_eq]
  rw [or_comm]
  refine or_congr_right ?_
  split_ifs with h1 h2
  · simp only [BitVec.getLsbD_and, BitVec.getLsbD_not, hmask _ hlt, hlt, decide_true, Bool.true_and, Bool.and_eq_true]
    refine and_congr_right fun _ => ?_
    simp [Clears, sigcont, sigstop, sigttou] at h1 ⊢
    omega
  · have hrange := (hstop s hs' hs).mp h2
    simp only [BitVec.getLsbD_and, BitVec.getLsbD_not, hcont _ hlt, hlt, decide_true, Bool.true_and, Bool.and_eq_true]
    refine and_congr_right fun _ => ?_
    simp [Clears, sigcont, sigstop, sigttou]
    omega
  · refine (and_iff_left ?_).symm
    have hrange := mt (hstop s hs' hs).mpr h2
    simp only [Clears, sigcont, sigstop, sigttou] at h1 ⊢
    omega

theorem getLsbD_clear (hs : 0 < s) (hs' : s < nsig) (hx : 0 < x) (hx' : x < nsig) (hne : s ≠ x) (b : SigSet) :
    (b &&& ~~~sigBit s).getLsbD (x - 1) = b.getLsbD (x - 1) := by
  have hlt : x - 1 < 64 := by unfold nsig at hx'; omega
  have hbit : (sigBit s).getLsbD (x - 1) = false := by
    rw [getLsbD_sigBit hs hs', decide_eq_false_iff_not]
    omega
  simp only [BitVec.getLsbD_and, BitVec.getLsbD_not, hbit, hlt, decide_true, Bool.not_false, Bool.and_true]

/-- Taking `s` clears its bit only when nothing is queued for it. -/
theorem Pending.has_take {s : Nat} (hs : 0 < s) (hs' : s < nsig) {e : Entry} (he : e ∈ (p.take s).2.queue)
    (h0 : 0 < e.signo) (h1 : e.signo < nsig) (hold : p.has e.signo = true) : (p.take s).2.has e.signo = true := by
  rw [has_eq _ h0 h1] at hold ⊢
  simp only [take]
  split
  · exact hold
  rename_i hno
  have hne : s ≠ e.signo := by
    rintro rfl
    exact hno (any_eq_true.2 ⟨e, he, by simp⟩)
  rw [getLsbD_clear hs hs' h0 h1 hne, hold]

section

variable {sig s : Nat} (hlow : 32 ≤ sig) (hhigh : sig < nsig) (hs : 0 < s) (hs' : s < nsig)

include hlow hhigh hs hs'

/-- Queueing a signal sets its bit and leaves the bits of the real-time signals alone. -/
theorem Pending.has_queueSignal (p : Pending) : (p.queueSignal s).has sig = (p.has sig || decide (s = sig)) := by
  have hno : ¬Clears s sig := by
    unfold Clears sigcont sigstop sigttou
    omega
  rw [Bool.eq_iff_iff, p.has_queueSignal_iff hs hs' (by omega) hhigh, and_iff_left hno, Bool.or_eq_true,
    decide_eq_true_eq, or_comm, eq_comm (a := sig)]

theorem PendingOk.queueSignal (hbit : ∀ e ∈ p.queue, e.signo = sig → p.has sig = true ∨ s = sig)
    (hpay : ∀ e ∈ p.queue, e.timerId < 0 → isPayload e.info = true) (hdef : isPayload (p.info sig) = false) :
    PendingOk sig (p.queueSignal s) := by
  refine ⟨fun e he hsig => ?_, hpay, ?_⟩
  · rw [p.has_queueSignal hlow hhigh hs hs']
    rcases hbit e he hsig with h | h <;> simp [h]
  · simp only [Pending.queueSignal]
    generalize (if s = sigcont then p.bits &&& ~~~stopSignalsMask
      else if sigBit s &&& stopSignalsMask ≠ 0 then p.bits &&& ~~~sigBit sigcont else p.bits) = bits
    split
    · by_cases hss : sig = s
      · simp [hss, isPayload]
      · rw [update_of_ne hss]
        exact hdef
    · exact hdef

theorem PendingOk.queue (h : PendingOk sig p) : PendingOk sig (p.queueSignal s) :=
  .queueSignal hlow hhigh hs hs' (fun e he hsig => .inl (h.bit e he hsig)) h.payload h.default

theorem PendingOk.queueEntry (h : PendingOk sig p) {a : Entry} (ha : a.signo = s)
    (hpay : a.timerId < 0 → isPayload a.info = true) :
    PendingOk sig ({ p with queue := p.queue ++ [a] }.queueSignal s) := by
  refine .queueSignal hlow hhigh hs hs' ?_ ?_ h.default
  · intro e he hsig
    rcases mem_append.1 he with he | he
    · exact .inl (h.bit e he hsig)
    · rw [mem_singleton.1 he] at hsig
      exact .inr (ha.symm.trans hsig)
  · exact forall_mem_append.2 ⟨h.payload, forall_mem_singleton.2 hpay⟩

end

variable {s signo : Nat} {i : Info}

theorem PendingOk.setInfo (h : PendingOk sig p) (hi : isPayload i = false) :
    PendingOk sig { p with info := update p.info s i } := by
  refine { h with default := ?_ }
  by_cases hss : sig = s
  · simpa [hss] using hi
  · simp only [update_of_ne hss]
    exact h.default

/-- A bumped timer entry keeps its signal and its timer, and the payloads are not touched. -/
theorem bumpTimer_spec {timerId overrun : Nat} {q q' : List Entry}
    (h : bumpTimer signo timerId overrun q = some q') (sig : Nat) : queued sig q' = queued sig q ∧
      ∀ e ∈ q', ∃ e' ∈ q, e'.signo = e.signo ∧ e'.timerId = e.timerId ∧ (e.timerId < 0 → e = e') := by
  induction q generalizing q' with
  | nil => cases h
  | cons a q ih =>
    simp only [bumpTimer] at h
    split at h
    · rename_i ha
      cases h
      refine ⟨?_, ?_⟩
      · have hpos : ¬a.timerId < 0 := by omega
        simp [queued_cons, hpos]
      · intro e he
        rcases mem_cons.1 he with rfl | he
        · exact ⟨a, mem_cons_self, rfl, rfl, fun hneg => by simp only at hneg; omega⟩
        · exact ⟨e, mem_cons_of_mem _ he, rfl, rfl, fun _ => rfl⟩
    · obtain ⟨r, hr, rfl⟩ := Option.map_eq_some_iff.1 h
      obtain ⟨h1, h2⟩ := ih hr
      refine ⟨?_, ?_⟩
      · rw [queued_cons, queued_cons, h1]
      · intro e he
        rcases mem_cons.1 he with rfl | he
        · exact ⟨e, mem_cons_self, rfl, rfl, fun _ => rfl⟩
        · obtain ⟨e', he', hrest⟩ := h2 e he
          exact ⟨e', mem_cons_of_mem _ he', hrest⟩

theorem PendingOk.notifyTimer (hlow : 32 ≤ sig) (hhigh : sig < nsig) (hs : 0 < signo)
    (hs' : signo < nsig) (h : PendingOk sig p) (timerId value overrun : Nat) :
    let r := p.notifyTimer signo timerId value overrun
    PendingOk sig r ∧ queued sig r.queue = queued sig p.queue ∧
      ((∀ e ∈ p.queue, 0 ≤ e.timerId) → ∀ e ∈ r.queue, 0 ≤ e.timerId) := by
  unfold Pending.notifyTimer
  split
  swap
  · refine ⟨h.queueEntry hlow hhigh hs hs' rfl (by simp), ?_, ?_⟩
    · simp [Pending.queueSignal, queued]
    · exact fun hpos => forall_mem_append.2 ⟨hpos, forall_mem_singleton.2 (Int.natCast_nonneg timerId)⟩
  rename_i q hq
  obtain ⟨hqueued, hback⟩ := bumpTimer_spec hq sig
  refine ⟨⟨fun e he hsig => ?_, fun e he hneg => ?_, h.default⟩, hqueued, fun hpos e he => ?_⟩
  · obtain ⟨e', he', h1, -⟩ := hback e he
    exact h.bit e' he' (h1.trans hsig)
  · obtain ⟨e', he', -, h2, h3⟩ := hback e he
    rw [h3 hneg]
    exact h.payload e' he' (by omega)
  · obtain ⟨e', he', -, h2, -⟩ := hback e he
    exact h2 ▸ hpos e' he'

/-- Taking `sig` hands out the first queued payload of `sig`, unless a timer entry or nothing is ahead of it. -/
theorem queued_take (h : PendingOk sig p) :
    queued sig p.queue = payloadOf (p.take sig).1 ++ queued sig (p.take sig).2.queue := by
  simp only [Pending.take]
  have hpay := h.payload
  generalize p.queue = q at hpay ⊢
  induction q with
  | nil => simp [queued, payloadOf, h.default]
  | cons a q ih =>
    by_cases ha : a.signo = sig
    · simp only [find?_cons, ha, decide_true, eraseP_cons_of_pos, Option.map_some, Option.getD_some, Entry.taken,
        queued_cons]
      congr 1
      by_cases ht : a.timerId < 0
      · have hp := hpay a mem_cons_self ht
        simp [payloadOf, ht, hp, show ¬a.timerId ≥ 0 by omega]
      · have hn : ¬a.timerId = -1 := by omega
        simp [payloadOf, ht, show a.timerId ≥ 0 by omega, isPayload, hn]
    · have ih' := ih fun e he => hpay e (mem_cons_of_mem _ he)
      simp only [find?_cons, ha, decide_false, eraseP_cons, cond_false, queued_cons, false_and, if_false, nil_append]
      exact ih'

private theorem queued_take_ne (hne : s ≠ sig) (p : Pending) :
    queued sig (p.take s).2.queue = queued sig p.queue := by
  simp only [Pending.take]
  induction p.queue with
  | nil => rfl
  | cons a q ih =>
    by_cases ha : a.signo = s
    · simp [ha, queued_cons, hne]
    · simp only [eraseP_cons, ha, decide_false, cond_false, queued_cons, ih]

theorem PendingOk.take (hlow : 0 < sig) (hhigh : sig < nsig) (hs : 0 < s) (hs' : s < nsig)
    (h : PendingOk sig p) : PendingOk sig (p.take s).2 := by
  have hsub : ∀ e ∈ (p.take s).2.queue, e ∈ p.queue := fun e he => mem_of_mem_eraseP he
  refine ⟨fun e he hsig => ?_, fun e he => h.payload e (hsub e he), h.default⟩
  subst hsig
  exact has_take hs hs' he hlow hhigh (h.bit e (hsub e he) rfl)

/-! ### One call -/

variable {T : Type} [DecidableEq T]

omit [DecidableEq T] in
/-- The three outcomes of `sigqueueinfo`: refused, accepted and dropped, accepted and queued. -/
theorem sigqueueinfo_cases (g : Group T) (c : QueueCall) : (sigqueueinfo g c).1 ≠ 0 ∧ (sigqueueinfo g c).2 = g ∨
      ∃ w, c.uinfo = some w ∧ (0 < c.sig.toNat ∧ c.sig.toNat < nsig ∧ c.sig = c.sig.toNat) ∧
        isPayload (c.payload w) = true ∧ (sigqueueinfo g c).1 = 0 ∧
        ((c.sig.toNat ≠ sigrtminKernel ∧ g.shared.has c.sig.toNat = true) ∧ (sigqueueinfo g c).2 = g ∨
          (sigqueueinfo g c).2 = psQueueGroupSignal { g with shared := { g.shared with queue := g.shared.queue ++
            [{ signo := c.sig.toNat, timerId := -1, value := 0, info := c.payload w }] } } c.sig.toNat) := by
  unfold sigqueueinfo
  split
  · exact .inl ⟨(by decide : einval ≠ 0), rfl⟩
  rename_i hrange
  cases hw : c.uinfo with
  | none => exact .inl ⟨(by decide : efault ≠ 0), rfl⟩
  | some w =>
    simp only
    split
    · exact .inl ⟨(by decide : eperm ≠ 0), rfl⟩
    rename_i hcode
    split
    · exact .inl ⟨(by decide : eagain ≠ 0), rfl⟩
    split
    · exact .inl ⟨(by decide : esrch ≠ 0), rfl⟩
    split
    · exact .inl ⟨(by decide : eperm ≠ 0), rfl⟩
    have hsig : 0 < c.sig.toNat ∧ c.sig.toNat < nsig ∧ c.sig = c.sig.toNat := by omega
    have hpay : isPayload (c.payload w) = true := by
      simp only [isPayload, QueueCall.payload, decide_eq_true_eq, true_and]
      exact ⟨by omega, fun h => hcode (.inr h)⟩
    split
    · split
      · exact .inl ⟨(by decide : eagain ≠ 0), rfl⟩
      · exact .inr ⟨w, rfl, hsig, hpay, rfl, .inr rfl⟩
    · rename_i hno
      simp only [not_or, Bool.not_eq_false] at hno
      exact .inr ⟨w, rfl, hsig, hpay, rfl, .inl ⟨hno, rfl⟩⟩

/-- No instance of a signal other than `SIGRTMIN_KERNEL` is pending when it is queued.  A child's signal comes with a
code of its own and no fault is a real-time signal, as with all callers. -/
def Fresh (sig : Nat) (g : Group T) : Event T → Prop
  | .queueinfo c _ => c.sig = sig → sig = sigrtminKernel ∨ g.shared.has sig = false
  | .child _ info => 0 < info.code
  | .fault _ s => s ≠ sig
  | _ => True

section

variable {sig : Nat} {g g' : Group T} {t : T}

omit [DecidableEq T] in
theorem GroupOk.setShared (h : GroupOk sig g) (hp : PendingOk sig p) :
    GroupOk sig { g with shared := p } := { h with shared := hp }

theorem Group.forall_setOwn {Q : Pending → Prop} (h : ∀ u, Q (g.own u)) (hp : Q p) (u : T) :
    Q ((g.setOwn t p).own u) := by
  exact (forall_update_iff g.own fun _ p => Q p).mpr ⟨hp, fun u _ => h u⟩ u

theorem GroupOk.setOwn (h : GroupOk sig g) (hp : PendingOk sig p)
    (ht : ∀ e ∈ p.queue, 0 ≤ e.timerId) : GroupOk sig (g.setOwn t p) :=
  ⟨h.shared, g.forall_setOwn h.own hp, g.forall_setOwn (Q := fun p => ∀ e ∈ p.queue, 0 ≤ e.timerId) h.timers ht⟩

/-- A change of the bits of a task that leaves the one of `sig` set. -/
theorem GroupOk.setBits {b : SigSet} (h : GroupOk sig g)
    (hb : (g.own t).has sig = true → { g.own t with bits := b }.has sig = true) :
    GroupOk sig (g.setOwn t { g.own t with bits := b }) :=
  h.setOwn ⟨fun e he hs => hb ((h.own t).bit e he hs), (h.own t).payload, (h.own t).default⟩ (h.timers t)

variable (hlow : 32 ≤ sig) (hhigh : sig < nsig)

include hlow hhigh

section

variable (h : GroupOk sig g)

include h

omit [DecidableEq T] in
/-- An accepted payload is queued, except one for a signal that is already pending. -/
theorem sigqueueinfo_conserved (c : QueueCall)
    (hf : c.sig = sig → sig = sigrtminKernel ∨ g.shared.has sig = false) : GroupOk sig (sigqueueinfo g c).2 ∧
      queued sig g.shared.queue ++ (Event.queueinfo (T := T) c (sigqueueinfo g c).1).accepted sig =
        queued sig (sigqueueinfo g c).2.shared.queue := by
  rcases sigqueueinfo_cases g c with ⟨hret, hg⟩ | ⟨w, hw, ⟨h1, h2, h3⟩, hpay, hret, ⟨⟨hne, hhas⟩, hg⟩ | hg⟩
  · rw [hg]
    exact ⟨h, by simp [Event.accepted, hret]⟩
  · have hother : c.sig ≠ sig := by
      intro heq
      have hnat : c.sig.toNat = sig := by omega
      rw [hnat] at hne hhas
      rcases hf heq with h' | h'
      · exact hne h'
      · rw [h'] at hhas
        cases hhas
    rw [hg]
    exact ⟨h, by simp [Event.accepted, hother]⟩
  · rw [hg]
    refine ⟨h.setShared (h.shared.queueEntry hlow hhigh h1 h2 rfl fun _ => hpay), ?_⟩
    simp only [psQueueGroupSignal, queueSignal, queued_append, Event.accepted, hret, hw, true_and]
    congr 1
    by_cases heq : c.sig = sig
    · simp [heq, queued]
    · have hnat : c.sig.toNat ≠ sig := by omega
      simp [heq, hnat, queued]

private theorem psTakeSignalInfo_conserved (t : T) (mask : SigSet) :
    let r := psTakeSignalInfo g t mask
    GroupOk sig r.2 ∧ queued sig g.shared.queue = (Event.take t mask r.1).taken sig ++
      queued sig r.2.shared.queue := by
  unfold psTakeSignalInfo
  simp only
  split
  · exact ⟨h, rfl⟩
  rename_i hpend
  obtain ⟨-, hlt⟩ := getLsbD_ctz hpend
  have hs : ctz (((g.own t).bits ||| g.shared.bits) &&& mask) + 1 < nsig := by
    unfold nsig
    omega
  generalize ctz (((g.own t).bits ||| g.shared.bits) &&& mask) = n at hs
  split
  · have htake := (h.own t).take (by omega) hhigh (Nat.succ_pos n) hs
    refine ⟨h.setOwn htake fun e he => h.timers t e (mem_of_mem_eraseP he), ?_⟩
    -- a task's own queue has timer entries only
    simp only [Event.taken, Group.setOwn]
    split
    · rename_i hn
      have hnone : queued sig (g.own t).queue = [] := by
        simp only [queued, map_eq_nil_iff, filter_eq_nil_iff, decide_eq_true_eq, not_and, not_lt]
        exact fun e he _ => h.timers t e he
      have hq := queued_take (h.own t)
      rw [hnone] at hq
      rw [hn, (append_eq_nil_iff.1 hq.symm).1, nil_append]
    · rfl
  · refine ⟨h.setShared (h.shared.take (by omega) hhigh (Nat.succ_pos n) hs), ?_⟩
    simp only [Event.taken]
    split
    · rename_i hn
      rw [hn]
      exact queued_take h.shared
    · rename_i hn
      rw [nil_append, queued_take_ne hn]

private theorem sendSignal_conserved (target : Option T) (hs : 0 < s) (hs' : s < nsig)
    (pid uid : Nat) : GroupOk sig (sendSignal g target s pid uid) ∧
      (sendSignal g target s pid uid).shared.queue = g.shared.queue := by
  cases target with
  | some t =>
    have h' := (h.own t).queue hlow hhigh hs hs'
    simp only [sendSignal, fillInfo]
    split
    · exact ⟨h.setOwn h' (h.timers t), rfl⟩
    · exact ⟨h.setOwn (h'.setInfo (by simp [isPayload])) (h.timers t), rfl⟩
  | none =>
    have h' := h.shared.queue hlow hhigh hs hs'
    simp only [sendSignal, fillInfo]
    split
    · exact ⟨h.setShared h', rfl⟩
    · exact ⟨h.setShared (h'.setInfo (by simp [isPayload])), rfl⟩

omit [DecidableEq T] in
private theorem psChildSignal_conserved (hs : 0 < s) (hs' : s < nsig) (hi : 0 < i.code) :
    GroupOk sig (psChildSignal g s i) ∧ (psChildSignal g s i).shared.queue = g.shared.queue := by
  have h' := h.shared.queue hlow hhigh hs hs'
  simp only [psChildSignal]
  split
  · exact ⟨h.setShared h', rfl⟩
  · refine ⟨h.setShared (h'.setInfo ?_), rfl⟩
    simp [isPayload]
    omega

private theorem psTimerNotify_conserved (target : T) (thread : Bool) (hs : 0 < signo)
    (hs' : signo < nsig) (timerId value overrun : Nat) :
    let r := psTimerNotify g target thread signo timerId value overrun
    GroupOk sig r ∧ queued sig r.shared.queue = queued sig g.shared.queue := by
  unfold psTimerNotify
  split
  · obtain ⟨h1, -, h3⟩ := (h.own target).notifyTimer hlow hhigh hs hs' timerId value overrun
    exact ⟨h.setOwn h1 (h3 (h.timers target)), rfl⟩
  · obtain ⟨h1, h2, -⟩ := h.shared.notifyTimer hlow hhigh hs hs' timerId value overrun
    exact ⟨h.setShared h1, h2⟩

end

theorem Step.conserved {e : Event T} (hs : Step g e g') (hf : Fresh sig g e) (h : GroupOk sig g) :
    GroupOk sig g' ∧ queued sig g.shared.queue ++ e.accepted sig = e.taken sig ++ queued sig g'.shared.queue := by
  cases hs with
  | queueinfo c => exact sigqueueinfo_conserved hlow hhigh h c hf
  | take t mask =>
    obtain ⟨h1, h2⟩ := psTakeSignalInfo_conserved hlow hhigh h t mask
    exact ⟨h1, (append_nil _).trans h2⟩
  | send target s pid uid h0 hn =>
    obtain ⟨h1, h2⟩ := sendSignal_conserved hlow hhigh h target h0 hn pid uid
    exact ⟨h1, by rw [h2]; exact append_nil _⟩
  | kernel s h0 hn => exact ⟨h.setShared (h.shared.queue hlow hhigh h0 hn), append_nil _⟩
  | inject t s h0 hn => exact ⟨h.setOwn ((h.own t).queue hlow hhigh h0 hn) (h.timers t), append_nil _⟩
  | child s i h0 hn =>
    obtain ⟨h1, h2⟩ := psChildSignal_conserved hlow hhigh h h0 hn hf
    exact ⟨h1, by rw [h2]; exact append_nil _⟩
  | timer target thread signo timerId value overrun h0 hn =>
    obtain ⟨h1, h2⟩ := psTimerNotify_conserved hlow hhigh h target thread h0 hn timerId value overrun
    exact ⟨h1, by rw [h2]; exact append_nil _⟩
  | fault t s h0 hn =>
    have hpos : 0 < sig := by omega
    refine ⟨h.setBits fun hbit => ?_, append_nil _⟩
    rw [has_eq _ hpos hhigh] at hbit ⊢
    exact (getLsbD_clear h0 hn hpos hhigh hf _).trans hbit
  | pipe t =>
    have hpos : 0 < sig := by omega
    refine ⟨h.setBits fun hbit => ?_, append_nil _⟩
    rw [has_eq _ hpos hhigh] at hbit ⊢
    simp [hbit]

/-! ### Draining -/

omit hlow in
theorem Pending.take_lt (h0 : 0 < sig) (h : p.has sig = true) :
    (p.take sig).2.queue.length + ((p.take sig).2.has sig).toNat < p.queue.length + (p.has sig).toNat := by
  have hle : ((p.take sig).2.has sig).toNat ≤ 1 := Bool.toNat_le _
  rw [h, Bool.toNat_true]
  by_cases hex : ∃ e ∈ p.queue, e.signo = sig
  · obtain ⟨e, he, hsig⟩ := hex
    have hlen : (p.take sig).2.queue.length = p.queue.length - 1 := length_eraseP_of_mem he (by simpa using hsig)
    have hpos : 0 < p.queue.length := length_pos_of_mem he
    omega
  have hnone : ∀ e ∈ p.queue, ¬(decide (e.signo = sig)) = true := fun e he hsig => hex ⟨e, he, by simpa using hsig⟩
  have hqueue : (p.take sig).2.queue = p.queue := eraseP_of_forall_not hnone
  have hany : p.queue.any (fun e => e.signo = sig) = false := by
    rw [any_eq_false]
    exact hnone
  have hbit : (p.take sig).2.has sig = false := by
    rw [has_eq _ h0 hhigh]
    simp only [take, eraseP_of_forall_not hnone, hany]
    simp [getLsbD_sigBit h0 hhigh, show sig - 1 + 1 = sig by omega]
  rw [hqueue, hbit, Bool.toNat_false]
  omega

/-- A task that asks for `sig` alone gets an instance of `sig` while one is pending for the group. -/
theorem psTakeSignalInfo_lt (t : T) (hhas : g.shared.has sig = true) :
    let g' := (psTakeSignalInfo g t (sigBit sig)).2
    (g'.own t).queue.length + ((g'.own t).has sig).toNat + (g'.shared.queue.length + (g'.shared.has sig).toNat) <
    (g.own t).queue.length + ((g.own t).has sig).toNat + (g.shared.queue.length + (g.shared.has sig).toNat) := by
  have h0 : 0 < sig := by omega
  have hpend : ((g.own t).bits ||| g.shared.bits) &&& sigBit sig ≠ 0 := by
    intro hzero
    have := congrArg (fun b => b.getLsbD (sig - 1)) hzero
    rw [has_eq _ h0 hhigh] at hhas
    simp [hhas, getLsbD_sigBit h0 hhigh, show sig - 1 + 1 = sig by omega] at this
  have hctz : ctz (((g.own t).bits ||| g.shared.bits) &&& sigBit sig) + 1 = sig := by
    have hb := (getLsbD_ctz hpend).1
    rw [BitVec.getLsbD_and, Bool.and_eq_true, getLsbD_sigBit h0 hhigh, decide_eq_true_eq] at hb
    exact hb.2
  unfold psTakeSignalInfo
  simp only [if_neg hpend, hctz]
  split
  · rename_i hown
    have := (g.own t).take_lt hhigh h0 hown
    simp [Group.setOwn]
    omega
  · have := g.shared.take_lt hhigh h0 hhas
    simp only
    omega

/-- Any task can take all queued payloads of `sig`. -/
theorem GroupOk.drain (h : GroupOk sig g) (t : T) :
    ∃ tr g', Run Step g tr g' ∧ (∀ e ∈ tr, ∃ r, e = .take t (sigBit sig) r) ∧ queued sig g'.shared.queue = [] := by
  generalize hm : (g.own t).queue.length + ((g.own t).has sig).toNat +
    (g.shared.queue.length + (g.shared.has sig).toNat) = m
  induction m using Nat.strong_induction_on generalizing g with
  | _ m ih =>
    by_cases hnil : queued sig g.shared.queue = []
    · exact ⟨[], g, .nil, by simp, hnil⟩
    obtain ⟨i, hi⟩ := exists_mem_of_ne_nil _ hnil
    obtain ⟨e, he, -⟩ := mem_map.1 hi
    obtain ⟨hmem, hsig⟩ := mem_filter.1 he
    have hhas := h.shared.bit e hmem (by simpa using (of_decide_eq_true hsig).1)
    have hlt := psTakeSignalInfo_lt hlow hhigh t hhas
    obtain ⟨tr, g', hrun, htake, hdone⟩ := ih _ (hm ▸ hlt) (psTakeSignalInfo_conserved hlow hhigh h t _).1 rfl
    refine ⟨_, g', (Run.single (.take g t (sigBit sig))).append hrun, ?_, hdone⟩
    exact forall_mem_append.2 ⟨fun e he => ⟨_, mem_singleton.1 he⟩, htake⟩

end

/-- For every real-time signal, in every run of a process in which the signal is `SIGRTMIN_KERNEL` or no instance of
it is pending when it is queued: the payloads accepted are those taken and those still queued, in order, and any task
can take all of the latter. -/
theorem sigqueueinfo_delivers (sig : Nat) (hlow : 32 ≤ sig) (hhigh : sig < nsig) (tr : List (Event T)) (g : Group T)
    (h : Run (fun g e g' => Step g e g' ∧ Fresh sig g e) (.init T) tr g) :
    accepted sig tr = taken sig tr ++ queued sig g.shared.queue ∧
      ∀ t, ∃ tr' g', Run Step g tr' g' ∧ (∀ e ∈ tr', ∃ r, e = .take t (sigBit sig) r) ∧
        accepted sig tr = taken sig (tr ++ tr') := by
  obtain ⟨hok, hq⟩ := h.conserved (fun g => queued sig g.shared.queue) (Event.accepted sig) (Event.taken sig)
    (GroupOk sig) (.init T sig) fun _ _ _ hok hs => hs.1.conserved hlow hhigh hs.2 hok
  refine ⟨hq, fun t => ?_⟩
  obtain ⟨tr', g', hrun, htake, hdone⟩ := hok.drain hlow hhigh t
  refine ⟨tr', g', hrun, htake, ?_⟩
  have hrun' : Run (fun g e g' => Step g e g' ∧ Fresh sig g e) g tr' g' := by
    refine hrun.imp fun _ _ e he hs => ⟨hs, ?_⟩
    obtain ⟨r, rfl⟩ := htake e he
    trivial
  obtain ⟨-, hq'⟩ := hrun'.conserved (fun g => queued sig g.shared.queue) (Event.accepted sig) (Event.taken sig)
    (GroupOk sig) hok fun _ _ _ hok hs => hs.1.conserved hlow hhigh hs.2 hok
  have hnew : (tr'.map (Event.accepted sig)).flatten = [] := by
    rw [flatten_eq_nil_iff]
    intro l hl
    obtain ⟨e, he, rfl⟩ := mem_map.1 hl
    obtain ⟨r, rfl⟩ := htake e he
    rfl
  rw [hdone, hnew, append_nil, append_nil] at hq'
  rw [accepted, taken, map_append, flatten_append, ← hq']
  exact hq

/-- A call that queues `sig` with the value `v`. -/
def queueValue (sig : Int) (v : BitVec 32) : QueueCall :=
  { sig := sig, uinfo := some fun i => if i = 2 then -1 else if i = 6 then v else 0, wide := true, pid := 1, uid := 0,
    hasMemory := true, targetLive := true, allowed := true }

theorem sigqueueinfo_delivers_two :
    ∃ tr, ∃ g : Group Unit, Run (fun g e g' => Step g e g' ∧ Fresh 32 g e) (.init Unit) tr g ∧
      (accepted 32 tr).map Info.value = [7, 8] ∧ accepted 32 tr = taken 32 tr ++ queued 32 g.shared.queue := by
  have r : Run (fun g e g' => Step g e g' ∧ Fresh 32 g e) (.init Unit) _ _ :=
    (Run.nil.snoc ⟨.queueinfo _ (queueValue 32 7), fun _ => .inl rfl⟩).snoc
      ⟨.queueinfo _ (queueValue 32 8), fun _ => .inl rfl⟩
  exact ⟨_, _, r, by decide, (sigqueueinfo_delivers 32 (by decide) (by decide) _ _ r).1⟩

/-- Two calls for signal 33 return 0; the first payload is taken, and then nothing is pending. -/
theorem sigqueueinfo_merges :
    ∃ tr, ∃ g : Group Unit, Run Step (.init Unit) tr g ∧ (accepted 33 tr).map Info.value = [7, 8] ∧
      (taken 33 tr).map Info.value = [7] ∧ g.shared.queue = [] ∧ g.shared.bits = 0 ∧ (g.own ()).bits = 0 := by
  have r : Run Step (.init Unit) _ _ :=
    ((Run.nil.snoc (.queueinfo _ (queueValue 33 7))).snoc (.queueinfo _ (queueValue 33 8))).snoc
      (.take _ () (sigBit 33))
  exact ⟨_, _, r, by decide, by decide, by decide, by decide, by decide⟩

end Mos.Signal
