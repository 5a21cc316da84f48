import Mos.CycleBuf.Waiting

/-!
# Who is left asleep at a cycle buffer

The events fire on the transitions from empty and from full and wake a single waiter, so a second reader or writer can
be left asleep (`second_reader_sleeps`).  With at most one task at a time in `cyb_getbuf` and at most one in
`cyb_putbuf` nobody is: while the reader waits and has not taken the event, bytes or the last close imply that
`read_event` has fired or is about to (`PipeInv.readers`), and likewise for the writer, free space and `write_event`
(`PipeInv.writers`).
-/

namespace Mos.CycleBuf

open Lib Lock List Function PipePc Pipe

namespace PipePc

/-- The call a task has in progress inside `read_event`. -/
def phaseR : PipePc → Phase
  | getWait _ _ => .waiting
  | putNotifying _ _ _ | closeNotifying true => .releasing
  | _ => .out

def phaseW : PipePc → Phase
  | putWait _ _ _ => .waiting
  | getNotifying _ | closeNotifying false => .releasing
  | _ => .out

def inGet : PipePc → Bool
  | getTop _ _ | getWait _ _ | getSignalled _ _ | getNotify _ | getNotifying _ => true
  | _ => false

def inPut : PipePc → Bool
  | putTop _ _ _ | putNotify _ _ _ | putNotifying _ _ _ | putCheck _ _ _ | putWait _ _ _ => true
  | _ => false

/-- About to call `cond_notify` on `read_event`. -/
def firesRead : PipePc → Bool
  | putNotify _ _ _ | closeNotify true => true
  | _ => false

def firesWrite : PipePc → Bool
  | getNotify _ | closeNotify false => true
  | _ => false

def waitsGet : PipePc → Bool
  | getWait _ _ => true
  | _ => false

def waitsPut : PipePc → Bool
  | putWait _ _ _ => true
  | _ => false

/-- A put that has found the buffer full with bytes left to write. -/
def stalled : PipePc → Bool
  | putNotify data _ w | putNotifying data _ w | putCheck data _ w => w ≠ data.length
  | putWait _ _ _ => true
  | _ => false

def Bounded : PipePc → Prop
  | putTop data _ w | putNotify data _ w | putNotifying data _ w | putCheck data _ w | putWait data _ w =>
    w ≤ data.length
  | _ => True

variable {p : PipePc}

private theorem waitsGet_of_phaseR (h : p.phaseR = .waiting) : p.waitsGet = true := by
  cases p with
  | getWait => rfl
  | closeNotifying w => cases w <;> cases h
  | _ => cases h

private theorem inPut_of_stalled (h : p.stalled = true) : p.inPut = true := by
  cases p <;> first | rfl | cases h

private theorem stalled_of_waitsPut (h : p.waitsPut = true) : p.stalled = true := by
  cases p <;> first | rfl | cases h

private theorem waitsPut_of_phaseW (h : p.phaseW = .waiting) : p.waitsPut = true := by
  cases p with
  | putWait => rfl
  | closeNotifying w => cases w <;> cases h
  | _ => cases h

private theorem phaseW_of_waitsPut (h : p.waitsPut = true) : p.phaseW = .waiting := by
  cases p <;> first | rfl | cases h

private theorem phaseR_of_waitsGet (h : p.waitsGet = true) : p.phaseR = .waiting := by
  cases p <;> first | rfl | cases h

/-- A put is never inside `cond_notify` of its own event. -/
theorem phaseW_of_stalled (h : p.stalled = true) : p.phaseW = .waiting ∨ p.phaseW = .out := by
  cases p <;> first | exact .inl rfl | exact .inr rfl | cases h

private theorem inGet_of_waitsGet (h : p.waitsGet = true) : p.inGet = true := by
  cases p <;> first | rfl | cases h

end PipePc

variable {T : Type}

/-- `read_event` has fired or is about to. -/
def SignalR (s : Pipe T) : Prop := Fired s.read ∨ ∃ u, (s.pc u).firesRead = true

def SignalW (s : Pipe T) : Prop := Fired s.write ∨ ∃ u, (s.pc u).firesWrite = true

variable {b : CyBuf}

section

variable [Fintype T]

structure PipeInv (s : Pipe T) : Prop where
  ring : RingOk s.b
  read : Inv s.read
  write : Inv s.write
  phaseR : ∀ t, (s.read.pc t).phase = (s.pc t).phaseR
  phaseW : ∀ t, (s.write.pc t).phase = (s.pc t).phaseW
  oneGet : ∀ t u, (s.pc t).inGet = true → (s.pc u).inGet = true → t = u
  onePut : ∀ t u, (s.pc t).inPut = true → (s.pc u).inPut = true → t = u
  bounded : ∀ t, (s.pc t).Bounded
  readers : ∀ t, (s.pc t).waitsGet = true → (s.read.pc t).owns = false →
    s.b.length > 0 ∨ s.b.writerCount = 0 → SignalR s
  writers : ∀ t, (s.pc t).stalled = true → (s.write.pc t).owns = false →
    s.b.length < s.b.bufSize ∨ (s.pc t).waitsPut = true ∧ s.b.readerCount = 0 → SignalW s

theorem PipeInv.start (hb : RingOk b) : PipeInv (start T b) where
  ring := hb
  read := .init _
  write := .init _
  phaseR := fun _ => rfl
  phaseW := fun _ => rfl
  oneGet := nofun
  onePut := nofun
  bounded := fun _ => trivial
  readers := nofun
  writers := nofun

end

/-- At most one task at a time is inside `cyb_getbuf`, and at most one inside `cyb_putbuf`. -/
def Alone (s : Pipe T) : PipeEvent T → Prop
  | .call _ (.getbuf _ _) => ∀ u, (s.pc u).inGet = false
  | .call _ (.putbuf _ _) => ∀ u, (s.pc u).inPut = false
  | _ => True

variable {it : Bool} {r : Base T}

section

variable [DecidableEq T] {s s' : Pipe T} {t : T} {q : PipePc} {p : PipePc → Bool}

private theorem had_of_update {u : T} (hpc : s'.pc = update s.pc t q) (hq : p q = true → p (s.pc t) = true)
    (hu : p (s'.pc u) = true) : p (s.pc u) = true := by
  by_cases hut : u = t
  · rw [hut, hpc, update_self] at hu
    exact hut ▸ hq hu
  · rwa [hpc, update_of_ne hut] at hu

/-- A signal stays if the task that moves was not about to give it, is still about to, or has given it. -/
theorem signal_update {A A' : Prop} (hpc : s'.pc = update s.pc t q)
    (ht : p (s.pc t) = true → p q = true ∨ A') (hA : A → A') (h : A ∨ ∃ u, p (s.pc u) = true) :
    A' ∨ ∃ u, p (s'.pc u) = true := by
  rcases h with h | ⟨u, hu⟩
  · exact .inl (hA h)
  by_cases hut : u = t
  · rcases ht (hut ▸ hu) with h | h
    · exact .inr ⟨t, by rw [hpc, update_self]; exact h⟩
    · exact .inl h
  · exact .inr ⟨u, by rw [hpc, update_of_ne hut]; exact hu⟩

variable [Fintype T] {e : Lock.Event T}

variable {a : PipePc}

section

variable (hi : PipeInv s) (ht : s.pc t = a)

include hi ht

/-- The parts of the invariant that a step of one task has to provide. -/
theorem PipeInv.update (hpc : s'.pc = update s.pc t q) (hring : RingOk s'.b)
    (hread : Inv s'.read) (hwrite : Inv s'.write)
    (hpr : ∀ u, u ≠ t → (s'.read.pc u).phase = (s.read.pc u).phase) (hprt : (s'.read.pc t).phase = q.phaseR)
    (hpw : ∀ u, u ≠ t → (s'.write.pc u).phase = (s.write.pc u).phase) (hpwt : (s'.write.pc t).phase = q.phaseW)
    (hg : q.inGet = true → a.inGet = true ∨ ∀ u, (s.pc u).inGet = false)
    (hp : q.inPut = true → a.inPut = true ∨ ∀ u, (s.pc u).inPut = false) (hb : q.Bounded)
    (hreaders : ∀ u, (s'.pc u).waitsGet = true → (s'.read.pc u).owns = false →
      s'.b.length > 0 ∨ s'.b.writerCount = 0 → SignalR s')
    (hwriters : ∀ u, (s'.pc u).stalled = true → (s'.write.pc u).owns = false →
      s'.b.length < s'.b.bufSize ∨ (s'.pc u).waitsPut = true ∧ s'.b.readerCount = 0 → SignalW s') : PipeInv s' := by
  subst ht
  -- uniqueness of the task inside a function, for either function
  have one : ∀ {p : PipePc → Bool}, (∀ u v, p (s.pc u) = true → p (s.pc v) = true → u = v) →
      (p q = true → p (s.pc t) = true ∨ ∀ u, p (s.pc u) = false) →
      ∀ u v, p (s'.pc u) = true → p (s'.pc v) = true → u = v := by
    intro p hone hq u v hu hv
    rw [hpc] at hu hv
    by_cases hut : u = t <;> by_cases hvt : v = t
    · rw [hut, hvt]
    · rw [hut, update_self] at hu
      rw [update_of_ne hvt] at hv
      rcases hq hu with h | h
      · exact hut.trans (hone t v h hv)
      · rw [h v] at hv; cases hv
    · rw [hvt, update_self] at hv
      rw [update_of_ne hut] at hu
      rcases hq hv with h | h
      · exact (hone u t hu h).trans hvt.symm
      · rw [h u] at hu; cases hu
    · rw [update_of_ne hut] at hu
      rw [update_of_ne hvt] at hv
      exact hone u v hu hv
  refine ⟨hring, hread, hwrite, ?_, ?_, one hi.oneGet hg, one hi.onePut hp, ?_, hreaders, hwriters⟩
  · rw [hpc, forall_update_iff s.pc fun u p => (s'.read.pc u).phase = p.phaseR]
    exact ⟨hprt, fun u hu => (hpr u hu).trans (hi.phaseR u)⟩
  · rw [hpc, forall_update_iff s.pc fun u p => (s'.write.pc u).phase = p.phaseW]
    exact ⟨hpwt, fun u hu => (hpw u hu).trans (hi.phaseW u)⟩
  · rw [hpc, forall_update_iff s.pc fun _ p => p.Bounded]
    exact ⟨hb, fun u _ => hi.bounded u⟩

/-- The reader's part, when the step is outside `read_event`, lets nobody start to wait and keeps the signal. -/
theorem PipeInv.readers_keep (hpc : s'.pc = Function.update s.pc t q) (hread : s'.read.pc = s.read.pc)
    (hwait : q.waitsGet = true → a.waitsGet = true)
    (hlen : s'.b.length > 0 ∨ s'.b.writerCount = 0 → (s.b.length > 0 ∨ s.b.writerCount = 0) ∨ SignalR s')
    (hfire : a.firesRead = true → q.firesRead = true) (hfired : Fired s.read → Fired s'.read) (u : T)
    (hu : (s'.pc u).waitsGet = true) (ho : (s'.read.pc u).owns = false)
    (hc : s'.b.length > 0 ∨ s'.b.writerCount = 0) : SignalR s' := by
  subst ht
  rcases hlen hc with hc | h
  · rw [hread] at ho
    exact signal_update hpc (fun h => .inl (hfire h)) hfired (hi.readers u (had_of_update hpc hwait hu) ho hc)
  · exact h

theorem PipeInv.writers_keep (hpc : s'.pc = Function.update s.pc t q) (hwrite : s'.write.pc = s.write.pc)
    (hstall : q.stalled = true → a.stalled = true) (hwait : q.waitsPut = true → a.waitsPut = true)
    (hlen : s'.b.length < s'.b.bufSize → s.b.length < s.b.bufSize ∨ SignalW s')
    (hcount : s'.b.readerCount = 0 → s.b.readerCount = 0 ∨ SignalW s')
    (hfire : a.firesWrite = true → q.firesWrite = true) (hfired : Fired s.write → Fired s'.write) (u : T)
    (hu : (s'.pc u).stalled = true) (ho : (s'.write.pc u).owns = false)
    (hc : s'.b.length < s'.b.bufSize ∨ (s'.pc u).waitsPut = true ∧ s'.b.readerCount = 0) : SignalW s' := by
  subst ht
  have hold : (s.b.length < s.b.bufSize ∨ (s.pc u).waitsPut = true ∧ s.b.readerCount = 0) ∨ SignalW s' := by
    rcases hc with hc | ⟨hw, hc⟩
    · exact (hlen hc).imp_left .inl
    · exact (hcount hc).imp_left fun h => .inr ⟨had_of_update hpc hwait hw, h⟩
  rcases hold with hold | h
  · rw [hwrite] at ho
    exact signal_update hpc (fun h => .inl (hfire h)) hfired (hi.writers u (had_of_update hpc hstall hu) ho hold)
  · exact h

end

/-! ### Steps outside the events -/

/-- A move of a task that changes neither its place in the events nor its duties. -/
def PipePc.moves (p q : PipePc) : Bool :=
  p.phaseR == q.phaseR && p.phaseW == q.phaseW && !p.firesRead && !p.firesWrite && !q.waitsGet && !q.stalled

section

variable (hi : PipeInv s)

include hi

theorem PipeInv.move (ht : s.pc t = a) (hm : a.moves q = true) (hb : q.Bounded)
    (hg : q.inGet = true → a.inGet = true ∨ ∀ u, (s.pc u).inGet = false)
    (hp : q.inPut = true → a.inPut = true ∨ ∀ u, (s.pc u).inPut = false) : PipeInv (s.go t q) := by
  subst ht
  simp only [moves, Bool.and_eq_true, beq_iff_eq, Bool.not_eq_true'] at hm
  obtain ⟨⟨⟨⟨⟨h1, h2⟩, h3⟩, h4⟩, h5⟩, h6⟩ := hm
  have hpc : (s.go t q).pc = Function.update s.pc t q := rfl
  refine hi.update rfl hpc hi.ring hi.read hi.write (fun _ _ => rfl) ((hi.phaseR t).trans h1) (fun _ _ => rfl)
    ((hi.phaseW t).trans h2) hg hp hb ?_ ?_
  · exact hi.readers_keep rfl hpc rfl (by simp [h5]) .inl (by simp [h3]) id
  · exact hi.writers_keep rfl hpc rfl (by simp [h6])
      (fun h => absurd (stalled_of_waitsPut h) (by simp [h6])) .inl .inl (by simp [h4]) id

omit [DecidableEq T] in
theorem PipeInv.ring_buf : RingOk s.buf := by
  have hsame : SameRing s.b s.buf := ⟨rfl, rfl, rfl, rfl, rfl⟩
  exact hsame.ringOk hi.ring

/-- One round of `cyb_putbuf`.  The task is the only one that puts; if it has bytes left, the buffer is full. -/
theorem PipeInv.putCopy {data : List UInt8} {w : Nat} (ht : s.pc t = .putTop data it w) :
    PipeInv ((s.setBuf (putLocked s.buf data w)).go t
      (if s.b.length = 0 ∧ putCount s.buf data w > 0 then .putNotify data it (w + putCount s.buf data w)
       else .putCheck data it (w + putCount s.buf data w))) := by
  have hring := hi.ring_buf
  have hcount : putCount s.buf data w = min (s.buf.bufSize - s.buf.length) (data.length - w) := putCount_eq hring
  have hlen := putLocked_length hring data w
  obtain ⟨hsize, hre, hwc, hrc, hwe⟩ := putLocked_rest s.buf data w
  have hbound : w ≤ data.length := by
    have := hi.bounded t
    rwa [ht] at this
  have hbuf : s.buf.length = s.b.length ∧ s.buf.bufSize = s.b.bufSize := ⟨rfl, rfl⟩
  generalize hq : (if s.b.length = 0 ∧ putCount s.buf data w > 0 then putNotify data it (w + putCount s.buf data w)
    else .putCheck data it (w + putCount s.buf data w)) = q
  have hqs : q.phaseR = .out ∧ q.phaseW = .out ∧ q.inGet = false ∧ q.inPut = true ∧ q.Bounded ∧ q.waitsGet = false ∧
      q.waitsPut = false ∧ (q.stalled = true → w + putCount s.buf data w ≠ data.length) ∧
      (s.b.length = 0 → putCount s.buf data w > 0 → q.firesRead = true) := by
    have hb : w + putCount s.buf data w ≤ data.length := by omega
    rw [← hq]
    split
    · exact ⟨rfl, rfl, rfl, rfl, hb, rfl, rfl, fun h => by simpa [stalled] using h, fun _ _ => rfl⟩
    · rename_i hno
      exact ⟨rfl, rfl, rfl, rfl, hb, rfl, rfl, fun h => by simpa [stalled] using h, fun h0 h1 => absurd ⟨h0, h1⟩ hno⟩
  obtain ⟨q1, q2, q3, q4, q5, q6, q7, q8, q9⟩ := hqs
  have hphase := hi.phaseR t
  have hphaseW := hi.phaseW t
  rw [ht] at hphase hphaseW
  have hpc : ((s.setBuf (putLocked s.buf data w)).go t q).pc = Function.update s.pc t q := rfl
  refine hi.update ht hpc (putLocked_spec hring data w).1 (hi.read.setLock (.inl hre)) (hi.write.setLock ?_)
    (fun _ _ => rfl) (hphase.trans q1.symm) (fun _ _ => rfl) (hphaseW.trans q2.symm) (by rw [q3]; rintro ⟨⟩)
    (fun _ => .inl rfl) q5 ?_ ?_
  · rcases hwe with h | h
    · exact .inl h
    · exact .inr (by rw [h]; exact one_ne_zero)
  · refine hi.readers_keep ht hpc rfl (by simp [q6]) (fun hc => ?_) nofun ?_
    · simp only [go, setBuf, hwc, hlen] at hc
      rcases hc with hc | hc
      · by_cases h0 : s.b.length = 0
        · refine .inr (.inr ⟨t, ?_⟩)
          rw [hpc, update_self]
          exact q9 h0 (by omega)
        · exact .inl (.inl (by omega))
      · exact .inl (.inr hc)
    · rintro (h0 | h1)
      · exact .inl (hre.trans h0)
      · exact .inr h1
  · -- the only put, if it has bytes left, has just filled the buffer
    intro u hu _ hc
    exfalso
    have hut : u = t := by
      by_contra hut
      rw [hpc, update_of_ne hut] at hu
      exact hut (hi.onePut u t (inPut_of_stalled hu) (by rw [ht]; rfl))
    rw [hut, hpc, update_self] at hu
    have hne := q8 hu
    rcases hc with hc | ⟨hc, -⟩
    · simp only [go, setBuf, hlen, hsize] at hc
      omega
    · rw [hut, hpc, update_self, q7] at hc
      cases hc

theorem PipeInv.getCopy {len : Int} (ht : s.pc t = .getTop len it) :
    PipeInv ((s.setBuf (getLocked s.buf len.toNat).2).go t
      (if s.b.length = s.b.bufSize then .getNotify (getCount s.buf len.toNat)
       else .returning (getCount s.buf len.toNat))) := by
  have hring := hi.ring_buf
  obtain ⟨hsize, hwe, hwc, hrc, hre⟩ := getLocked_rest s.buf len.toNat
  have hle := hi.ring.length_le
  generalize hq : (if s.b.length = s.b.bufSize then getNotify (getCount s.buf len.toNat)
    else .returning (getCount s.buf len.toNat)) = q
  have hqs : q.phaseR = .out ∧ q.phaseW = .out ∧ q.inPut = false ∧ q.Bounded ∧ q.waitsGet = false ∧
      q.stalled = false ∧ (s.b.length = s.b.bufSize → q.firesWrite = true) := by
    rw [← hq]
    split
    · exact ⟨rfl, rfl, rfl, trivial, rfl, rfl, fun _ => rfl⟩
    · rename_i hno
      exact ⟨rfl, rfl, rfl, trivial, rfl, rfl, fun h => absurd h hno⟩
  obtain ⟨q1, q2, q3, q4, q5, q6, q7⟩ := hqs
  have hphase := hi.phaseR t
  have hphaseW := hi.phaseW t
  rw [ht] at hphase hphaseW
  have hpc : ((s.setBuf (getLocked s.buf len.toNat).2).go t q).pc = Function.update s.pc t q := rfl
  refine hi.update ht hpc (getLocked_spec hring len.toNat).1 (hi.read.setLock ?_) (hi.write.setLock (.inl hwe))
    (fun _ _ => rfl) (hphase.trans q1.symm) (fun _ _ => rfl) (hphaseW.trans q2.symm)
    (fun _ => .inl rfl) (by rw [q3]; rintro ⟨⟩) q4 ?_ ?_
  · rcases hre with h | h
    · exact .inl h
    · exact .inr (by rw [h]; exact one_ne_zero)
  · -- nobody else is inside `cyb_getbuf`
    intro u hu
    have hold := had_of_update hpc (by simp [q5]) hu
    rw [hi.oneGet u t (inGet_of_waitsGet hold) (by rw [ht]; rfl), ht] at hold
    cases hold
  · refine hi.writers_keep ht hpc rfl (by simp [q6]) (fun h => absurd (stalled_of_waitsPut h) (by simp [q6]))
      (fun _ => ?_) (fun hc => .inl (hrc ▸ hc)) nofun ?_
    · by_cases hfull : s.b.length = s.b.bufSize
      · refine .inr (.inr ⟨t, ?_⟩)
        rw [hpc, update_self]
        exact q7 hfull
      · exact .inl (by omega)
    · rintro (h0 | h1)
      · exact .inl (hwe.trans h0)
      · exact .inr h1

/-- A close lowers its count before it notifies the other side. -/
theorem PipeInv.close {writer : Bool} (ht : s.pc t = .closeTop writer)
    (hb : SameRing s.b b) (hw : b.writerCount = s.b.writerCount ∨ writer = true)
    (hr : b.readerCount = s.b.readerCount ∨ writer = false) :
    PipeInv ({ s with b := b }.go t (.closeNotify writer)) := by
  have hphase := hi.phaseR t
  have hphaseW := hi.phaseW t
  rw [ht] at hphase hphaseW
  have hpc : ({ s with b := b }.go t (.closeNotify writer)).pc = Function.update s.pc t (.closeNotify writer) := rfl
  refine hi.update ht hpc (hb.ringOk hi.ring) hi.read hi.write (fun _ _ => rfl) hphase (fun _ _ => rfl) hphaseW
    nofun nofun trivial ?_ ?_
  · refine hi.readers_keep ht hpc rfl nofun (fun hc => ?_) nofun id
    rcases hw with h | rfl
    · exact .inl (by simpa only [go, hb.length, h] using hc)
    · exact .inr (.inr ⟨t, by rw [hpc, update_self]; rfl⟩)
  · refine hi.writers_keep ht hpc rfl nofun nofun (fun hc => .inl ?_) (fun hc => ?_) nofun id
    · simpa only [go, hb.length, hb.bufSize] using hc
    · rcases hr with h | rfl
      · exact .inl (by simpa only [go, h] using hc)
      · exact .inr (.inr ⟨t, by rw [hpc, update_self]; rfl⟩)

end

/-! ### Steps inside the events -/

section

variable (hi : PipeInv s)

include hi

/-- A step inside `read_event` with the move of the task that takes it.  The only step that uses the signal up is the
reader's own. -/
theorem PipeInv.readStep (hs : Lock.Step s.read e r) (ht : s.pc e.task = a) (hr : ∀ t, e ≠ .reset t)
    (hphase : (r.pc e.task).phase = q.phaseR) (hphaseW : a.phaseW = q.phaseW)
    (hg : q.inGet = true → a.inGet = true) (hp : q.inPut = true → a.inPut = true)
    (hb : q.Bounded) (hfr : a.firesRead = true → q.firesRead = true ∨ Fired r)
    (hfw : a.firesWrite = true → q.firesWrite = true)
    (hwait : q.waitsGet = true → a.waitsGet = true ∨ s.b.length = 0 ∧ s.b.writerCount ≠ 0)
    (hstall : q.stalled = true → a.stalled = true ∧ (q.waitsPut = true → a.waitsPut = true)) :
    PipeInv ({ s with read := r }.go e.task q) := by
  subst ht
  have hpc : ({ s with read := r }.go e.task q).pc = Function.update s.pc e.task q := rfl
  refine hi.update rfl hpc hi.ring (hs.inv hi.read) hi.write (fun u hu => hs.phase_frame hu) hphase (fun _ _ => rfl)
    ((hi.phaseW _).trans hphaseW) (fun h => .inl (hg h)) (fun h => .inl (hp h)) hb ?_ ?_
  · intro u hu ho hc
    have hold : (s.pc u).waitsGet = true ∧ (r.pc u).phase = .waiting := by
      by_cases hut : u = e.task
      · rw [hut, hpc, update_self] at hu
        rw [hut]
        rcases hwait hu with h | ⟨h0, h1⟩
        · exact ⟨h, hphase.trans (phaseR_of_waitsGet hu)⟩
        · rcases hc with hc | hc
          · exact absurd h0 (Nat.pos_iff_ne_zero.1 hc)
          · exact absurd hc h1
      · rw [hpc, update_of_ne hut] at hu
        exact ⟨hu, (hs.phase_frame hut).trans ((hi.phaseR u).trans (phaseR_of_waitsGet hu))⟩
    rcases hi.readers u hold.1 (hs.owns_back hold.2 ho) hc with hf | hv
    · -- a task that takes the signal is the one that waits
      refine .inl (hs.fired_kept hr hf (fun hw => ?_) (fun _ => hold.2) ho)
      exact hi.oneGet e.task u (inGet_of_waitsGet (waitsGet_of_phaseR ((hi.phaseR _).symm.trans hw)))
        (inGet_of_waitsGet hold.1)
    · exact signal_update hpc hfr False.elim (.inr hv)
  · exact hi.writers_keep rfl hpc rfl (fun h => (hstall h).1)
      (fun h => (hstall (stalled_of_waitsPut h)).2 h) .inl .inl hfw id

theorem PipeInv.writeStep (hs : Lock.Step s.write e r) (ht : s.pc e.task = a) (hr : ∀ t, e ≠ .reset t)
    (hphase : (r.pc e.task).phase = q.phaseW) (hphaseR : a.phaseR = q.phaseR)
    (hg : q.inGet = true → a.inGet = true) (hp : q.inPut = true → a.inPut = true)
    (hb : q.Bounded) (hfw : a.firesWrite = true → q.firesWrite = true ∨ Fired r)
    (hfr : a.firesRead = true → q.firesRead = true) (hwait : q.waitsGet = true → a.waitsGet = true)
    (hstall : q.stalled = true → a.stalled = true ∧ (a.waitsPut = true → q.waitsPut = true) ∧
      (q.waitsPut = true → a.waitsPut = true ∨ s.b.readerCount ≠ 0)) :
    PipeInv ({ s with write := r }.go e.task q) := by
  subst ht
  have hpc : ({ s with write := r }.go e.task q).pc = Function.update s.pc e.task q := rfl
  refine hi.update rfl hpc hi.ring hi.read (hs.inv hi.write) (fun _ _ => rfl) ((hi.phaseR _).trans hphaseR)
    (fun u hu => hs.phase_frame hu) hphase (fun h => .inl (hg h)) (fun h => .inl (hp h)) hb ?_ ?_
  · exact hi.readers_keep rfl hpc rfl hwait .inl hfr id
  · intro u hu ho hc
    have hold : (s.pc u).stalled = true ∧ ((s.pc u).waitsPut = true → (r.pc u).phase = .waiting) ∧
        (s.b.length < s.b.bufSize ∨ (s.pc u).waitsPut = true ∧ s.b.readerCount = 0) := by
      by_cases hut : u = e.task
      · rw [hut, hpc, update_self] at hu hc
        rw [hut]
        obtain ⟨h1, h2, h3⟩ := hstall hu
        refine ⟨h1, fun h => hphase.trans (phaseW_of_waitsPut (h2 h)), ?_⟩
        rcases hc with hc | ⟨hw, hc⟩
        · exact .inl hc
        · exact .inr ⟨(h3 hw).resolve_right (not_not_intro hc), hc⟩
      · rw [hpc, update_of_ne hut] at hu hc
        exact ⟨hu, fun h => (hs.phase_frame hut).trans ((hi.phaseW u).trans (phaseW_of_waitsPut h)), hc⟩
    obtain ⟨hst, hph, hcond⟩ := hold
    have howns : (s.write.pc u).owns = false := by
      rcases phaseW_of_stalled hst with h | h
      · exact hs.owns_back (hph (waitsPut_of_phaseW h)) ho
      · have hidle := (hi.phaseW u).trans h
        cases hpu : s.write.pc u <;> rw [hpu] at hidle <;> first | rfl | cases hidle
    rcases hi.writers u hst howns hcond with hf | hv
    · refine .inl (hs.fired_kept hr hf (fun hw => ?_)
        (fun hw => hph (waitsPut_of_phaseW ((hi.phaseW u).symm.trans hw))) ho)
      have hwp := waitsPut_of_phaseW ((hi.phaseW _).symm.trans hw)
      exact hi.onePut e.task u (inPut_of_stalled (stalled_of_waitsPut hwp)) (inPut_of_stalled hst)
    · exact signal_update hpc hfw False.elim (.inr hv)

end

section

omit [DecidableEq T] [Fintype T]

variable {e : Lock.Event T} {p : PipePc} {ph : Phase}

theorem PipePc.resume_keeps (e : Lock.Event T) (hb : p.Bounded) :
    ((p.resume e).inGet = true → p.inGet = true) ∧ ((p.resume e).inPut = true → p.inPut = true) ∧
      (p.resume e).Bounded ∧ ((p.resume e).waitsGet = true → p.waitsGet = true) ∧
      ((p.resume e).stalled = true → p.stalled = true ∧ (p.waitsPut = true → (p.resume e).waitsPut = true) ∧
        ((p.resume e).waitsPut = true → p.waitsPut = true)) := by
  unfold resume
  split <;> simp_all [inGet, inPut, Bounded, waitsGet, waitsPut, stalled]

section

variable (he : e.inside = true)

include he

private theorem phase_ne_out {ph' : Phase} (hok : e.PhaseOk ph ph') : ph ≠ .out := by
  cases e with
  | internal => exact hok.1
  | acquired | interrupted | released => rw [hok.1]; rintro ⟨⟩
  | call | reset | wake => cases he

theorem PipePc.resume_read (hok : e.PhaseOk p.phaseR ph) :
    ph = (p.resume e).phaseR ∧ p.phaseW = (p.resume e).phaseW ∧ p.firesRead = false ∧ p.firesWrite = false := by
  have hin := phase_ne_out he hok
  cases p with
  | getWait =>
    cases e with
    | internal | acquired | interrupted => exact ⟨hok.2, rfl, rfl, rfl⟩
    | released => cases hok.1
    | call | reset | wake => cases he
  | putNotifying =>
    cases e with
    | internal | released => exact ⟨hok.2, rfl, rfl, rfl⟩
    | acquired | interrupted => cases hok.1
    | call | reset | wake => cases he
  | closeNotifying w =>
    cases w with
    | false => exact absurd rfl hin
    | true =>
      cases e with
      | internal | released => exact ⟨hok.2, rfl, rfl, rfl⟩
      | acquired | interrupted => cases hok.1
      | call | reset | wake => cases he
  | _ => exact absurd rfl hin

theorem PipePc.resume_write (hok : e.PhaseOk p.phaseW ph) :
    ph = (p.resume e).phaseW ∧ p.phaseR = (p.resume e).phaseR ∧ p.firesRead = false ∧ p.firesWrite = false := by
  have hin := phase_ne_out he hok
  cases p with
  | putWait =>
    cases e with
    | internal | acquired | interrupted => exact ⟨hok.2, rfl, rfl, rfl⟩
    | released => cases hok.1
    | call | reset | wake => cases he
  | getNotifying =>
    cases e with
    | internal | released => exact ⟨hok.2, rfl, rfl, rfl⟩
    | acquired | interrupted => cases hok.1
    | call | reset | wake => cases he
  | closeNotifying w =>
    cases w with
    | true => exact absurd rfl hin
    | false =>
      cases e with
      | internal | released => exact ⟨hok.2, rfl, rfl, rfl⟩
      | acquired | interrupted => cases hok.1
      | call | reset | wake => cases he
  | _ => exact absurd rfl hin

end

end

section

variable (hi : PipeInv s)

include hi

theorem PipeInv.readEvent (hs : Lock.Step s.read e r)
    (he : e.inside = true) : PipeInv ({ s with read := r }.go e.task ((s.pc e.task).resume e)) := by
  have hok := hs.phase
  rw [hi.phaseR] at hok
  obtain ⟨h1, h2, h3, h4⟩ := resume_read he hok
  obtain ⟨hg, hp, hb, hw, hst⟩ := resume_keeps e (hi.bounded e.task)
  refine hi.readStep hs rfl ?_ h1 h2 hg hp hb (by rw [h3]; nofun) (by rw [h4]; nofun) (fun h => .inl (hw h))
    fun h => ⟨(hst h).1, (hst h).2.2⟩
  rintro t rfl
  cases he

theorem PipeInv.writeEvent (hs : Lock.Step s.write e r)
    (he : e.inside = true) : PipeInv ({ s with write := r }.go e.task ((s.pc e.task).resume e)) := by
  have hok := hs.phase
  rw [hi.phaseW] at hok
  obtain ⟨h1, h2, h3, h4⟩ := resume_write he hok
  obtain ⟨hg, hp, hb, hw, hst⟩ := resume_keeps e (hi.bounded e.task)
  refine hi.writeStep hs rfl ?_ h1 h2 hg hp hb (by rw [h4]; nofun) (by rw [h3]; nofun) hw
    fun h => ⟨(hst h).1, (hst h).2.1, fun hw => .inl ((hst h).2.2 hw)⟩
  rintro t rfl
  cases he

theorem PipeInv.readWake (hs : Lock.Step s.read (.wake t) r) : PipeInv { s with read := r } := by
  have h : PipeInv { s with read := r, pc := Function.update s.pc t (s.pc t) } :=
    hi.readStep hs rfl nofun (hs.phase.trans (hi.phaseR t)) rfl id id (hi.bounded t) .inl id
    .inl fun h => ⟨h, id⟩
  rwa [update_eq_self] at h

theorem PipeInv.writeWake (hs : Lock.Step s.write (.wake t) r) : PipeInv { s with write := r } := by
  have h : PipeInv { s with write := r, pc := Function.update s.pc t (s.pc t) } :=
    hi.writeStep hs rfl nofun (hs.phase.trans (hi.phaseW t)) rfl id id (hi.bounded t) .inl
    id id fun h => ⟨h, id, .inl⟩
  rwa [update_eq_self] at h

theorem PipeInv.notifyRead (hs : Lock.Step s.read (.call t .release) r) (ht : s.pc t = a)
    (hphase : q.phaseR = .releasing) (hphaseW : a.phaseW = q.phaseW) (hg : q.inGet = false)
    (hp : q.inPut = true → a.inPut = true) (hb : q.Bounded) (hfw : a.firesWrite = false)
    (hst : q.stalled = true → a.stalled = true) (hw : q.waitsPut = false) :
    PipeInv ({ s with read := r }.go t q) := by
  refine hi.readStep hs ht nofun (hs.phase.2.trans hphase.symm) hphaseW
    (by rw [hg]; rintro ⟨⟩) hp hb (fun _ => .inr hs.fires) (fun h => ?_) (fun h => ?_) (fun h => ⟨hst h, ?_⟩)
  · rw [hfw] at h
    cases h
  · rw [inGet_of_waitsGet h] at hg
    cases hg
  · rw [hw]
    rintro ⟨⟩

theorem PipeInv.notifyWrite (hs : Lock.Step s.write (.call t .release) r) (ht : s.pc t = a)
    (hphase : q.phaseW = .releasing) (hphaseR : a.phaseR = q.phaseR)
    (hg : q.inGet = true → a.inGet = true) (hp : q.inPut = false) (hb : q.Bounded)
    (hfr : a.firesRead = false) (hw : q.waitsGet = false) : PipeInv ({ s with write := r }.go t q) := by
  refine hi.writeStep hs ht nofun (hs.phase.2.trans hphase.symm) hphaseR hg
    (by rw [hp]; rintro ⟨⟩) hb (fun _ => .inr hs.fires) (fun h => ?_) (by rw [hw]; rintro ⟨⟩) (fun h => ?_)
  · rw [hfr] at h
    cases h
  · rw [inPut_of_stalled h] at hp
    cases hp

end

/-! ### Runs -/

theorem PipeStep.inv {e : PipeEvent T} (h : PipeStep s e s') (ha : Alone s e) (hi : PipeInv s) : PipeInv s' := by
  cases h with
  | @call t c ht =>
    cases c with
    | putbuf data it => exact hi.move ht rfl (Nat.zero_le _) nofun fun _ => .inr ha
    | getbuf len it => exact hi.move ht rfl trivial (fun _ => .inr ha) nofun
    | close w => exact hi.move ht rfl trivial nofun nofun
  | putEmpty ht | putDone ht _ | putBroken ht _ _ | getNothing ht _ | getEof ht _ _ _ | getSignalRet ht _ | ret ht =>
    exact hi.move ht rfl trivial nofun nofun
  | getSignalEof ht _ => exact hi.move ht rfl trivial (fun _ => .inl rfl) nofun
  | putCopy ht _ => exact hi.putCopy ht
  | @putNotify t data it w r ht hs =>
    have hb := hi.bounded t
    rw [ht] at hb
    exact hi.notifyRead hs ht rfl rfl rfl (fun _ => rfl) hb rfl id rfl
  | @putBlock t data it w r ht hw hr hs =>
    have hb := hi.bounded t
    rw [ht] at hb
    exact hi.writeStep hs ht nofun hs.phase.2 rfl nofun (fun _ => rfl) hb nofun nofun nofun
      fun _ => ⟨by simpa [stalled] using hw, fun _ => rfl, fun _ => .inr hr⟩
  | getCopy ht _ _ => exact hi.getCopy ht
  | @getBlock t len it r ht _ h0 hw hs =>
    exact hi.readStep hs ht nofun hs.phase.2 rfl (fun _ => rfl) nofun trivial nofun nofun
      (fun _ => .inr ⟨h0, hw⟩) nofun
  | getNotify ht hs =>
    exact hi.notifyWrite hs ht rfl rfl (fun _ => rfl) rfl trivial rfl rfl
  | closeWriter ht => exact hi.close ht ⟨rfl, rfl, rfl, rfl, rfl⟩ (.inr rfl) (.inl rfl)
  | closeReader ht => exact hi.close ht ⟨rfl, rfl, rfl, rfl, rfl⟩ (.inl rfl) (.inr rfl)
  | closeNotifyRead ht hs =>
    exact hi.notifyRead hs ht rfl rfl rfl nofun trivial rfl nofun rfl
  | closeNotifyWrite ht hs =>
    exact hi.notifyWrite hs ht rfl rfl nofun rfl trivial rfl rfl
  | readEvent hs he => exact hi.readEvent hs he
  | writeEvent hs he => exact hi.writeEvent hs he
  | readWake hs => exact hi.readWake hs
  | writeWake hs => exact hi.writeWake hs

omit [Fintype T] in
theorem PipeQuiet.read (hq : PipeQuiet s) : Quiet s.read := by
  intro e r hs
  by_contra he
  rw [Bool.not_eq_false] at he
  cases hq _ _ (.readEvent hs he)

omit [Fintype T] in
theorem PipeQuiet.write (hq : PipeQuiet s) : Quiet s.write := by
  intro e r hs
  by_contra he
  rw [Bool.not_eq_false] at he
  cases hq _ _ (.writeEvent hs he)

theorem PipeInv.served (hi : PipeInv s) (hq : PipeQuiet s) : Served s := by
  constructor
  · rintro t ⟨⟨len, it, ht⟩, hl⟩ hc
    rcases hi.readers t (by rw [ht]; rfl) (hq.read.owns_eq_false hi.read t) hc with h | ⟨u, hu⟩
    · exact hq.read.not_fired hi.read hl h
    have hidle : (s.pc u).phaseR = .out → s.read.pc u = .idle := fun h => idle_of_phase ((hi.phaseR u).trans h)
    cases hp : s.pc u with
    | putNotify => cases hq _ _ (.putNotify hp (.call .release (hidle (by rw [hp]; rfl))))
    | closeNotify w =>
      rw [hp] at hu
      cases w with
      | true => cases hq _ _ (.closeNotifyRead hp (.call .release (hidle (by rw [hp]; rfl))))
      | false => cases hu
    | _ => rw [hp] at hu; cases hu
  · rintro t ⟨⟨data, it, w, ht⟩, hl⟩ hc
    have hcond : s.b.length < s.b.bufSize ∨ (s.pc t).waitsPut = true ∧ s.b.readerCount = 0 :=
      hc.imp_right fun h => ⟨by rw [ht]; rfl, h⟩
    rcases hi.writers t (by rw [ht]; rfl) (hq.write.owns_eq_false hi.write t) hcond with h | ⟨u, hu⟩
    · exact hq.write.not_fired hi.write hl h
    have hidle : (s.pc u).phaseW = .out → s.write.pc u = .idle := fun h => idle_of_phase ((hi.phaseW u).trans h)
    cases hp : s.pc u with
    | getNotify => cases hq _ _ (.getNotify hp (.call .release (hidle (by rw [hp]; rfl))))
    | closeNotify w =>
      rw [hp] at hu
      cases w with
      | true => cases hu
      | false => cases hq _ _ (.closeNotifyWrite hp (.call .release (hidle (by rw [hp]; rfl))))
    | _ => rw [hp] at hu; cases hu

omit [Fintype T] in
theorem PipeQuiet.of_parked (hw : ∀ t, s.write.pc t = .idle) (h : ∀ t, s.pc t = .idle ∧ s.read.pc t = .idle ∨
      (∃ len it, s.pc t = .getWait len it) ∧ ∃ i, s.read.pc t = .asleep i true) : PipeQuiet s := by
  have hread : Quiet s.read := .of_parked fun t => (h t).imp And.right And.right
  have hwrite : Quiet s.write := .of_parked fun t => .inl (hw t)
  intro e s' hs
  have hno : ∀ {t : T} {p : PipePc}, s.pc t = p → p ≠ .idle → (∀ len it, p ≠ .getWait len it) → e.inside = false := by
    intro t p ht h1 h2
    rcases h t with ⟨ht', -⟩ | ⟨⟨len, it, ht'⟩, -⟩
    · exact absurd (ht.symm.trans ht') h1
    · exact absurd (ht.symm.trans ht') (h2 len it)
  cases hs with
  | call | readWake | writeWake => rfl
  | readEvent hs he => exact hread.stuck hs he
  | writeEvent hs he => exact hwrite.stuck hs he
  | _ =>
    exact hno ‹s.pc _ = _› (by rintro ⟨⟩) (by rintro _ _ ⟨⟩)

/-- On a created buffer with any open counts, in every run in which at most one task at a time reads and at most one
writes, nobody is left asleep who could go on. -/
theorem cyb_quiescent (pages : Int) (named vmHasMemory : Bool) (garbage : Nat → UInt8) (b : CyBuf)
    (hb : (if named then cybCreateNamed else cybCreate) pages vmHasMemory garbage = some b) (writers readers : Int)
    (tr : List (PipeEvent T)) (s : Pipe T)
    (h : Run (fun s e s' => PipeStep s e s' ∧ Alone s e)
      (.start T { b with writerCount := writers, readerCount := readers }) tr s) (hq : PipeQuiet s) : Served s := by
  have hring : RingOk { b with writerCount := writers, readerCount := readers } := by
    have hb' : RingOk b := by cases named <;> exact (cybCreateWith_ok hb).1
    have hsame : SameRing b { b with writerCount := writers, readerCount := readers } := ⟨rfl, rfl, rfl, rfl, rfl⟩
    exact hsame.ringOk hb'
  have hi := h.invariant_state PipeInv (.start hring) fun _ _ _ hi hs => hs.1.inv hs.2 hi
  exact hi.served hq

end

/-- The only reader sleeps in an empty pipe that has a writer. -/
theorem cyb_quiescent_reader :
    ∃ tr, ∃ s : Pipe Bool, Run (fun s e s' => PipeStep s e s' ∧ Alone s e) (.start Bool pipeBuf) tr s ∧ PipeQuiet s ∧
      ParkedGet s true ∧ Served s := by
  have r0 : Run (fun s e s' => PipeStep s e s' ∧ Alone s e) (.start Bool pipeBuf) _ _ :=
    (((Run.nil.snoc ⟨.call (t := true) (.getbuf 1 true) rfl, fun _ => rfl⟩).snoc
      ⟨.getBlock (t := true) rfl (by decide) rfl (by decide) (.call (.wait true) rfl), trivial⟩).snoc
        ⟨.readEvent (.loadTaken (t := true) rfl (by decide)) rfl, trivial⟩).snoc
          ⟨.readEvent (.register (t := true) rfl) rfl, trivial⟩
  have r1 := (((r0.snoc ⟨.readEvent (.spin (t := true) rfl rfl) rfl, trivial⟩).snoc
    ⟨.readEvent (.retryTaken (t := true) rfl (by decide)) rfl, trivial⟩).snoc
      ⟨.readEvent (.park (t := true) rfl) rfl, trivial⟩).snoc ⟨.readEvent (.unlockSleep (t := true) rfl) rfl, trivial⟩
  refine ⟨_, _, r1, ?quiet, ⟨⟨1, true, rfl⟩, mem_singleton.2 rfl⟩,
    cyb_quiescent 16 false true (fun _ => 0) pipeBuf rfl 1 1 _ _ r1 ?quiet⟩
  refine .of_parked (fun t => rfl) fun t => ?_
  match t with
  | false => exact .inl ⟨rfl, rfl⟩
  | true => exact .inr ⟨⟨1, true, rfl⟩, true, rfl⟩

/-- Two readers sleep when the last writer closes; the close wakes one of them, which returns 0 without waking the
other. -/
theorem second_reader_sleeps : ∃ tr, ∃ s : Pipe (Fin 3), cybCreate 16 true (fun _ => 0) = some pipeBuf ∧
      Run PipeStep (.start (Fin 3) pipeBuf) tr s ∧ PipeQuiet s ∧ ParkedGet s 1 ∧ s.b.writerCount = 0 ∧ ¬Served s := by
  -- the readers 0 and 1 go to sleep
  have r0 : Run PipeStep (.start (Fin 3) pipeBuf) _ _ :=
    (((Run.nil.snoc (.call (t := 0) (.getbuf 1 true) rfl)).snoc
      (.getBlock (t := 0) rfl (by decide) rfl (by decide) (.call (.wait true) rfl))).snoc
        (.readEvent (.loadTaken (t := 0) rfl (by decide)) rfl)).snoc (.readEvent (.register (t := 0) rfl) rfl)
  have r1 := (((r0.snoc (.readEvent (.spin (t := 0) rfl rfl) rfl)).snoc
    (.readEvent (.retryTaken (t := 0) rfl (by decide)) rfl)).snoc (.readEvent (.park (t := 0) rfl) rfl)).snoc
      (.readEvent (.unlockSleep (t := 0) rfl) rfl)
  have r2 := (((r1.snoc (.call (t := 1) (.getbuf 1 true) rfl)).snoc
      (.getBlock (t := 1) rfl (by decide) rfl (by decide) (.call (.wait true) rfl))).snoc
        (.readEvent (.loadTaken (t := 1) rfl (by decide)) rfl)).snoc (.readEvent (.register (t := 1) rfl) rfl)
  have r3 := (((r2.snoc (.readEvent (.spin (t := 1) rfl rfl) rfl)).snoc
    (.readEvent (.retryTaken (t := 1) rfl (by decide)) rfl)).snoc (.readEvent (.park (t := 1) rfl) rfl)).snoc
      (.readEvent (.unlockSleep (t := 1) rfl) rfl)
  -- the writer 2 closes
  have r4 := (((r3.snoc (.call (t := 2) (.close true) rfl)).snoc (.closeWriter (t := 2) rfl)).snoc
    (.closeNotifyRead (t := 2) rfl (.call .release rfl))).snoc (.readEvent (.relStore (t := 2) rfl) rfl)
  have r5 := (((r4.snoc (.readEvent (.relSome (t := 2) rfl (by decide)) rfl)).snoc
    (.readEvent (.relSpin (t := 2) rfl rfl) rfl)).snoc (.readEvent (.relWake (t := 2) rfl) rfl)).snoc
      (.readEvent (.relUnlock (t := 2) rfl) rfl)
  -- the reader 0 takes the event and returns at the end of the stream
  have r6 := (((r5.snoc (.ret (t := 2) rfl)).snoc (.readEvent (.resume (t := 0) rfl) rfl)).snoc
    (.readEvent (.spin (t := 0) rfl rfl) rfl)).snoc (.readEvent (.retryFree (t := 0) rfl rfl) rfl)
  have r7 := (((r6.snoc (.readEvent (.leave (t := 0) rfl) rfl)).snoc
    (.readEvent (.retAcquired (t := 0) rfl) rfl)).snoc
    (.getEof (t := 0) rfl (by decide) rfl rfl)).snoc (.ret (t := 0) rfl)
  refine ⟨_, _, rfl, r7, .of_parked (fun t => rfl) ?_, ?_⟩
  · intro t
    match t with
    | 0 | 2 => exact .inl ⟨rfl, rfl⟩
    | 1 => exact .inr ⟨⟨1, true, rfl⟩, true, rfl⟩
  · refine ⟨⟨⟨1, true, rfl⟩, mem_singleton.2 rfl⟩, rfl, fun h => ?_⟩
    exact h.1 1 ⟨⟨1, true, rfl⟩, mem_singleton.2 rfl⟩ (.inr rfl)

end Mos.CycleBuf
