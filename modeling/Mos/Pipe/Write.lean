import Mos.CycleBuf.System

/-!
# Pipes

`pipe_write` and `pipe_read` of `src/fs/impl/pipe.c` over the cycle buffer, by any number of tasks.  A call first
makes its own checks, then runs inside `cyb_putbuf` or `cyb_getbuf` step by step, then decides on its result.

`cyb_putbuf` takes whatever space is free and gives the lock back between rounds.  A write of at most `PIPE_BUF` bytes
is therefore in one piece only if every round of it finds no space at all or enough for the whole write
(`pipe_write_atomic`); otherwise it can be cut and mixed with another (`pipe_write_torn`).
-/

namespace Mos.Pipe

open Lib CycleBuf Function List

inductive Mode
  | rdonly
  | wronly
  | rdwr
  deriving DecidableEq

/-- A call on a pipe file; opening and closing it is one call per end. -/
inductive Op
  | write (data : List UInt8) (mode : Mode) (nonblock : Bool)
  | read (len : Nat) (mode : Mode) (nonblock : Bool)
  | openEnd (writer : Bool)
  | closeEnd (writer : Bool)
  deriving DecidableEq

def ebadf : Int := -9

def eagain : Int := -11

/-- `PIPE_BUF`. -/
def pipeBufSize : Nat := 4096

/-- The return before the buffer is looked at. -/
def Op.early : Op → Option Int
  | .write data mode _ => if mode = .rdonly then some ebadf else if data = [] then some 0 else none
  | .read len mode _ => if mode = .wronly then some ebadf else if len = 0 then some 0 else none
  | .openEnd _ | .closeEnd _ => none

/-- The call on the buffer; lengths are cut to 32 bits on the way. -/
def Op.bufCall : Op → Call
  | .write data _ nonblock => .putbuf (data.take (data.length % 2 ^ 32)) (!nonblock) true
  | .read len _ nonblock => .getbuf (toSigned 32 (len % 2 ^ 32)) (!nonblock) true
  | .openEnd writer => if writer then .writerOpen else .readerOpen
  | .closeEnd writer => if writer then .writerClose else .readerClose

/-- The result, from the value of the buffer call and the open counts found afterwards. -/
def Op.result (op : Op) (v : Int) (b : CyBuf) : Int :=
  match op with
  | .write _ _ nonblock => if nonblock ∧ v = 0 ∧ b.readerCount > 0 then eagain else v
  | .read _ _ nonblock =>
    if v < 0 then eintr else if nonblock ∧ v = 0 ∧ b.writerCount > 0 then eagain else v
  | .openEnd _ | .closeEnd _ => v

/-- Whether the caller gets `SIGPIPE`. -/
def Op.sigpipe : Op → Int → Bool
  | .write _ _ _, r => r = epipe
  | _, _ => false

/-- Where a task is inside a call. -/
inductive Stage
  | idle
  | top (op : Op)
  | inside (op : Op)
  | done (op : Op) (ret : Int)

structure State where
  sys : Sys
  stage : Nat → Stage
  sigpipe : Nat → Bool

inductive Event
  | call (tid : Nat) (op : Op)
  | io (e : CycleBuf.Event)
  | broken (tid : Nat)
  | ret (tid : Nat) (op : Op) (value : Int)

def State.go (s : State) (tid : Nat) (p : Stage) (sys : Sys) : State :=
  { s with sys := sys, stage := update s.stage tid p }

/-- A step of the buffer system inside a buffer call. -/
def isInner : CycleBuf.Event → Bool
  | .call _ _ | .ret _ _ _ => false
  | _ => true

/-- One step; `user` tells the tasks of user processes from kernel threads. -/
inductive Step (user : Nat → Bool) (s : State) : Event → State → Prop
  | call {t} (op : Op) : s.stage t = .idle → Step user s (.call t op) (s.go t (.top op) s.sys)
  | early {t op v} : s.stage t = .top op → op.early = some v → Step user s (.ret t op v) (s.go t .idle s.sys)
  | broken {t data mode nb} : s.stage t = .top (.write data mode nb) → (Op.write data mode nb).early = none →
      s.sys.b.readerCount = 0 → Step user s (.broken t) (s.go t (.done (.write data mode nb) epipe) s.sys)
  | enter {t op sys} : s.stage t = .top op → op.early = none →
      (∀ data mode nb, op = .write data mode nb → s.sys.b.readerCount ≠ 0) →
      CycleBuf.Step s.sys (.call t op.bufCall) sys →
      Step user s (.io (.call t op.bufCall)) (s.go t (.inside op) sys)
  | io {e op sys} : s.stage e.tid = .inside op → isInner e = true → CycleBuf.Step s.sys e sys →
      Step user s (.io e) { s with sys := sys }
  | leave {t op c v sys} : s.stage t = .inside op → CycleBuf.Step s.sys (.ret t c v) sys →
      Step user s (.io (.ret t c v)) (s.go t (.done op v) sys)
  | finish {t op v} : s.stage t = .done op v →
      Step user s (.ret t op (op.result v s.sys.b))
        { s.go t .idle s.sys with
          sigpipe := update s.sigpipe t (s.sigpipe t || (op.sigpipe (op.result v s.sys.b) && user t)) }

def State.start (b : CyBuf) : State := ⟨.start b, fun _ => .idle, fun _ => false⟩

/-- The steps of the buffer in a run of the pipe. -/
def bufTrace (tr : List Event) : List CycleBuf.Event :=
  tr.filterMap fun e => match e with
    | .io e => some e
    | _ => none

/-- The bytes an event puts into the pipe, with the task that writes them. -/
def Event.tagged : Event → List (Nat × UInt8)
  | .io (.copiedIn tid chunk) => chunk.map (tid, ·)
  | _ => []

def stream (tr : List Event) : List (Nat × UInt8) := (tr.map Event.tagged).flatten

open Event

private theorem stream_bytes (tr : List Event) : (stream tr).map Prod.snd = inputs (bufTrace tr) := by
  induction tr with
  | nil => rfl
  | cons e tr ih =>
    have hcons : stream (e :: tr) = e.tagged ++ stream tr := by simp [stream]
    rw [hcons, map_append, ih]
    cases e with
    | io e =>
      have hb : inputs (bufTrace (.io e :: tr)) = e.input ++ inputs (bufTrace tr) := by simp [inputs, bufTrace]
      rw [hb]
      cases e <;> simp [tagged, input]
    | call | broken | ret => simp [tagged, bufTrace]

private theorem stream_snoc (tr : List Event) (e : Event) : stream (tr ++ [e]) = stream tr ++ e.tagged := by
  simp [stream]

open State

private theorem run_buffer {user : Nat → Bool} {b : CyBuf} {tr : List Event} {s : State}
    (h : Run (Step user) (.start b) tr s) : Run CycleBuf.Step (.start b) (bufTrace tr) s.sys := by
  refine h.invariant (fun tr s => Run CycleBuf.Step (.start b) (bufTrace tr) s.sys) .nil ?_
  intro tr t e u _ hr hs
  have hsnoc : bufTrace (tr ++ [e]) = bufTrace tr ++ bufTrace [e] := by simp [bufTrace]
  rw [hsnoc]
  cases hs with
  | call | early | broken | finish => simpa [bufTrace, go] using hr
  | enter _ _ _ hs | io _ _ hs | leave _ hs => exact hr.snoc hs

def Event.tid : Event → Nat
  | .call t _ | .broken t | .ret t _ _ => t
  | .io e => e.tid

/-! ### Pieces -/

def Untouched (tid : Nat) (w : List (Nat × UInt8)) : Prop := ∀ x ∈ w, x.1 ≠ tid

/-- What `w` has from `tid` is `data` in one piece. -/
def Contiguous (tid : Nat) (data : List UInt8) (w : List (Nat × UInt8)) : Prop :=
  ∃ pre post, w = pre ++ data.map (tid, ·) ++ post ∧ Untouched tid pre ∧ Untouched tid post

variable {tid : Nat} {data : List UInt8} {w v : List (Nat × UInt8)}

theorem Untouched.nil : Untouched tid [] := by
  intro x hx
  cases hx

theorem Untouched.append (hw : Untouched tid w) (hv : Untouched tid v) : Untouched tid (w ++ v) := by
  exact forall_mem_append.2 ⟨hw, hv⟩

theorem Untouched.own (hw : Untouched tid w) : Contiguous tid data (w ++ data.map (tid, ·)) :=
  ⟨w, [], by simp, hw, .nil⟩

theorem Contiguous.append (hw : Contiguous tid data w) (hv : Untouched tid v) :
    Contiguous tid data (w ++ v) := by
  obtain ⟨pre, post, rfl, h1, h2⟩ := hw
  exact ⟨pre, post ++ v, by simp, h1, h2.append hv⟩

private theorem untouched_tagged {e : Event} (h : e.tid ≠ tid) : Untouched tid e.tagged := by
  cases e with
  | io e =>
    cases e with
    | copiedIn t chunk =>
      intro x hx
      obtain ⟨y, -, rfl⟩ := mem_map.1 hx
      exact h
    | _ => exact .nil
  | call | broken | ret => exact .nil

/-- What a write of at most `PIPE_BUF` bytes promises, `w` being the bytes that went in while it ran. -/
def WriteOk (tid : Nat) (data : List UInt8) (nonblock : Bool) (r : Int) (w : List (Nat × UInt8)) : Prop :=
  (r = data.length → Contiguous tid data w) ∧
    (nonblock = true → r = data.length ∧ Contiguous tid data w ∨ r = eagain ∧ Untouched tid w)

/-- In the run `tr` a write of `tid` returned `r`, and `w` went into the pipe while it ran. -/
def Wrote (tr : List Event) (tid : Nat) (data : List UInt8) (mode : Mode) (nonblock : Bool) (r : Int)
    (w : List (Nat × UInt8)) : Prop :=
  ∃ tr₀ tr₁ tr₂,
    tr = tr₀ ++ .call tid (.write data mode nonblock) :: (tr₁ ++ .ret tid (.write data mode nonblock) r :: tr₂) ∧
      (∀ op, .call tid op ∉ tr₁) ∧ stream tr₁ = w

/-- Every round of a short write finds no space or enough space for all of it; the file is open for writing; and a
non-blocking write finds a reader wherever it looks for one. -/
def Roomy (s : State) : Event → Prop
  | .call _ (.write _ mode _) => mode ≠ .rdonly
  | .io (.copiedIn tid _) => ∀ data bl it w, s.sys.tasks tid = .putTop data bl it w → data.length ≤ pipeBufSize →
      s.sys.b.length = s.sys.b.bufSize ∨ s.sys.b.length + data.length ≤ s.sys.b.bufSize
  | .broken tid => ∀ data mode, s.stage tid ≠ .top (.write data mode true)
  | .ret _ (.write _ _ true) r => r = 0 → s.sys.b.readerCount > 0
  | _ => True

/-! ### One write -/

/-- The position of a short write inside `cyb_putbuf`: nothing of it is in the pipe, or all of it in one piece. -/
def PutOk (tid : Nat) (data : List UInt8) (nonblock : Bool) (w : List (Nat × UInt8)) : Task → Prop
  | .putTop d bl _ n => d = data ∧ bl = !nonblock ∧ n = 0 ∧ Untouched tid w
  | .putCheck d bl _ n | .putWait d bl _ n => d = data ∧ (bl = true ∧ nonblock = false) ∧ n = 0 ∧ Untouched tid w
  | .putNotify d bl _ n _ =>
    d = data ∧ bl = !nonblock ∧ (n = 0 ∧ Untouched tid w ∨ n = data.length ∧ Contiguous tid data w)
  | _ => False

/-- The same over the whole of `pipe_write`. -/
def CallOk (tid : Nat) (data : List UInt8) (mode : Mode) (nonblock : Bool) (w : List (Nat × UInt8)) (s : State) :
    Prop :=
  match s.stage tid with
  | .idle => True
  | .top op => op = .write data mode nonblock ∧ Untouched tid w
  | .inside op => op = .write data mode nonblock ∧ data ≠ [] ∧ PutOk tid data nonblock w (s.sys.tasks tid)
  | .done op r => op = .write data mode nonblock ∧ data ≠ [] ∧
      (r = data.length ∧ Contiguous tid data w ∨ r ≤ 0 ∧ (nonblock = true → r = 0) ∧ Untouched tid w)

variable {user : Nat → Bool} {s s' : State} {e : Event} {mode : Mode} {nonblock : Bool}

theorem Step.frame (h : Step user s e s') (ht : e.tid ≠ tid) :
    s'.stage tid = s.stage tid ∧ s'.sys.tasks tid = s.sys.tasks tid := by
  cases h with
  | call | early | broken | finish => exact ⟨update_of_ne ht.symm _ _, rfl⟩
  | enter _ _ _ hs | leave _ hs => exact ⟨update_of_ne ht.symm _ _, hs.tid_task ht.symm⟩
  | io _ _ hs => exact ⟨rfl, hs.tid_task ht.symm⟩

theorem PutOk.append {p : Task} (h : PutOk tid data nonblock w p) (hv : Untouched tid v) :
    PutOk tid data nonblock (w ++ v) p := by
  cases p with
  | putTop | putCheck | putWait =>
    obtain ⟨h1, h2, h3, h4⟩ := h
    exact ⟨h1, h2, h3, h4.append hv⟩
  | putNotify =>
    obtain ⟨h1, h2, ⟨h3, h4⟩ | ⟨h3, h4⟩⟩ := h
    · exact ⟨h1, h2, .inl ⟨h3, h4.append hv⟩⟩
    · exact ⟨h1, h2, .inr ⟨h3, h4.append hv⟩⟩
  | _ => exact h.elim

theorem CallOk.append (h : CallOk tid data mode nonblock w s) (hv : Untouched tid v) :
    CallOk tid data mode nonblock (w ++ v) s := by
  unfold CallOk at h ⊢
  cases hst : s.stage tid with
  | idle => trivial
  | top op =>
    rw [hst] at h
    exact ⟨h.1, h.2.append hv⟩
  | inside op =>
    rw [hst] at h
    exact ⟨h.1, h.2.1, h.2.2.append hv⟩
  | done op r =>
    rw [hst] at h
    obtain ⟨h1, h2, ⟨h3, h4⟩ | ⟨h3, h4, h5⟩⟩ := h
    · exact ⟨h1, h2, .inl ⟨h3, h4.append hv⟩⟩
    · exact ⟨h1, h2, .inr ⟨h3, h4, h5.append hv⟩⟩

variable {sys sys' : Sys} {r : Int} {n : Nat}

theorem PutOk.step {e : CycleBuf.Event} (hs : CycleBuf.Step sys e sys') (he : isInner e = true) (hring : RingOk sys.b)
    (hroom : ∀ chunk bl it n, e = .copiedIn e.tid chunk → sys.tasks e.tid = .putTop data bl it n →
      sys.b.length = sys.b.bufSize ∨ sys.b.length + data.length ≤ sys.b.bufSize)
    (h : PutOk e.tid data nonblock w (sys.tasks e.tid)) :
    PutOk e.tid data nonblock (w ++ (io e).tagged) (sys'.tasks e.tid) := by
  cases hs with
  | @putCopy t d bl it n ht hd =>
    simp only [CycleBuf.Event.tid, ht] at h
    obtain ⟨rfl, hbl, rfl, hw⟩ := h
    have hcount : putCount sys.b d 0 = min (sys.b.bufSize - sys.b.length) (d.length - 0) := putCount_eq hring
    simp only [CycleBuf.Event.tid, Sys.set, update_self, tagged, drop_zero]
    refine ⟨rfl, hbl, ?_⟩
    rcases hroom _ _ _ _ rfl ht with hfull | hfree
    · left
      have h0 : putCount sys.b d 0 = 0 := by omega
      rw [h0]
      simpa using hw
    · right
      have hall : putCount sys.b d 0 = d.length := by omega
      rw [hall, Nat.zero_add, take_length]
      exact ⟨rfl, hw.own⟩
  | @putMore t d bl it n f ht hmore =>
    simp only [CycleBuf.Event.tid, ht] at h
    obtain ⟨rfl, hbl, ⟨rfl, hw⟩ | ⟨rfl, -⟩⟩ := h
    · have hnb : nonblock = false := by
        cases nonblock with
        | false => rfl
        | true => exact absurd (.inl hbl) hmore
      simp only [CycleBuf.Event.tid, Sys.set, update_self, tagged, append_nil]
      exact ⟨rfl, ⟨by rw [hbl, hnb]; rfl, hnb⟩, rfl, hw⟩
    · exact absurd (.inr rfl) hmore
  | putBlock ht _ =>
    simp only [CycleBuf.Event.tid, ht] at h
    simp only [CycleBuf.Event.tid, Sys.set, update_self, tagged, append_nil]
    exact h
  | putWoken ht _ =>
    simp only [CycleBuf.Event.tid, ht] at h
    obtain ⟨rfl, ⟨hbl, hnb⟩, rfl, hw⟩ := h
    simp only [CycleBuf.Event.tid, Sys.set, update_self, tagged, append_nil]
    exact ⟨rfl, by rw [hbl, hnb]; rfl, rfl, hw⟩
  | recordCopy ht _ | getCopy ht _ _ | getBlock ht _ _ _ | getWoken ht _ | getInterrupted ht | getSignalEof ht _
  | flush ht | closeWriter ht | closeReader ht =>
    simp only [CycleBuf.Event.tid, ht] at h
    exact h.elim
  | _ => cases he

theorem PutOk.ret {c : Call} (hs : CycleBuf.Step sys (.ret tid c r) sys')
    (hlen : data.length ≤ pipeBufSize) (h : PutOk tid data nonblock w (sys.tasks tid)) :
    r = data.length ∧ Contiguous tid data w ∨ r ≤ 0 ∧ (nonblock = true → r = 0) ∧ Untouched tid w := by
  cases hs with
  | putEmpty ht =>
    rw [ht] at h
    exact .inr ⟨le_refl _, fun _ => rfl, h.2.2.2⟩
  | putDone ht _ =>
    rw [ht] at h
    obtain ⟨rfl, -, ⟨rfl, hw⟩ | ⟨rfl, hw⟩⟩ := h
    · exact .inr ⟨le_refl _, fun _ => rfl, hw⟩
    · have hn : _ ≤ 4096 := hlen
      exact .inl ⟨toSigned_of_lt (by omega), hw⟩
  | putBroken ht _ | putInterrupted ht =>
    rw [ht] at h
    obtain ⟨rfl, ⟨-, rfl⟩, rfl, hw⟩ := h
    exact .inr ⟨by decide, by simp, hw⟩
  | _ =>
    rw [‹sys.tasks tid = _›] at h
    exact h.elim

open Op

private theorem ne_nil_of_early (h : (write data mode nonblock).early = none) : data ≠ [] := by
  rintro rfl
  simp only [early] at h
  split at h <;> simp at h

private theorem take_mod (hlen : data.length ≤ pipeBufSize) : data.take (data.length % 2 ^ 32) = data := by
  have h : data.length ≤ 4096 := hlen
  rw [Nat.mod_eq_of_lt (by omega), take_length]

theorem Step.callOk (hs : Step user s e s') (hr : Roomy s e) (hring : RingOk s.sys.b)
    (hlen : data.length ≤ pipeBufSize) (hnew : ∀ op, e ≠ .call tid op) (h : CallOk tid data mode nonblock w s) :
    CallOk tid data mode nonblock (w ++ e.tagged) s' := by
  by_cases ht : e.tid = tid
  · subst ht
    cases hs with
    | call op _ => exact absurd rfl (hnew op)
    | early _ _ | finish _ => simp [CallOk, go, Event.tid]
    | @broken t d m nb hst hearly _ =>
      simp only [CallOk, Event.tid, hst, write.injEq] at h
      obtain ⟨⟨rfl, rfl, rfl⟩, hw⟩ := h
      have hnb : nb = false := by
        cases nb with
        | false => rfl
        | true => exact absurd hst (hr d m)
      simp only [CallOk, go, Event.tid, update_self, Event.tagged, append_nil]
      refine ⟨trivial, ne_nil_of_early hearly, .inr ⟨by decide, by simp [hnb], hw⟩⟩
    | @enter t op sys hst hearly hrc hs =>
      simp only [CallOk, Event.tid, CycleBuf.Event.tid, hst] at h
      obtain ⟨rfl, hw⟩ := h
      simp only [CallOk, go, Event.tid, CycleBuf.Event.tid, update_self, Event.tagged, append_nil]
      refine ⟨trivial, ne_nil_of_early hearly, ?_⟩
      cases hs
      simp only [Sys.set, update_self, bufCall, Call.entry, take_mod hlen]
      exact ⟨rfl, rfl, rfl, hw⟩
    | @io e op sys hst he hs =>
      simp only [CallOk, Event.tid, hst] at h ⊢
      obtain ⟨rfl, hne, hput⟩ := h
      refine ⟨rfl, hne, hput.step hs he hring ?_⟩
      intro chunk bl it n hchunk ht
      rw [hchunk] at hr
      exact hr _ _ _ _ ht hlen
    | @leave t op c r sys hst hs =>
      simp only [CallOk, Event.tid, CycleBuf.Event.tid, hst] at h
      obtain ⟨rfl, hne, hput⟩ := h
      simp only [CallOk, go, Event.tid, CycleBuf.Event.tid, update_self, Event.tagged, append_nil]
      exact ⟨trivial, hne, hput.ret hs hlen⟩
  · obtain ⟨h1, h2⟩ := hs.frame ht
    have h' : CallOk tid data mode nonblock w s' := by
      unfold CallOk at h ⊢
      rwa [h1, h2]
    exact h'.append (untouched_tagged ht)

theorem Step.writeOk (hs : Step user s (.ret tid (.write data mode nonblock) r) s')
    (hr : Roomy s (.ret tid (.write data mode nonblock) r)) (hm : mode ≠ .rdonly)
    (h : CallOk tid data mode nonblock w s) : WriteOk tid data nonblock r w := by
  cases hs with
  | early hst hearly =>
    simp only [CallOk, hst] at h
    simp only [Op.early, if_neg hm] at hearly
    split at hearly
    · rename_i hnil
      subst hnil
      cases hearly
      have hc : Contiguous tid [] w := ⟨w, [], by simp, h.2, .nil⟩
      exact ⟨fun _ => hc, fun _ => .inl ⟨rfl, hc⟩⟩
    · cases hearly
  | @finish _ _ v hst =>
    simp only [CallOk, hst, true_and] at h
    obtain ⟨hne, ⟨rfl, hc⟩ | ⟨hle, hnb, hw⟩⟩ := h
    · have hpos : 0 < data.length := length_pos_iff.2 hne
      have hres : (Op.write data mode nonblock).result data.length s.sys.b = data.length := by
        simp only [Op.result]
        rw [if_neg (by omega)]
      rw [hres]
      exact ⟨fun _ => hc, fun _ => .inl ⟨rfl, hc⟩⟩
    have hpos : 0 < data.length := length_pos_iff.2 hne
    have hneg : (Op.write data mode nonblock).result v s.sys.b ≤ 0 := by
      simp only [Op.result]
      split
      · decide
      · exact hle
    refine ⟨fun heq => by omega, fun hn => .inr ⟨?_, hw⟩⟩
    subst hn
    have hreader : s.sys.b.readerCount > 0 := by
      by_contra hno
      exact hno (hr (by simp [Op.result, hno, hnb rfl]))
    simp only [Op.result]
    rw [if_pos ⟨trivial, hnb rfl, hreader⟩]

/-- On a created pipe, in every run whose steps all meet the condition, what was handed to readers followed by what is
stored is what was written, and every returned write of at most `PIPE_BUF` bytes has kept its promise. -/
theorem pipe_write_atomic (user : Nat → Bool) (pages : Int) (vmHasMemory : Bool) (garbage : Nat → UInt8) (b : CyBuf)
    (hb : cybCreate pages vmHasMemory garbage = some b) (tr : List Event) (s : State)
    (h : Run (fun s e s' => Step user s e s' ∧ Roomy s e) (.start b) tr s) :
    outputs (bufTrace tr) ++ stored s.sys.b = (stream tr).map Prod.snd ∧
    ∀ tid data mode nonblock r w, Wrote tr tid data mode nonblock r w → data.length ≤ pipeBufSize →
      WriteOk tid data nonblock r w := by
  obtain ⟨hring, hempty⟩ := cybCreateWith_ok hb
  have hinv : ∀ {tr : List Event} {s : State}, Run (fun s e s' => Step user s e s' ∧ Roomy s e) (.start b) tr s →
      RingOk s.sys.b ∧ outputs (bufTrace tr) ++ stored s.sys.b = inputs (bufTrace tr) := by
    intro tr s h
    exact run_stream hring hempty (run_buffer (h.imp fun _ _ _ _ hs => hs.1))
  refine ⟨by rw [stream_bytes]; exact (hinv h).2, ?_⟩
  rintro tid data mode nonblock r w ⟨tr0, tr1, tr2, rfl, hnew, rfl⟩ hlen
  obtain ⟨t0, t1, h0, ⟨hcall, hm⟩, hrest⟩ := h.split
  obtain ⟨t2, t3, h1, ⟨hret, hroomy⟩, -⟩ := hrest.split
  have hstart : CallOk tid data mode nonblock [] t1 := by
    cases hcall
    simp only [CallOk, go, update_self]
    exact ⟨trivial, .nil⟩
  -- the ring stays well formed after the call, and the task makes no other call before it returns
  have hok : RingOk t2.sys.b ∧ CallOk tid data mode nonblock (stream tr1) t2 := by
    have h1' : Run (fun s e s' => (Step user s e s' ∧ Roomy s e) ∧ ∀ op, e ≠ .call tid op) t1 tr1 t2 := by
      refine h1.imp fun _ _ e he hs => ⟨hs, ?_⟩
      rintro op rfl
      exact hnew op he
    refine h1'.invariant (fun tr s => RingOk s.sys.b ∧ CallOk tid data mode nonblock (stream tr) s) ?_ ?_
    · exact ⟨(hinv (h0.snoc ⟨hcall, hm⟩)).1, hstart⟩
    · intro tr s e s' _ ⟨hr, hc⟩ ⟨⟨hs, hroomy⟩, hne⟩
      refine ⟨?_, ?_⟩
      · cases hs with
        | call | early | broken | finish => exact hr
        | enter _ _ _ hs | io _ _ hs | leave _ hs => exact (hs.stream hr).1
      · rw [stream_snoc]
        exact hs.callOk hroomy hr hlen hne hc
  exact hret.writeOk hroomy hm hok.2

/-- Two writers at once. -/
theorem pipe_write_atomic_pair :
    ∃ tr s, Run (fun s e s' => Step (fun _ => true) s e s' ∧ Roomy s e) (.start pipeBuf) tr s ∧
      Wrote tr 1 [1, 2] .wronly true 2 [(2, 3), (1, 1), (1, 2)] ∧
      WriteOk 1 [1, 2] true 2 [(2, 3), (1, 1), (1, 2)] := by
  have r1 : Run (fun s e s' => Step (fun _ => true) s e s' ∧ Roomy s e) (.start pipeBuf) _ _ :=
    (Run.nil.snoc ⟨.call (t := 1) (.write [1, 2] .wronly true) rfl, Mode.noConfusion⟩).snoc
      ⟨.enter (t := 1) rfl rfl (by intros; decide) (.call _ rfl), trivial⟩
  have r2 := (r1.snoc ⟨.call (t := 2) (.write [3] .wronly false) rfl, Mode.noConfusion⟩).snoc
    ⟨.enter (t := 2) rfl rfl (by intros; decide) (.call _ rfl), trivial⟩
  have r3 := r2.snoc ⟨.io (e := .copiedIn 2 _) rfl rfl (.putCopy rfl (by simp)), by
    intro data bl it w h _
    cases h
    exact .inr (by decide)⟩
  have r4 := r3.snoc ⟨.io (e := .copiedIn 1 _) rfl rfl (.putCopy rfl (by simp)), by
    intro data bl it w h _
    cases h
    exact .inr (by decide)⟩
  have r5 := (r4.snoc ⟨.leave (t := 1) rfl (.putDone rfl (.inl rfl)), trivial⟩).snoc ⟨.finish (t := 1) rfl,
    fun _ => (by decide : (0 : Int) < 1)⟩
  have hw : Wrote _ 1 [1, 2] .wronly true 2 [(2, 3), (1, 1), (1, 2)] :=
    ⟨[], [.io (.call 1 (.putbuf [1, 2] false true)), .call 2 (.write [3] .wronly false),
      .io (.call 2 (.putbuf [3] true true)), .io (.copiedIn 2 [3]), .io (.copiedIn 1 [1, 2]),
      .io (.ret 1 (.putbuf [1, 2] false true) 2)], [], rfl, by intro op; simp, rfl⟩
  exact ⟨_, _, r5, hw, (pipe_write_atomic (fun _ => true) 16 true (fun _ => 0) pipeBuf rfl _ _ r5).2 _ _ _ _ _ _ hw
    (by decide)⟩

/-! ### Short writes -/

/-- A ring of the size of a pipe with `n` bytes in it and one reader. -/
structure Ring (b : CyBuf) (n : Nat) : Prop where
  ok : RingOk b
  length : b.length = n
  size : b.bufSize = 65536
  readers : b.readerCount = 1

variable {b b' : CyBuf} {n k w : Nat} {bl it : Bool}

theorem Ring.same (h : Ring b n) (hsame : SameRing b b') (hr : b'.readerCount = b.readerCount) : Ring b' n :=
  ⟨hsame.ringOk h.ok, hsame.length.trans h.length, hsame.bufSize.trans h.size, hr.trans h.readers⟩

section

variable (tid) {s0 : State} {tr : List Event} {op : Op} (hr : Run (Step user) s0 tr s)
    (hst : s.stage tid = .inside op)

include hr hst

theorem Ring.copy (h : Ring s.sys.b n) (ht : s.sys.tasks tid = .putTop data bl it w) (hne : data ≠ [])
    (hk : k = min (65536 - n) (data.length - w)) :
    ∃ b', Ring b' (n + k) ∧ Run (Step user) s0 (tr ++ [.io (.copiedIn tid ((data.drop w).take k))])
      { s with sys := s.sys.set tid (.putNotify data bl it (w + k) (n = 0 ∧ k > 0)) b' } := by
  have hcount : putCount s.sys.b data w = k := by rw [putCount_eq h.ok, h.size, h.length, hk]
  have hcopy := Step.putCopy ht hne
  have hlen := putLocked_length h.ok data w
  rw [hcount, h.length] at hcopy hlen
  obtain ⟨hsize, -, -, hreaders, -⟩ := putLocked_rest s.sys.b data w
  exact ⟨_, ⟨(putLocked_spec h.ok data w).1, hlen, hsize.trans h.size, hreaders.trans h.readers⟩,
    hr.snoc (.io hst rfl hcopy)⟩

theorem Ring.hand (h : Ring s.sys.b (n + 1)) (ht : s.sys.tasks tid = .getTop 1 bl it) :
    ∃ b' bytes, Ring b' n ∧ Run (Step user) s0 (tr ++ [.io (.handedOut tid bytes)])
      { s with sys := s.sys.set tid (.getNotify 1 bl it 1 (n + 1 = 65536)) b' } := by
  have hcount : getCount s.sys.b 1 = 1 := if_neg (by rw [h.length]; omega)
  have hget := Step.getCopy ht Int.one_pos (by rw [h.length]; omega)
  have hlen := getLocked_length h.ok 1
  rw [Int.toNat_one, hcount, h.length, h.size] at hget
  rw [hcount, h.length] at hlen
  obtain ⟨hsize, -, -, hreaders, -⟩ := getLocked_rest s.sys.b 1
  exact ⟨_, _, ⟨(getLocked_spec h.ok 1).1, hlen, hsize.trans h.size, hreaders.trans h.readers⟩,
    hr.snoc (.io hst rfl hget)⟩

end

/-- A full pipe cuts writes of two bytes.  Task 0 leaves room for one byte; task 1 puts the first of its bytes in and
waits for room; task 3 reads one byte; the non-blocking write of task 2 takes the room and returns 1; task 4 reads a
byte, and task 1 puts its second byte behind the byte of task 2. -/
theorem pipe_write_torn : ∃ tr s, Run (Step fun _ => true) (.start pipeBuf) tr s ∧
      (Wrote tr 1 [1, 2] .wronly false 2 [(1, 1), (2, 3), (1, 2)] ∧
      ¬WriteOk 1 [1, 2] false 2 [(1, 1), (2, 3), (1, 2)]) ∧
      Wrote tr 2 [3, 4] .wronly true 1 [(2, 3)] ∧ ¬WriteOk 2 [3, 4] true 1 [(2, 3)] := by
  have h0 : Ring pipeBuf 0 :=
    ⟨(cybCreateWith_ok (rfl : cybCreate 16 true (fun _ => 0) = some pipeBuf)).1, rfl, rfl, rfl⟩
  have hrc : ∀ {b n}, Ring b n → b.readerCount ≠ 0 := fun h => by rw [h.readers]; decide
  obtain ⟨big, hbig⟩ : ∃ big : List UInt8, big.length = 65535 := ⟨List.replicate 65535 0, length_replicate⟩
  have hne : big ≠ [] := by
    rintro rfl
    cases hbig
  have htake : big.take (big.length % 2 ^ 32) = big := take_of_length_le (by omega)
  have r0 : Run (Step fun _ => true) (.start pipeBuf) _ _ :=
    (Run.nil.snoc (.call (t := 0) (.write big .wronly true) rfl)).snoc
      (.enter (t := 0) rfl (by simp [early, hne]) (fun _ _ _ _ => hrc h0) (.call _ rfl))
  simp only [bufCall, htake] at r0
  obtain ⟨b1, h1, r1⟩ := Ring.copy (k := 65535) 0 r0 rfl h0 rfl hne (by rw [hbig]; rfl)
  obtain ⟨b2, h2, r2⟩ := Ring.copy 1 ((r1.snoc (.call (t := 1) (.write [1, 2] .wronly false) rfl)).snoc
    (.enter (t := 1) rfl rfl (fun _ _ _ _ => hrc h1) (.call _ rfl))) rfl h1 rfl (by simp) rfl
  obtain ⟨b3, x3, h3, r3⟩ := Ring.hand 3 ((r2.snoc (.call (t := 3) (.read 1 .rdonly false) rfl)).snoc
    (.enter (t := 3) rfl rfl nofun (.call _ rfl))) rfl h2 rfl
  obtain ⟨b4, h4, r4⟩ := Ring.copy 2 ((r3.snoc (.call (t := 2) (.write [3, 4] .wronly true) rfl)).snoc
    (.enter (t := 2) rfl rfl (fun _ _ _ _ => hrc h3) (.call _ rfl))) rfl h3 rfl (by simp) rfl
  have r5 := (r4.snoc (.leave (t := 2) rfl (.putDone rfl (.inl rfl)))).snoc (.finish (t := 2) rfl)
  obtain ⟨b6, x6, h6, r6⟩ := Ring.hand 4 ((r5.snoc (.call (t := 4) (.read 1 .rdonly false) rfl)).snoc
    (.enter (t := 4) rfl rfl nofun (.call _ rfl))) rfl h4 rfl
  -- the second reader has found the pipe full and fires the event
  have h7 : Ring (notifyWrite b6 true) 65535 := h6.same (notifyWrite_same _ _) rfl
  have r7 := (((r6.snoc (.leave (t := 4) rfl (.getDone rfl))).snoc
    (.io (e := .internal 1) rfl rfl (.putMore rfl (by simp)))).snoc
      (.io (e := .internal 1) rfl rfl (.putBlock rfl (hrc h7)))).snoc
    (.io (e := .internal 1) rfl rfl (.putWoken rfl rfl))
  obtain ⟨b8, h8, r8⟩ := Ring.copy 1 r7 rfl (h7.same ⟨rfl, rfl, rfl, rfl, rfl⟩ rfl) rfl (by simp) rfl
  have r9 := (r8.snoc (.leave (t := 1) rfl (.putDone rfl (.inr rfl)))).snoc (.finish (t := 1) rfl)
  dsimp only [nil_append, cons_append] at r9
  refine ⟨_, _, r9, ⟨⟨[_, _, _], [_, _, _, _, _, _, _, _, _, _, _, _, _, _, _, _, _, _, _], [], rfl, ?_, rfl⟩, ?_⟩,
    ⟨[_, _, _, _, _, _, _, _, _], [_, _, _], _, rfl, by simp, rfl⟩, ?_⟩
  · intro op
    simp
  · -- the piece would have to start with the first byte and has another byte behind it
    rintro ⟨h, -⟩
    obtain ⟨pre, post, heq, hpre, -⟩ := h rfl
    cases pre with
    | nil => simp at heq
    | cons x pre =>
      simp only [cons_append, List.cons.injEq] at heq
      exact hpre x mem_cons_self (by rw [← heq.1])
  · rintro ⟨-, h⟩
    rcases h rfl with ⟨h, -⟩ | ⟨h, -⟩ <;> revert h <;> decide

end Mos.Pipe
