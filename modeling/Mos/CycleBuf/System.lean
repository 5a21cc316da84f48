import Mos.CycleBuf.Buffer
import Mos.Lib.Run

/-!
# Tasks sharing a cycle buffer

Any number of tasks call into one buffer.  A step of the system is one critical section of `b->lock`, one access to an
atomic counter, or one operation on an event; between two steps of a call any steps of other calls may happen.  A
`cond_wait` is left by taking the fired event, or, if it is interruptible, by a signal.

A run is labelled by what happens to the byte stream (`copiedIn`, `handedOut`, `dropped`) and by the calls and their
return values.
-/

namespace Mos.CycleBuf

open Lib Function List

/-- The entry points.  `data.length` is the unsigned `len` of the two put functions. -/
inductive Call
  | putbuf (data : List UInt8) (blocking interruptible : Bool)
  | putRecord (data : List UInt8)
  | getbuf (len : Int) (blocking interruptible : Bool)
  | flush
  | writerOpen
  | readerOpen
  | writerClose
  | readerClose
  deriving DecidableEq

inductive Task
  | idle
  | putTop (data : List UInt8) (blocking interruptible : Bool) (written : Nat)
  | putNotify (data : List UInt8) (blocking interruptible : Bool) (written : Nat) (notify : Bool)
  | putCheck (data : List UInt8) (blocking interruptible : Bool) (written : Nat)
  | putWait (data : List UInt8) (blocking interruptible : Bool) (written : Nat)
  | recordTop (data : List UInt8)
  | recordNotify (data : List UInt8) (notify : Bool)
  | getTop (len : Int) (blocking interruptible : Bool)
  | getWait (len : Int) (blocking interruptible : Bool)
  | getSignalled (len : Int) (blocking interruptible : Bool)
  | getNotify (len : Int) (blocking interruptible : Bool) (n : Nat) (wasFull : Bool)
  | flushTop
  | flushNotify (wasFull : Bool)
  | openTop (writer : Bool)
  | closeTop (writer : Bool)
  | closeNotify (writer : Bool)

def Call.entry : Call → Task
  | .putbuf data blocking interruptible => .putTop data blocking interruptible 0
  | .putRecord data => .recordTop data
  | .getbuf len blocking interruptible => .getTop len blocking interruptible
  | .flush => .flushTop
  | .writerOpen => .openTop true
  | .readerOpen => .openTop false
  | .writerClose => .closeTop true
  | .readerClose => .closeTop false

inductive Event
  | call (tid : Nat) (c : Call)
  | copiedIn (tid : Nat) (chunk : List UInt8)
  | handedOut (tid : Nat) (bytes : List UInt8)
  | dropped (tid : Nat) (bytes : List UInt8)
  | ret (tid : Nat) (c : Call) (value : Int)
  | internal (tid : Nat)

structure Sys where
  b : CyBuf
  tasks : Nat → Task

def Sys.set (s : Sys) (tid : Nat) (t : Task) (b : CyBuf) : Sys := ⟨b, update s.tasks tid t⟩

/-- `cond_notify`: clear the lock word of the event. -/
def notifyRead (b : CyBuf) (fire : Bool) : CyBuf := if fire then { b with readEvent := 0 } else b

def notifyWrite (b : CyBuf) (fire : Bool) : CyBuf := if fire then { b with writeEvent := 0 } else b

def epipe : Int := -32

def eintr : Int := -4

/-- The result of a `cyb_putbuf` that stops early. -/
def putResult (written : Nat) (error : Int) : Int := if written > 0 then toSigned 32 written else error

/-- One step of task `tid`. -/
inductive Step (s : Sys) : Event → Sys → Prop
  | call {tid : Nat} (c : Call) : s.tasks tid = .idle → Step s (.call tid c) (s.set tid c.entry s.b)
  -- cyb_putbuf
  | putEmpty {tid bl it w} : s.tasks tid = .putTop [] bl it w →
      Step s (.ret tid (.putbuf [] bl it) 0) (s.set tid .idle s.b)
  | putCopy {tid data bl it w} : s.tasks tid = .putTop data bl it w → data ≠ [] →
      Step s (.copiedIn tid ((data.drop w).take (putCount s.b data w)))
        (s.set tid (.putNotify data bl it (w + putCount s.b data w)
          (s.b.length = 0 ∧ putCount s.b data w > 0)) (putLocked s.b data w))
  | putDone {tid data bl it w f} : s.tasks tid = .putNotify data bl it w f → (bl = false ∨ w = data.length) →
      Step s (.ret tid (.putbuf data bl it) (toSigned 32 w)) (s.set tid .idle (notifyRead s.b f))
  | putMore {tid data bl it w f} : s.tasks tid = .putNotify data bl it w f → ¬(bl = false ∨ w = data.length) →
      Step s (.internal tid) (s.set tid (.putCheck data bl it w) (notifyRead s.b f))
  | putBroken {tid data bl it w} : s.tasks tid = .putCheck data bl it w → s.b.readerCount = 0 →
      Step s (.ret tid (.putbuf data bl it) (putResult w epipe)) (s.set tid .idle s.b)
  | putBlock {tid data bl it w} : s.tasks tid = .putCheck data bl it w → s.b.readerCount ≠ 0 →
      Step s (.internal tid) (s.set tid (.putWait data bl it w) s.b)
  | putWoken {tid data bl it w} : s.tasks tid = .putWait data bl it w → s.b.writeEvent = 0 →
      Step s (.internal tid) (s.set tid (.putTop data bl it w) { s.b with writeEvent := 1 })
  | putInterrupted {tid data bl w} : s.tasks tid = .putWait data bl true w →
      Step s (.ret tid (.putbuf data bl true) (putResult w eintr)) (s.set tid .idle s.b)
  -- cyb_put_record
  | recordRefused {tid data} : s.tasks tid = .recordTop data →
      (data = [] ∨ data.length > subW 32 s.b.bufSize s.b.length) →
      Step s (.ret tid (.putRecord data) 0) (s.set tid .idle s.b)
  | recordCopy {tid data} : s.tasks tid = .recordTop data →
      ¬(data = [] ∨ data.length > subW 32 s.b.bufSize s.b.length) →
      Step s (.copiedIn tid data) (s.set tid (.recordNotify data (s.b.length = 0)) (recordLocked s.b data))
  | recordDone {tid data f} : s.tasks tid = .recordNotify data f →
      Step s (.ret tid (.putRecord data) (toSigned 32 data.length)) (s.set tid .idle (notifyRead s.b f))
  -- cyb_getbuf
  | getNothing {tid len bl it} : s.tasks tid = .getTop len bl it → len ≤ 0 →
      Step s (.ret tid (.getbuf len bl it) 0) (s.set tid .idle s.b)
  | getCopy {tid len bl it} : s.tasks tid = .getTop len bl it → 0 < len → s.b.length > 0 →
      Step s (.handedOut tid (getLocked s.b len.toNat).1)
        (s.set tid (.getNotify len bl it (getCount s.b len.toNat) (s.b.length = s.b.bufSize))
          (getLocked s.b len.toNat).2)
  | getDone {tid len bl it n f} : s.tasks tid = .getNotify len bl it n f →
      Step s (.ret tid (.getbuf len bl it) n) (s.set tid .idle (notifyWrite s.b f))
  | getEof {tid len bl it} : s.tasks tid = .getTop len bl it → 0 < len → s.b.length = 0 →
      s.b.writerCount = 0 → Step s (.ret tid (.getbuf len bl it) 0) (s.set tid .idle s.b)
  | getAgain {tid len it} : s.tasks tid = .getTop len false it → 0 < len → s.b.length = 0 →
      s.b.writerCount ≠ 0 → Step s (.ret tid (.getbuf len false it) 0) (s.set tid .idle s.b)
  | getBlock {tid len it} : s.tasks tid = .getTop len true it → 0 < len → s.b.length = 0 →
      s.b.writerCount ≠ 0 → Step s (.internal tid) (s.set tid (.getWait len true it) s.b)
  | getWoken {tid len bl it} : s.tasks tid = .getWait len bl it → s.b.readEvent = 0 →
      Step s (.internal tid) (s.set tid (.getTop len bl it) { s.b with readEvent := 1 })
  | getInterrupted {tid len bl} : s.tasks tid = .getWait len bl true →
      Step s (.internal tid) (s.set tid (.getSignalled len bl true) s.b)
  | getSignalEof {tid len bl it} : s.tasks tid = .getSignalled len bl it → s.b.writerCount = 0 →
      Step s (.internal tid) (s.set tid (.getTop len bl it) s.b)
  | getSignalRet {tid len bl it} : s.tasks tid = .getSignalled len bl it → s.b.writerCount ≠ 0 →
      Step s (.ret tid (.getbuf len bl it) (-1)) (s.set tid .idle s.b)
  -- cyb_flush
  | flush {tid} : s.tasks tid = .flushTop →
      Step s (.dropped tid (stored s.b)) (s.set tid (.flushNotify (s.b.length = s.b.bufSize)) (flushLocked s.b))
  | flushDone {tid f} : s.tasks tid = .flushNotify f →
      Step s (.ret tid .flush 0) (s.set tid .idle (notifyWrite s.b f))
  -- opening and closing the two ends
  | openWriter {tid} : s.tasks tid = .openTop true →
      Step s (.ret tid .writerOpen 0) (s.set tid .idle { s.b with writerCount := s.b.writerCount + 1 })
  | openReader {tid} : s.tasks tid = .openTop false →
      Step s (.ret tid .readerOpen 0) (s.set tid .idle { s.b with readerCount := s.b.readerCount + 1 })
  | closeWriter {tid} : s.tasks tid = .closeTop true →
      Step s (.internal tid) (s.set tid (.closeNotify true) { s.b with writerCount := s.b.writerCount - 1 })
  | closeReader {tid} : s.tasks tid = .closeTop false →
      Step s (.internal tid) (s.set tid (.closeNotify false) { s.b with readerCount := s.b.readerCount - 1 })
  | closedWriter {tid} : s.tasks tid = .closeNotify true →
      Step s (.ret tid .writerClose 0) (s.set tid .idle (notifyRead s.b true))
  | closedReader {tid} : s.tasks tid = .closeNotify false →
      Step s (.ret tid .readerClose 0) (s.set tid .idle (notifyWrite s.b true))

def Sys.start (b : CyBuf) : Sys := ⟨b, fun _ => .idle⟩

/-! ### The byte stream -/

def Event.input : Event → List UInt8
  | .copiedIn _ chunk => chunk
  | _ => []

/-- The bytes an event takes out of the stream: handed to a reader or dropped. -/
def Event.output : Event → List UInt8
  | .handedOut _ bytes => bytes
  | .dropped _ bytes => bytes
  | _ => []

def inputs (tr : List Event) : List UInt8 := (tr.map Event.input).flatten

def outputs (tr : List Event) : List UInt8 := (tr.map Event.output).flatten

private theorem notifyRead_same (b : CyBuf) (f : Bool) : SameRing b (notifyRead b f) := by
  unfold notifyRead
  split <;> constructor <;> rfl

theorem notifyWrite_same (b : CyBuf) (f : Bool) : SameRing b (notifyWrite b f) := by
  unfold notifyWrite
  split <;> constructor <;> rfl

variable {s s' : Sys} {e : Event} {b : CyBuf} {tr : List Event}

open Event

/-- What one step can do to the ring: nothing, append one chunk, or remove a front part. -/
theorem Step.stream (h : Step s e s') (hb : RingOk s.b) :
    RingOk s'.b ∧ e.output ++ stored s'.b = stored s.b ++ e.input := by
  have same : SameRing s.b s'.b → e.input = [] → e.output = [] →
      RingOk s'.b ∧ e.output ++ stored s'.b = stored s.b ++ e.input := by
    intro hsame hi ho
    exact ⟨hsame.ringOk hb, by rw [hi, ho, hsame.stored_eq]; simp⟩
  cases h with
  | putCopy _ _ =>
    obtain ⟨h1, h2⟩ := putLocked_spec hb _ _
    exact ⟨h1, h2⟩
  | recordCopy _ hn =>
    obtain ⟨h1, h2⟩ := recordLocked_spec hb (fun h => hn (.inr h))
    exact ⟨h1, h2⟩
  | getCopy _ _ _ =>
    obtain ⟨h1, h2⟩ := getLocked_spec hb _
    exact ⟨h1, by simpa [input, output, Sys.set] using h2⟩
  | flush _ =>
    obtain ⟨h1, h2⟩ := flushLocked_spec hb
    exact ⟨h1, by simp [input, output, Sys.set, h2]⟩
  | putDone | putMore | recordDone => exact same (notifyRead_same _ _) rfl rfl
  | getDone | flushDone => exact same (notifyWrite_same _ _) rfl rfl
  | closedWriter => exact same (notifyRead_same s.b true) rfl rfl
  | closedReader => exact same (notifyWrite_same s.b true) rfl rfl
  | _ => exact same ⟨rfl, rfl, rfl, rfl, rfl⟩ rfl rfl

/-- Along every run the bytes taken out followed by the bytes stored are the bytes put in. -/
theorem run_stream (hb : RingOk b) (he : stored b = [])
    (h : Run Step (.start b) tr s) : RingOk s.b ∧ outputs tr ++ stored s.b = inputs tr := by
  obtain ⟨hr, hs⟩ := h.conserved (fun s => stored s.b) input output (fun s => RingOk s.b) hb
    fun _ _ _ hr hs => ⟨(hs.stream hr).1, (hs.stream hr).2.symm⟩
  exact ⟨hr, hs.symm.trans (by rw [Sys.start, he]; rfl)⟩

/-! ### The chunks of one call -/

/-- The chunks task `tid` has copied in since it last entered a call. -/
def ownChunks (tid : Nat) : List Event → List (List UInt8) :=
  List.foldl (fun acc e => match e with
    | .call t _ => if t = tid then [] else acc
    | .copiedIn t chunk => if t = tid then acc ++ [chunk] else acc
    | _ => acc) []

private theorem ownChunks_call (tid : Nat) (tr : List Event) (c : Call) :
    ownChunks tid (tr ++ [.call tid c]) = [] := by
  simp [ownChunks]

private theorem ownChunks_copiedIn (tid : Nat) (tr : List Event) (chunk : List UInt8) :
    ownChunks tid (tr ++ [.copiedIn tid chunk]) = ownChunks tid tr ++ [chunk] := by
  simp [ownChunks]

def Event.tid : Event → Nat
  | .call t _ | .copiedIn t _ | .handedOut t _ | .dropped t _ | .ret t _ _ | .internal t => t

variable {tid : Nat}

private theorem ownChunks_other (h : e.tid ≠ tid) (tr : List Event) :
    ownChunks tid (tr ++ [e]) = ownChunks tid tr := by
  cases e <;> simp_all [ownChunks, Event.tid]

/-- What the chunks copied in so far say about a task inside `cyb_put_record` or `cyb_putbuf`. -/
def ChunksOk (chunks : List (List UInt8)) : Task → Prop
  | .recordTop _ => chunks = []
  | .recordNotify data _ => chunks = [data]
  | .putTop data _ _ w | .putNotify data _ _ w _ | .putCheck data _ _ w | .putWait data _ _ w =>
    w ≤ data.length ∧ chunks.flatten = data.take w
  | _ => True

theorem Step.tid_task (h : Step s e s') (ht : tid ≠ e.tid) : s'.tasks tid = s.tasks tid := by
  cases h <;> exact update_of_ne ht _ _

variable {data : List UInt8}

private theorem putCount_le (b : CyBuf) (data : List UInt8) (w : Nat) : putCount b data w ≤ data.length - w := by
  unfold putCount
  simp only
  split <;> omega

theorem Step.chunksOk (h : Step s e s') (hok : ChunksOk (ownChunks e.tid tr) (s.tasks e.tid)) :
    ChunksOk (ownChunks e.tid (tr ++ [e])) (s'.tasks e.tid) := by
  cases h with
  | @call tid c _ =>
    simp only [Event.tid, Sys.set, update_self, ownChunks_call]
    cases c <;> simp [Call.entry, ChunksOk]
  | @putCopy tid data bl it w ht _ =>
    simp only [Event.tid, Sys.set, update_self, ownChunks_copiedIn, ht, ChunksOk] at hok ⊢
    have hle := putCount_le s.b data w
    refine ⟨by omega, ?_⟩
    rw [flatten_append, hok.2]
    simp [take_add]
  | @recordCopy tid data ht _ =>
    simp only [Event.tid, Sys.set, update_self, ownChunks_copiedIn, ht, ChunksOk] at hok ⊢
    rw [hok, nil_append]
  | putMore ht _ | putBlock ht _ | putWoken ht _ =>
    simpa [Event.tid, Sys.set, ht, ChunksOk, ownChunks] using hok
  | _ => simp [Event.tid, Sys.set, ChunksOk]

private theorem run_chunksOk (h : Run Step (.start b) tr s) (tid : Nat) : ChunksOk (ownChunks tid tr)
    (s.tasks tid) := by
  refine h.invariant (fun tr (s : Sys) => ChunksOk (ownChunks tid tr) (s.tasks tid)) trivial ?_
  intro tr t e u _ hok hstep
  by_cases ht : e.tid = tid
  · subst ht
    exact hstep.chunksOk hok
  · rw [ownChunks_other ht, hstep.tid_task (Ne.symm ht)]
    exact hok

/-- A returning `cyb_put_record` has copied its bytes in as one chunk, or none of them. -/
theorem Step.record_ret {r : Int} {chunks : List (List UInt8)}
    (h : Step s (.ret tid (.putRecord data) r) s') (hok : ChunksOk chunks (s.tasks tid)) :
    (r = toSigned 32 data.length ∧ chunks = [data]) ∨ (r = 0 ∧ chunks = []) := by
  cases h with
  | recordRefused ht _ => rw [ht] at hok; exact .inr ⟨rfl, hok⟩
  | recordDone ht => rw [ht] at hok; exact .inl ⟨rfl, hok⟩

/-- The bytes a `cyb_getbuf` hands over are at least one. -/
def GetOk : Task → Prop
  | .getNotify _ _ _ n _ => 0 < n
  | _ => True

theorem run_getOk (h : Run Step (.start b) tr s) : ∀ tid, GetOk (s.tasks tid) := by
  refine h.invariant_state (fun (s : Sys) => ∀ tid, GetOk (s.tasks tid)) (fun _ => trivial) ?_
  intro t e u hok hstep tid
  by_cases ht : tid = e.tid
  · subst ht
    cases hstep with
    | @getCopy tid len bl it _ hlen hpos =>
      simp only [Event.tid, Sys.set, update_self, GetOk, getCount]
      split <;> omega
    | @call tid c _ =>
      simp only [Event.tid, Sys.set, update_self]
      cases c <;> trivial
    | _ => simp [Event.tid, Sys.set, GetOk]
  · rw [hstep.tid_task ht]
    exact hok tid

/-- A blocking `cyb_getbuf` that returns 0 for a positive length saw an empty buffer without writers. -/
theorem Step.get_zero {len : Int} {it : Bool}
    (h : Step s (.ret tid (.getbuf len true it) 0) s') (hlen : 0 < len) (hok : GetOk (s.tasks tid)) :
    s.b.writerCount = 0 ∧ stored s.b = [] := by
  generalize hr : (0 : Int) = r at h
  cases h with
  | getNothing _ hle => omega
  | @getDone _ _ _ _ n _ ht =>
    rw [ht] at hok
    simp only [GetOk] at hok
    omega
  | getEof _ _ h0 hw => exact ⟨hw, by simp [stored, h0]⟩
  | getSignalRet _ _ => omega

/-- Every run of any number of tasks on a created buffer keeps the indices consistent and the bytes in order, accepts
records whole or not at all, and ends a blocking read with 0 only at the end of the stream. -/
theorem cyb_runs (pages : Int) (named vmHasMemory : Bool) (garbage : Nat → UInt8) (b : CyBuf)
    (hb : (if named then cybCreateNamed else cybCreate) pages vmHasMemory garbage = some b)
    (tr : List Event) (s : Sys) (h : Run Step (.start b) tr s) :
    (s.b.length ≤ s.b.bufSize ∧ s.b.readIdx < s.b.bufSize ∧ s.b.writeIdx < s.b.bufSize ∧
      s.b.writeIdx = (s.b.readIdx + s.b.length) % s.b.bufSize) ∧ outputs tr ++ stored s.b = inputs tr ∧
    (∀ tr₁ tr₂ tid data r, tr = tr₁ ++ .ret tid (.putRecord data) r :: tr₂ →
      (r = toSigned 32 data.length ∧ ownChunks tid tr₁ = [data]) ∨ (r = 0 ∧ ownChunks tid tr₁ = [])) ∧
    (∀ tr₁ tr₂ tid len it, tr = tr₁ ++ .ret tid (.getbuf len true it) 0 :: tr₂ → 0 < len →
      ∃ t t', Run Step (.start b) tr₁ t ∧ Step t (.ret tid (.getbuf len true it) 0) t' ∧
        t.b.writerCount = 0 ∧ stored t.b = []) := by
  have hb' : RingOk b ∧ stored b = [] := by cases named <;> exact cybCreateWith_ok hb
  obtain ⟨hr, hs⟩ := run_stream hb'.1 hb'.2 h
  refine ⟨⟨hr.length_le, hr.read_lt, hr.write_lt, hr.write_eq⟩, hs, ?_, ?_⟩
  · rintro tr₁ tr₂ tid data r rfl
    obtain ⟨t, t', h1, h2, _⟩ := h.split
    exact h2.record_ret (run_chunksOk h1 tid)
  · rintro tr₁ tr₂ tid len it rfl hlen
    obtain ⟨t, t', h1, h2, _⟩ := h.split
    exact ⟨t, t', h1, h2, h2.get_zero hlen (run_getOk h1 tid)⟩

/-- Two writers and a reader at once; the reader gets the byte of the writer that came second. -/
theorem cyb_runs_record : ∃ tr s, Run Step (.start ((cybCreate 1 true fun _ => 0).get rfl)) tr s ∧
    inputs tr = [8, 7] ∧ outputs tr = [8] ∧ outputs tr ++ stored s.b = inputs tr := by
  have r1 : Run Step (.start ((cybCreate 1 true fun _ => 0).get rfl)) _ _ :=
    ((Run.nil.snoc (e := .call 0 (.putRecord [7])) (.call _ rfl)).snoc (e :=
      .call 1 (.putRecord [8])) (.call _ rfl)).snoc (e := .call 2 (.getbuf 1 true true)) (.call _ rfl)
  have r2 := ((r1.snoc (e := .copiedIn 1 _) (.recordCopy rfl (by decide))).snoc (e := .handedOut 2 _)
    (.getCopy rfl (by decide) (by decide))).snoc (e := .copiedIn 0 _) (.recordCopy rfl (by decide))
  exact ⟨_, _, r2, by decide, by decide, (cyb_runs 1 false true _ _ rfl _ _ r2).2.1⟩

end Mos.CycleBuf
