import Mos.Io.Calls
import Mos.Lib.Run
import Mos.Tmpfs.File

/-!
# Access modes

What the calls may do through a description.  For each call there is one lemma (`…_effect`) that says through which
descriptions it can change a file and from which it can hand out bytes, by the checks that the call itself makes.
`fs_pread` and `fs_pwrite` make none, and of the calls that write only `fs_ftruncate` and `fs_fallocate` look at
`O_PATH`.  Over a run without the calls that slip through (`Op.Checked`), content changes only through descriptions
opened for writing and is returned only through descriptions opened for reading.
-/

namespace Mos.Io

open Lib Function List

variable {σ ε : Type}

/-- Opened with a mode that allows writing, and without `O_PATH`. -/
def Description.Writable (d : Description σ ε) : Prop := d.mode ≠ oRdonly ∧ isPath d.flag = false

def Description.Readable (d : Description σ ε) : Prop := d.mode ≠ oWronly

/-- A state that a call leaves behind, if it changes files only through descriptions of `sink`. -/
structure Evolves (k : Kernel σ ε) (sink : Nat → Prop) (k' : Kernel σ ε) : Prop where
  fds : k'.fds = k.fds
  files : ∀ f, ∃ pos, k'.files f = { k.files f with pos := pos }
  content : ∀ i, (k'.inodes i).content ≠ (k.inodes i).content → ∃ f, sink f ∧ (k.files f).inode = i

/-- What a call does, if its bytes come through descriptions of `source` only. -/
structure Effect (k : Kernel σ ε) (source sink : Nat → Prop) (r : Outcome σ ε) : Prop where
  state : Evolves k sink r.2.2
  out : r.2.1 ≠ [] → ∃ f, source f

section

variable {k k1 k2 : Kernel σ ε} {source source' sink sink' : Nat → Prop} {r : Outcome σ ε} {f : Nat}

namespace Evolves

private theorem refl : Evolves k sink k := ⟨rfl, fun f => ⟨(k.files f).pos, rfl⟩, fun _ h => absurd rfl h⟩

section

variable (h : Evolves k sink k1)

include h

private theorem ioBegin (fd : Int) : k1.ioBegin fd = k.ioBegin fd := by
  unfold Kernel.ioBegin
  rw [h.fds]

private theorem mode (f : Nat) : (k1.files f).mode = (k.files f).mode := by
  obtain ⟨pos, hf⟩ := h.files f
  rw [hf]

private theorem flag (f : Nat) : (k1.files f).flag = (k.files f).flag := by
  obtain ⟨pos, hf⟩ := h.files f
  rw [hf]

private theorem inode (f : Nat) : (k1.files f).inode = (k.files f).inode := by
  obtain ⟨pos, hf⟩ := h.files f
  rw [hf]

private theorem writable (f : Nat) : (k1.files f).Writable ↔ (k.files f).Writable := by
  unfold Description.Writable
  rw [h.mode, h.flag]

private theorem readable (f : Nat) : (k1.files f).Readable ↔ (k.files f).Readable := by
  unfold Description.Readable
  rw [h.mode]

private theorem mono (himp : ∀ f, sink f → sink' f) : Evolves k sink' k1 := by
  refine ⟨h.fds, h.files, ?_⟩
  intro i hi
  obtain ⟨f, hf, hfi⟩ := h.content i hi
  exact ⟨f, himp f hf, hfi⟩

end

private theorem trans (h1 : Evolves k sink k1) (h2 : Evolves k1 sink k2) : Evolves k sink k2 := by
  constructor
  · rw [h2.fds, h1.fds]
  · intro f
    obtain ⟨_, hf1⟩ := h1.files f
    obtain ⟨pos, hf2⟩ := h2.files f
    exact ⟨pos, by rw [hf2, hf1]⟩
  · intro i hi
    by_cases hi1 : (k1.inodes i).content = (k.inodes i).content
    · obtain ⟨f, hf, hfi⟩ := h2.content i (hi1 ▸ hi)
      exact ⟨f, hf, by rw [← hfi, h1.inode]⟩
    · exact h1.content i hi1

section

variable (h : Evolves k sink k1)

include h

private theorem setPos (f : Nat) (pos : Int) : Evolves k sink (k1.setPos f pos) := by
  apply h.trans
  refine ⟨rfl, ?_, fun _ h => absurd rfl h⟩
  intro g
  by_cases hg : g = f
  · subst hg
    exact ⟨pos, update_self ..⟩
  · exact ⟨(k1.files g).pos, update_of_ne hg ..⟩

private theorem setContent (hf : sink f) (c : σ) : Evolves k sink (k1.setContent f c) := by
  apply h.trans
  refine ⟨rfl, fun g => ⟨(k1.files g).pos, rfl⟩, ?_⟩
  intro i hi
  by_cases hfi : i = (k1.files f).inode
  · exact ⟨f, hf, hfi.symm⟩
  · exact absurd (congrArg Inode.content (update_of_ne hfi ..)) hi

private theorem llseek (e : ε) (f : Nat) (pos : Int) : Evolves k sink (k1.llseek e f pos) := by
  unfold Kernel.llseek
  split
  · exact h
  · exact h.setPos f _

end

end Evolves

namespace Effect

private theorem refused (n : Int) : Effect k source sink (n, [], k) := ⟨.refl, fun h => absurd rfl h⟩

private theorem silent (h : Evolves k sink k1) (n : Int) : Effect k source sink (n, [], k1) :=
    ⟨h, fun h => absurd rfl h⟩

private theorem mono (h : Effect k source sink r) (hsource : ∀ f, source f → source' f)
    (hsink : ∀ f, sink f → sink' f) : Effect k source' sink' r := by
  refine ⟨h.state.mono hsink, ?_⟩
  intro hout
  obtain ⟨f, hf⟩ := h.out hout
  exact ⟨f, hsource f hf⟩

end Effect

end

/-! ### Each call -/

variable {offset : Option Nat} {len count low high length : Nat} {data : List UInt8} {lens : List Nat}
  {r : Outcome σ ε} {malloc : Bool}

section

variable {env : Nat → ε} {k : Kernel σ ε} {source sink : Nat → Prop} {fd : Int}

open Evolves

private theorem fsRead_effect :
    Effect k (fun f => k.ioBegin fd = some f ∧ (k.files f).Readable) sink (fsRead env k fd offset len) := by
  unfold fsRead
  split
  · exact .refused _
  rename_i f hf
  split
  · exact .refused _
  split_ifs with hmode
  · exact .refused _
  · exact ⟨refl.setPos f _, fun _ => ⟨f, hf, hmode⟩⟩

private theorem fsWrite_effect :
    Effect k source (fun f => k.ioBegin fd = some f ∧ (k.files f).mode ≠ oRdonly) (fsWrite env k fd offset data) := by
  unfold fsWrite
  split
  · exact .refused _
  rename_i f hf
  split
  · exact .refused _
  split
  · exact .refused _
  split
  · exact .refused _
  rename_i hmode
  dsimp only
  split
  · exact .silent (refl.setPos f _) _
  · exact .silent ((refl.setContent ⟨hf, hmode⟩ _).setPos f _) _

private theorem fsPread_effect {offset : Int} :
    Effect k (fun f => k.ioBegin fd = some f) sink (fsPread env k fd offset len) := by
  unfold fsPread
  split
  · exact .refused _
  rename_i f hf
  split
  · exact .refused _
  split_ifs
  · exact .refused _
  · exact ⟨refl.llseek _ f _, fun _ => ⟨f, hf⟩⟩

private theorem fsPwrite_effect {offset : Int} :
    Effect k source (fun f => k.ioBegin fd = some f) (fsPwrite env k fd offset data) := by
  unfold fsPwrite
  split
  · exact .refused _
  rename_i f hf
  split
  · exact .refused _
  split
  · exact .refused _
  split
  · exact .refused _
  split
  · exact .refused _
  · exact .silent ((refl.setContent hf _).llseek _ f _) _

private theorem sysPread64_effect : Effect k (fun f => k.ioBegin fd = some f) sink
    (sysPread64 env k fd count low high) := by
  unfold sysPread64
  split
  · exact .refused _
  · exact fsPread_effect

private theorem sysPwrite64_effect : Effect k source (fun f => k.ioBegin fd = some f)
    (sysPwrite64 env k fd data low high) := by
  unfold sysPwrite64
  split
  · exact .refused _
  · exact fsPwrite_effect

theorem fsReadvSpecial_effect (h : fsReadvSpecial env k fd lens = some r) :
    Effect k (fun f => k.ioBegin fd = some f ∧ (k.files f).Readable) sink r := by
  unfold fsReadvSpecial at h
  split at h
  · cases h
    exact .refused _
  rename_i f hf
  split at h
  · cases h
    exact .refused _
  split at h
  · cases h
    exact .refused _
  rename_i hmode
  split at h
  · cases h
  · cases h
    exact ⟨refl.setPos f _, fun _ => ⟨f, hf, hmode⟩⟩

theorem fsWritevSpecial_effect {data : List (List UInt8)} (h : fsWritevSpecial env k fd data = some r) :
    Effect k source (fun f => k.ioBegin fd = some f ∧ (k.files f).mode ≠ oRdonly) r := by
  unfold fsWritevSpecial at h
  split at h
  · cases h
    exact .refused _
  rename_i f hf
  split at h
  · cases h
    exact .refused _
  split at h
  · cases h
    exact .refused _
  split at h
  · cases h
    exact .refused _
  rename_i hmode
  split at h
  · cases h
  · cases h
    exact .silent ((refl.setContent ⟨hf, hmode⟩ _).setPos f _) _

theorem sysReadv_effect {count : Int} :
    Effect k (fun f => k.ioBegin fd = some f ∧ (k.files f).Readable) sink (sysReadv env k malloc fd count lens) := by
  have hread : Effect k (fun f => k.ioBegin fd = some f ∧ (k.files f).Readable) sink
      (fsRead env k fd none (lens.sum % 2 ^ 64 % 2 ^ 32)) := fsRead_effect
  unfold sysReadv
  split
  · exact .refused _
  dsimp only
  split
  · exact .refused _
  split
  · rename_i r hr
    exact fsReadvSpecial_effect hr
  split
  · exact .refused _
  split
  · exact .silent hread.state _
  refine ⟨hread.state, ?_⟩
  intro hout
  apply hread.out
  intro hnil
  exact hout (by rw [hnil, take_nil])

theorem sysWritev_effect {count : Int} {data : List (List UInt8)} :
    Effect k source (fun f => k.ioBegin fd = some f ∧ (k.files f).mode ≠ oRdonly)
      (sysWritev env k malloc fd count data) := by
  unfold sysWritev
  split
  · exact .refused _
  dsimp only
  split
  · exact .refused _
  split
  · rename_i r hr
    exact fsWritevSpecial_effect hr
  split
  · exact .refused _
  · exact fsWrite_effect

theorem sendLoop_evolves {input output : Nat} {read : ε → Nat → σ → Int → Nat → Int × List UInt8 × Int}
    {write : ε → Nat → σ → Int → List UInt8 → Int × σ × Int} (hsink : sink output) (fuel : Nat)
    {st : Sending σ ε} (h : Evolves k sink st.kernel) :
    Evolves k sink (sendLoop env input output read write count fuel st).kernel := by
  induction fuel generalizing st with
  | zero => exact h
  | succ fuel ih =>
    rw [sendLoop]
    dsimp only
    split_ifs
    · exact h
    · split
      · exact h
      have hnext := fun c p => (h.setContent hsink c).setPos output p
      split_ifs
      any_goals exact hnext ..
      exact ih (hnext ..)
    · exact h

theorem fsSendfile_effect {outFd inFd : Int} {offset : Option Int} :
    Effect k (fun f => k.ioBegin inFd = some f ∧ (k.files f).Readable)
      (fun f => k.ioBegin outFd = some f ∧ (k.files f).mode ≠ oRdonly)
      (fsSendfile env k malloc outFd inFd offset count) := by
  unfold fsSendfile
  split
  · exact .refused _
  · exact .refused _
  rename_i input output hin hout
  split
  · exact .refused _
  rename_i hmode
  obtain ⟨hreadable, hwritable⟩ := not_or.1 hmode
  split
  · exact .refused _
  · exact .refused _
  split
  · exact .refused _
  dsimp only
  split
  · exact .refused _
  split
  · exact .refused _
  split
  · exact .refused _
  refine ⟨?_, fun _ => ⟨input, hin, hreadable⟩⟩
  apply llseek
  split
  · exact sendLoop_evolves ⟨hout, hwritable⟩ _ .refl
  · apply setPos
    exact sendLoop_evolves ⟨hout, hwritable⟩ _ .refl

theorem fsFtruncate_effect :
    Effect k source (fun f => k.ioBegin fd = some f ∧ (k.files f).Writable) (fsFtruncate env k fd length) := by
  unfold fsFtruncate
  split
  · exact .refused _
  rename_i f hf
  split_ifs with hreadonly hpath hmode hlength
  any_goals exact .refused _
  split
  · exact .refused _
  · exact .silent ((refl.setContent ⟨hf, hmode, Bool.eq_false_iff.2 hpath⟩ _).setPos f _) _

theorem fsFallocate_effect {mode offset : Nat} : Effect k source (fun f => k.ioBegin fd = some f ∧
    (k.files f).Writable) (fsFallocate env k fd mode offset length) := by
  unfold fsFallocate
  split
  · exact .refused _
  rename_i f hf
  split_ifs with hmode
  any_goals exact .refused _
  obtain ⟨hmode, hpath⟩ := not_or.1 hmode
  split
  · exact .refused _
  · exact .silent (refl.setContent ⟨hf, hmode, Bool.eq_false_iff.2 hpath⟩ _) _

end

/-! ### Runs -/

namespace Op

/-- The descriptor that bytes are taken from. -/
def input : Op ε → Option Int
  | read _ fd _ _ | pread _ fd _ _ | pread64 _ fd _ _ _ | readv _ _ fd _ _ => some fd
  | sendfile _ _ _ inFd _ _ => some inFd
  | write .. | pwrite .. | pwrite64 .. | writev .. | ftruncate .. | fallocate .. => none

/-- The descriptor of the file that is changed. -/
def output : Op ε → Option Int
  | write _ fd _ _ | pwrite _ fd _ _ | pwrite64 _ fd _ _ _ | writev _ _ fd _ _ | ftruncate _ fd _
  | fallocate _ fd _ _ _ => some fd
  | sendfile _ _ outFd _ _ _ => some outFd
  | read .. | pread .. | pread64 .. | readv .. => none

/-- `fs_pread` is given a description that may be read, `fs_pwrite` one that may be written, and the other calls that
write but for `fs_ftruncate` and `fs_fallocate` one without `O_PATH`. -/
def Checked (k : Kernel σ ε) : Op ε → Prop
  | pread _ fd _ _ | pread64 _ fd _ _ _ => ∀ f, k.ioBegin fd = some f → (k.files f).Readable
  | pwrite _ fd _ _ | pwrite64 _ fd _ _ _ => ∀ f, k.ioBegin fd = some f → (k.files f).Writable
  | write _ fd _ _ | writev _ _ fd _ _ => ∀ f, k.ioBegin fd = some f → isPath (k.files f).flag = false
  | sendfile _ _ outFd _ _ _ => ∀ f, k.ioBegin outFd = some f → isPath (k.files f).flag = false
  | read .. | readv .. | ftruncate .. | fallocate .. => True

end Op

def Kernel.Refers (k : Kernel σ ε) (fd : Option Int) (f : Nat) : Prop := fd.bind k.ioBegin = some f

variable {k : Kernel σ ε} {op : Op ε}

theorem Evolves.refers {k' : Kernel σ ε} {sink : Nat → Prop} (h : Evolves k sink k') (fd : Option Int) (f : Nat) :
    k'.Refers fd f ↔ k.Refers fd f := by
  cases fd with
  | none => exact Iff.rfl
  | some fd =>
    unfold Kernel.Refers
    rw [Option.bind_some, Option.bind_some, h.ioBegin]

theorem exec_effect (h : op.Checked k) : Effect k (fun f => k.Refers op.input f ∧ (k.files f).Readable)
      (fun f => k.Refers op.output f ∧ (k.files f).Writable) (exec k op) := by
  cases op with
  | read => exact fsRead_effect
  | readv => exact sysReadv_effect
  | ftruncate => exact fsFtruncate_effect
  | fallocate => exact fsFallocate_effect
  | pread => exact fsPread_effect.mono (fun f hf => ⟨hf, h f hf⟩) fun _ hf => hf
  | pread64 => exact sysPread64_effect.mono (fun f hf => ⟨hf, h f hf⟩) fun _ hf => hf
  | pwrite => exact fsPwrite_effect.mono (fun _ hf => hf) fun f hf => ⟨hf, h f hf⟩
  | pwrite64 => exact sysPwrite64_effect.mono (fun _ hf => hf) fun f hf => ⟨hf, h f hf⟩
  | write => exact fsWrite_effect.mono (fun _ hf => hf) fun f hf => ⟨hf.1, hf.2, h f hf.1⟩
  | writev => exact sysWritev_effect.mono (fun _ hf => hf) fun f hf => ⟨hf.1, hf.2, h f hf.1⟩
  | sendfile => exact fsSendfile_effect.mono (fun _ hf => hf) fun f hf => ⟨hf.1, hf.2, h f hf.1⟩

/-- A call, and the bytes that leave a file through it. -/
def Step (k : Kernel σ ε) (e : Op ε × List UInt8) (k' : Kernel σ ε) : Prop := ∃ n, exec k e.1 = (n, e.2, k')

theorem step_of_out {out : List UInt8} (h : (exec k op).2.1 = out) : Step k (op, out) (exec k op).2.2 :=
  ⟨_, Prod.ext rfl (Prod.ext h rfl)⟩

/-- The descriptions of the calls of a run that may be written. -/
def Written (k : Kernel σ ε) (tr : List (Op ε × List UInt8)) (f : Nat) : Prop :=
  ∃ e ∈ tr, k.Refers e.1.output f ∧ (k.files f).Writable

/-- In a run of checked calls, bytes come only through descriptions opened for reading, and files change only through
descriptions opened for writing. -/
theorem io_follows_modes {k k' : Kernel σ ε} {tr : List (Op ε × List UInt8)}
    (h : Run (fun k e k' => e.1.Checked k ∧ Step k e k') k tr k') :
    (∀ e ∈ tr, e.2 ≠ [] → ∃ f, k.Refers e.1.input f ∧ (k.files f).Readable) ∧
      ∀ i, (k'.inodes i).content ≠ (k.inodes i).content →
        ∃ e ∈ tr, ∃ f, k.Refers e.1.output f ∧ (k.files f).inode = i ∧ (k.files f).Writable := by
  have hinv : Evolves k (Written k tr) k' ∧ ∀ e ∈ tr, e.2 ≠ [] → ∃ f, k.Refers e.1.input f ∧
    (k.files f).Readable := by
    induction h with
    | nil => exact ⟨.refl, fun e he => absurd he not_mem_nil⟩
    | @snoc tr k1 k2 e _ hstep ih =>
      obtain ⟨hstate, hout⟩ := ih
      obtain ⟨hchecked, n, hexec⟩ := hstep
      have heffect := exec_effect hchecked
      rw [hexec] at heffect
      constructor
      · apply Evolves.trans (hstate.mono ?_) (heffect.state.mono ?_)
        · intro f hf
          obtain ⟨e', he', hf⟩ := hf
          exact ⟨e', mem_append_left _ he', hf⟩
        · intro f hf
          exact ⟨e, mem_append_right _ mem_cons_self, (hstate.refers _ f).mp hf.1, (hstate.writable f).mp hf.2⟩
      · intro e' he'
        rcases mem_append.1 he' with he' | he'
        · exact hout e' he'
        cases mem_singleton.1 he'
        intro hne
        obtain ⟨f, hf, hreadable⟩ := heffect.out hne
        exact ⟨f, (hstate.refers _ f).mp hf, (hstate.readable f).mp hreadable⟩
  refine ⟨hinv.2, ?_⟩
  intro i hi
  obtain ⟨f, ⟨e, he, hf, hwritable⟩, hfi⟩ := hinv.1.content i hi
  exact ⟨e, he, f, hf, hfi, hwritable⟩

/-- What a hook of tmpfs finds: in a truncation, and in the rounds of a loop. -/
abbrev TmpfsEnv := Tmpfs.Env × (Nat → Tmpfs.Env)

/-- `tmpfs_file_read`; the position moves unless a page cannot be mapped. -/
def tmpfsRead (env : TmpfsEnv) (tn : Tmpfs.FileNode) (pos : Int) (len : Nat) : Int × List UInt8 × Int :=
  let r := Tmpfs.tmpfsFileRead 32 env.2 tn pos.toNat len
  let size := if toSigned 64 (addW 64 pos.toNat len) > tn.size then tn.size - pos.toNat % 2 ^ 32 else len
  (r.1, r.2, if r.2.length = size then pos + size else pos)

/-- `tmpfs_file_fops`; none of the hooks looks at how the file was opened. -/
def tmpfsFileFops : FileOps Tmpfs.FileNode TmpfsEnv where
  read := some fun env _ tn pos len => tmpfsRead env tn pos len
  write := some fun env _ tn pos data =>
    let r := Tmpfs.tmpfsFileWrite 32 env.2 tn pos.toNat data
    (r.1, r.2.1, r.2.2)
  llseek := some fun _ _ _ pos => max pos 0
  ftruncate := some fun env _ tn pos size =>
    let r := Tmpfs.tmpfsFileFtruncate env.1 tn size
    (r.1, r.2, pos)
  fallocate := some fun env _ tn mode offset length =>
    Tmpfs.tmpfsFileFallocate env.1 env.2 tn (mode % 2 = 1) offset length

/-- A file of one byte, opened for reading (0), for writing (1), and for both with `O_PATH` (2). -/
def threeOpens : Kernel Tmpfs.FileNode TmpfsEnv where
  fds n := if n < 3 then some n else none
  files f := ⟨some tmpfsFileFops, 0, f, if f = 2 then 2 ^ 21 + 2 else f, 0, false⟩
  inodes _ := ⟨.regular, ⟨1, [some fun _ => 7]⟩⟩
  limit := none

def calm : Nat → TmpfsEnv := fun _ => ({}, fun _ => {})

def firstByte (i : Inode Tmpfs.FileNode) : Option UInt8 := (i.content.pages[0]?).join.map fun p => p 0

theorem ne_of_firstByte {i j : Inode Tmpfs.FileNode} (h : firstByte i ≠ firstByte j) : i.content ≠ j.content := by
  intro hij
  apply h
  unfold firstByte
  rw [hij]

/-- The state after a byte is read through the first description and one is written through the second. -/
def readWritten : Kernel Tmpfs.FileNode TmpfsEnv :=
  (exec (exec threeOpens (.read calm 0 none 1)).2.2 (.write calm 1 none [9])).2.2

theorem threeOpens_run : Run (fun k e k' => e.1.Checked k ∧ Step k e k') threeOpens
      [(.read calm 0 none 1, [7]), (.write calm 1 none [9], [])] readWritten := by
  have hread : Step threeOpens (.read calm 0 none 1, [7]) (exec threeOpens (.read calm 0 none 1)).2.2 :=
    step_of_out (by decide +kernel)
  have hwrite : Step (exec threeOpens (.read calm 0 none 1)).2.2 (.write calm 1 none [9], []) readWritten :=
    step_of_out (by decide +kernel)
  refine (Run.single ⟨trivial, hread⟩).snoc ⟨?_, hwrite⟩
  intro f hf
  cases hf
  decide +kernel

theorem io_follows_modes_threeOpens : (∃ f, threeOpens.Refers (some 0) f ∧ (threeOpens.files f).Readable) ∧
      ∃ f, (threeOpens.files f).inode = 0 ∧ (threeOpens.files f).Writable := by
  obtain ⟨hread, hwritten⟩ := io_follows_modes threeOpens_run
  constructor
  · exact hread _ mem_cons_self (cons_ne_nil _ _)
  · obtain ⟨_, _, f, _, hf⟩ := hwritten 0 (ne_of_firstByte (by decide +kernel))
    exact ⟨f, hf⟩

/-- Bytes are read through a description opened for writing only, written through one opened for reading only, and
written through one opened with `O_PATH`. -/
theorem modes_not_followed : (exec threeOpens (.pread calm 1 0 1)).2.1 = [7] ∧ ¬(threeOpens.files 1).Readable ∧
      ((exec threeOpens (.pwrite calm 0 0 [9])).2.2.inodes 0).content ≠ (threeOpens.inodes 0).content ∧
      ¬(threeOpens.files 0).Writable ∧
      ((exec threeOpens (.write calm 2 none [9])).2.2.inodes 0).content ≠ (threeOpens.inodes 0).content ∧
      ¬(threeOpens.files 2).Writable := by
  refine ⟨by decide +kernel, fun h => h rfl, ne_of_firstByte (by decide +kernel), fun h => h.1 rfl,
    ne_of_firstByte (by decide +kernel), fun h => absurd h.2 (by decide)⟩

end Mos.Io
