import Mos.Lib.Word

/-!
# Reading and writing through descriptors

`fs_read`, `fs_write`, `fs_pread`, `fs_pwrite`, `fs_sendfile`, `fs_readv_special`, `fs_writev_special`, `fs_ftruncate`
and `fs_fallocate` of `src/fs/impl/fs.c`, and `sys_readv`, `sys_writev`, `sys_pread64` and `sys_pwrite64` of
`src/syscall/impl/syscall_io.c`.  A descriptor refers to an open file description, and a description to a file.  What
a filesystem does is in its `file_operations`, which are parameters: they see the content of the file and the status
flags of the description.  A read leaves the content alone.  What else a filesystem finds (`ε`) is an argument of each
call.

A call returns a number and the bytes that leave a file through it; for `sendfile` these are the bytes that are handed
to the output.  Notifications are left out.
-/

namespace Mos.Io

open Lib

def eio : Int := -5

def ebadf : Int := -9

def enomem : Int := -12

def eisdir : Int := -21

def einval : Int := -22

def efbig : Int := -27

def erofs : Int := -30

def eopnotsupp : Int := -95

def oRdonly : Nat := 0

def oWronly : Nat := 1

/-- `flag & O_APPEND`. -/
def isAppend (flag : Nat) : Bool := flag.testBit 10

/-- `flag & O_PATH`. -/
def isPath (flag : Nat) : Bool := flag.testBit 21

def maxFd : Nat := 1024

def int64Max : Nat := 2 ^ 63 - 1

/-- The hooks of a filesystem; each gets the status flags of the description, the content and the position. -/
structure FileOps (σ ε : Type) where
  /-- What is returned, the bytes in the buffer, and the position. -/
  read : Option (ε → Nat → σ → Int → Nat → Int × List UInt8 × Int) := none
  write : Option (ε → Nat → σ → Int → List UInt8 → Int × σ × Int) := none
  readv : Option (ε → Nat → σ → Int → List Nat → Int × List UInt8 × Int) := none
  writev : Option (ε → Nat → σ → Int → List (List UInt8) → Int × σ × Int) := none
  /-- The position after it was set. -/
  llseek : Option (ε → Nat → σ → Int → Int) := none
  ftruncate : Option (ε → Nat → σ → Int → Int → Int × σ × Int) := none
  fallocate : Option (ε → Nat → σ → Nat → Nat → Nat → Int × σ) := none

/-- An open file description; `readonly` tells if its mount is (`fs_file_readonly`). -/
structure Description (σ ε : Type) where
  fop : Option (FileOps σ ε)
  inode : Nat
  mode : Nat
  flag : Nat
  pos : Int
  readonly : Bool

inductive Kind
  | regular
  | directory
  | other
  deriving DecidableEq

structure Inode (σ : Type) where
  kind : Kind
  content : σ

/-- The descriptors of the task, the descriptions, the files, and the limit for file sizes if there is one. -/
structure Kernel (σ ε : Type) where
  fds : Nat → Option Nat
  files : Nat → Description σ ε
  inodes : Nat → Inode σ
  limit : Option Nat

section

variable {σ ε : Type}

namespace Kernel

/-- `fs_io_begin`. -/
def ioBegin (k : Kernel σ ε) (fd : Int) : Option Nat := if fd < 0 ∨ fd ≥ maxFd then none else k.fds fd.toNat

def setPos (k : Kernel σ ε) (f : Nat) (pos : Int) : Kernel σ ε :=
  { k with files := Function.update k.files f { k.files f with pos := pos } }

def inode (k : Kernel σ ε) (f : Nat) : Inode σ := k.inodes (k.files f).inode

def content (k : Kernel σ ε) (f : Nat) : σ := (k.inode f).content

def setContent (k : Kernel σ ε) (f : Nat) (c : σ) : Kernel σ ε :=
  { k with inodes := Function.update k.inodes (k.files f).inode { k.inode f with content := c } }

/-- Call `llseek` with a position, where there is such a hook. -/
def llseek (k : Kernel σ ε) (e : ε) (f : Nat) (pos : Int) : Kernel σ ε :=
  match (k.files f).fop.bind FileOps.llseek with
  | none => k
  | some hook => k.setPos f (hook e (k.files f).flag (k.content f) pos)

end Kernel

/-- What a call returns, and the bytes that leave a file. -/
abbrev Outcome (σ ε : Type) := Int × List UInt8 × Kernel σ ε

/-- `(int)n`. -/
def asInt (n : Int) : Int := n.bmod (2 ^ 32)

/-- The bytes that may be written at a position below the limit of a regular file; `none` if none may. -/
def clip (k : Kernel σ ε) (f : Nat) (pos : Int) (size : Nat) : Option Nat :=
  if (k.inode f).kind ≠ .regular then some size
  else
    match k.limit with
    | none => some size
    | some limit =>
      let at64 := (pos % 2 ^ 64).toNat
      if at64 ≥ limit then none
      else
        let size := if addW 64 at64 size > limit then limit - at64 else size
        if size = 0 then none else some size

variable (env : Nat → ε) (k : Kernel σ ε)

def fsRead (fd : Int) (offset : Option Nat) (len : Nat) : Outcome σ ε :=
  match k.ioBegin fd with
  | none => (ebadf, [], k)
  | some f =>
    match (k.files f).fop.bind FileOps.read with
    | none => (ebadf, [], k)
    | some read =>
      if (k.files f).mode = oWronly then (ebadf, [], k)
      else
        let r := read (env 0) (k.files f).flag (k.content f) ((offset.map Int.ofNat).getD (k.files f).pos) len
        (asInt r.1, r.2.1, k.setPos f r.2.2)

def fsWrite (fd : Int) (offset : Option Nat) (data : List UInt8) : Outcome σ ε :=
  match k.ioBegin fd with
  | none => (ebadf, [], k)
  | some f =>
    if (k.inode f).kind = .regular ∧ (k.files f).readonly then (erofs, [], k)
    else
      match (k.files f).fop.bind FileOps.write with
      | none => (ebadf, [], k)
      | some write =>
        if (k.files f).mode = oRdonly then (ebadf, [], k)
        else
          let pos := (offset.map Int.ofNat).getD (k.files f).pos
          match clip k f pos data.length with
          | none => (efbig, [], k.setPos f pos)
          | some size =>
            let r := write (env 0) (k.files f).flag (k.content f) pos (data.take size)
            (asInt r.1, [], (k.setContent f r.2.1).setPos f r.2.2)

/-- The access mode is not looked at. -/
def fsPread (fd : Int) (offset : Int) (len : Nat) : Outcome σ ε :=
  match k.ioBegin fd with
  | none => (ebadf, [], k)
  | some f =>
    match (k.files f).fop.bind FileOps.read with
    | none => (ebadf, [], k)
    | some read =>
      if offset < 0 then (einval, [], k)
      else
        let r := read (env 0) (k.files f).flag (k.content f) offset len
        (asInt r.1, r.2.1, k.llseek (env 1) f (k.files f).pos)

def fsPwrite (fd : Int) (offset : Int) (data : List UInt8) : Outcome σ ε :=
  match k.ioBegin fd with
  | none => (ebadf, [], k)
  | some f =>
    if (k.inode f).kind = .regular ∧ (k.files f).readonly then (erofs, [], k)
    else
      match (k.files f).fop.bind FileOps.write with
      | none => (ebadf, [], k)
      | some write =>
        if offset < 0 then (einval, [], k)
        else
          match clip k f offset data.length with
          | none => (efbig, [], k)
          | some size =>
            let r := write (env 0) (k.files f).flag (k.content f) offset (data.take size)
            (asInt r.1, [], (k.setContent f r.2.1).llseek (env 1) f (k.files f).pos)

/-! ### `sendfile` -/

/-- Where the loop of `fs_sendfile` is. -/
structure Sending (σ ε : Type) where
  kernel : Kernel σ ε
  copied : Nat := 0
  position : Int
  result : Int
  sent : List UInt8 := []

/-- The bytes of a chunk that may be written; `none` if the limit is reached. -/
def sendLimit (k : Kernel σ ε) (output : Nat) (n : Nat) : Option Nat :=
  if (k.inode output).kind ≠ .regular then some n
  else
    match k.limit with
    | none => some n
    | some limit =>
      let at64 := ((k.files output).pos % 2 ^ 64).toNat
      if at64 ≥ limit then none else some (min n (limit - at64))

/-- The loop of `fs_sendfile`; every round but the last one copies something. -/
def sendLoop (input output : Nat) (read : ε → Nat → σ → Int → Nat → Int × List UInt8 × Int)
    (write : ε → Nat → σ → Int → List UInt8 → Int × σ × Int) (count : Nat) : Nat → Sending σ ε → Sending σ ε
  | 0, st => st
  | fuel + 1, st =>
    if st.copied < count then
      let k := st.kernel
      let chunk := min (count - st.copied) 16384
      let r := read (env (2 * st.copied)) (k.files input).flag (k.content input) st.position chunk
      if r.1 ≤ 0 then { st with result := r.1 }
      else
        match sendLimit k output r.1.toNat with
        | none => { st with result := efbig }
        | some n =>
          let data := r.2.1.take n
          let w := write (env (2 * st.copied + 1)) (k.files output).flag (k.content output) (k.files output).pos data
          let k := (k.setContent output w.2.1).setPos output w.2.2
          if w.1 ≤ 0 then
            { st with kernel := k, sent := st.sent ++ data, result := if w.1 < 0 then w.1 else eio }
          else
            let st := { st with kernel := k, sent := st.sent ++ data, position := st.position + w.1,
                                copied := st.copied + w.1.toNat }
            if w.1 < n then st else sendLoop input output read write count fuel st
    else st

def fsSendfile (malloc : Bool) (outFd inFd : Int) (offset : Option Int) (count : Nat) : Outcome σ ε :=
  match k.ioBegin inFd, k.ioBegin outFd with
  | none, _ => (ebadf, [], k)
  | some _, none => (ebadf, [], k)
  | some input, some output =>
    if (k.files input).mode = oWronly ∨ (k.files output).mode = oRdonly then (ebadf, [], k)
    else
      match (k.files input).fop.bind FileOps.read, (k.files output).fop.bind FileOps.write with
      | none, _ => (ebadf, [], k)
      | some _, none => (ebadf, [], k)
      | some read, some write =>
        if (k.inode input).kind ≠ .regular ∨ input = output ∨ isAppend (k.files output).flag then (einval, [], k)
        else
          let position := offset.getD (k.files input).pos
          if position < 0 then (einval, [], k)
          else if count = 0 then (0, [], k)
          else if !malloc then (enomem, [], k)
          else
            let count := min count 0x7ffff000
            let st := sendLoop env input output read write count count ⟨k, 0, position, enomem, []⟩
            let k := if offset.isSome then st.kernel else st.kernel.setPos input st.position
            let k := k.llseek (env (2 * count + 2)) input (k.files input).pos
            (if st.copied ≠ 0 then st.copied else st.result, st.sent, k)

/-- `fs_readv_special`; `none` if there is no `readv` hook. -/
def fsReadvSpecial (fd : Int) (lens : List Nat) : Option (Outcome σ ε) :=
  match k.ioBegin fd with
  | none => some (ebadf, [], k)
  | some f =>
    match (k.files f).fop with
    | none => some (ebadf, [], k)
    | some fop =>
      if (k.files f).mode = oWronly then some (ebadf, [], k)
      else
        match fop.readv with
        | none => none
        | some readv =>
          let r := readv (env 0) (k.files f).flag (k.content f) (k.files f).pos lens
          some (asInt r.1, r.2.1, k.setPos f r.2.2)

def fsWritevSpecial (fd : Int) (data : List (List UInt8)) : Option (Outcome σ ε) :=
  match k.ioBegin fd with
  | none => some (ebadf, [], k)
  | some f =>
    if (k.inode f).kind = .regular ∧ (k.files f).readonly then some (erofs, [], k)
    else
      match (k.files f).fop with
      | none => some (ebadf, [], k)
      | some fop =>
        if (k.files f).mode = oRdonly then some (ebadf, [], k)
        else
          match fop.writev with
          | none => none
          | some writev =>
            let r := writev (env 0) (k.files f).flag (k.content f) (k.files f).pos data
            some (asInt r.1, [], (k.setContent f r.2.1).setPos f r.2.2)

/-- The checks that `sys_readv` and `sys_writev` make first; `hook` tells if there is a hook for the call. -/
def vectorCheck (fd : Int) (count : Int) (hook : FileOps σ ε → Bool) : Option Int :=
  if fd < 0 ∨ fd ≥ maxFd then some ebadf
  else if count < 0 then some einval
  else
    match k.fds fd.toNat with
    | none => some ebadf
    | some f =>
      if !(k.files f).fop.any hook then some ebadf
      else if (k.inode f).kind = .directory then some eisdir
      else none

def sysReadv (malloc : Bool) (fd count : Int) (lens : List Nat) : Outcome σ ε :=
  match vectorCheck k fd count fun fop => fop.read.isSome with
  | some e => (e, [], k)
  | none =>
    let total := lens.sum % 2 ^ 64
    if total = 0 then (0, [], k)
    else
      match fsReadvSpecial env k fd lens with
      | some r => r
      | none =>
        if !malloc then (enomem, [], k)
        else
          let r := fsRead env k fd none (total % 2 ^ 32)
          -- what was read goes to the vectors
          if r.1 ≤ 0 then (r.1, [], r.2.2) else (r.1, r.2.1.take r.1.toNat, r.2.2)

def sysWritev (malloc : Bool) (fd count : Int) (data : List (List UInt8)) : Outcome σ ε :=
  match vectorCheck k fd count fun fop => fop.write.isSome with
  | some e => (e, [], k)
  | none =>
    let total := data.flatten.length % 2 ^ 64
    if total = 0 then (0, [], k)
    else
      match fsWritevSpecial env k fd data with
      | some r => r
      | none =>
        if !malloc then (enomem, [], k)
        else fsWrite env k fd none (data.flatten.take (total % 2 ^ 32))

/-- The checks of `sys_pread64` and `sys_pwrite64`. -/
def positionCheck (fd : Int) : Option Int :=
  if fd < 0 ∨ fd ≥ maxFd then some ebadf
  else
    match k.fds fd.toNat with
    | none => some ebadf
    | some f => if (k.inode f).kind = .directory then some eisdir else none

def offset64 (low high : Nat) : Int := toSigned 64 ((high % 2 ^ 32) * 2 ^ 32 + low % 2 ^ 32)

def sysPread64 (fd : Int) (count low high : Nat) : Outcome σ ε :=
  match positionCheck k fd with
  | some e => (e, [], k)
  | none => fsPread env k fd (offset64 low high) count

def sysPwrite64 (fd : Int) (data : List UInt8) (low high : Nat) : Outcome σ ε :=
  match positionCheck k fd with
  | some e => (e, [], k)
  | none => fsPwrite env k fd (offset64 low high) data

def fsFtruncate (fd : Int) (length : Nat) : Outcome σ ε :=
  match k.ioBegin fd with
  | none => (ebadf, [], k)
  | some f =>
    if (k.files f).readonly then (erofs, [], k)
    else if isPath (k.files f).flag then (ebadf, [], k)
    else if (k.files f).mode = oRdonly then (einval, [], k)
    else if length > int64Max then (einval, [], k)
    else
      match (k.files f).fop.bind FileOps.ftruncate with
      | none => (einval, [], k)
      | some ftruncate =>
        let r := ftruncate (env 0) (k.files f).flag (k.content f) (k.files f).pos length
        (r.1, [], (k.setContent f r.2.1).setPos f r.2.2)

def fsFallocate (fd : Int) (mode offset length : Nat) : Outcome σ ε :=
  match k.ioBegin fd with
  | none => (ebadf, [], k)
  | some f =>
    if (k.files f).mode = oRdonly ∨ isPath (k.files f).flag then (ebadf, [], k)
    else if (k.files f).readonly then (erofs, [], k)
    else if length = 0 ∨ offset > int64Max ∨ length > int64Max then (einval, [], k)
    else if offset > int64Max - length then (efbig, [], k)
    else if mode > 1 then (eopnotsupp, [], k)
    else
      match (k.files f).fop.bind FileOps.fallocate with
      | none => (eopnotsupp, [], k)
      | some fallocate =>
        let r := fallocate (env 0) (k.files f).flag (k.content f) mode offset length
        (r.1, [], k.setContent f r.2)

/-- A call, with what the filesystem finds in it. -/
inductive Op (ε : Type)
  | read (env : Nat → ε) (fd : Int) (offset : Option Nat) (len : Nat)
  | write (env : Nat → ε) (fd : Int) (offset : Option Nat) (data : List UInt8)
  | pread (env : Nat → ε) (fd offset : Int) (len : Nat)
  | pwrite (env : Nat → ε) (fd offset : Int) (data : List UInt8)
  | pread64 (env : Nat → ε) (fd : Int) (count low high : Nat)
  | pwrite64 (env : Nat → ε) (fd : Int) (data : List UInt8) (low high : Nat)
  | readv (env : Nat → ε) (malloc : Bool) (fd count : Int) (lens : List Nat)
  | writev (env : Nat → ε) (malloc : Bool) (fd count : Int) (data : List (List UInt8))
  | sendfile (env : Nat → ε) (malloc : Bool) (outFd inFd : Int) (offset : Option Int) (count : Nat)
  | ftruncate (env : Nat → ε) (fd : Int) (length : Nat)
  | fallocate (env : Nat → ε) (fd : Int) (mode offset length : Nat)

def exec (k : Kernel σ ε) : Op ε → Outcome σ ε
  | .read env fd offset len => fsRead env k fd offset len
  | .write env fd offset data => fsWrite env k fd offset data
  | .pread env fd offset len => fsPread env k fd offset len
  | .pwrite env fd offset data => fsPwrite env k fd offset data
  | .pread64 env fd count low high => sysPread64 env k fd count low high
  | .pwrite64 env fd data low high => sysPwrite64 env k fd data low high
  | .readv env malloc fd count lens => sysReadv env k malloc fd count lens
  | .writev env malloc fd count data => sysWritev env k malloc fd count data
  | .sendfile env malloc outFd inFd offset count => fsSendfile env k malloc outFd inFd offset count
  | .ftruncate env fd length => fsFtruncate env k fd length
  | .fallocate env fd mode offset length => fsFallocate env k fd mode offset length

end

end Mos.Io
