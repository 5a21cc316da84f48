import Mos.Lib.Word

/-!
# Regular files of tmpfs

`tmpfs_ensure_page`, `tmpfs_file_ftruncate`, `tmpfs_file_fallocate`, `tmpfs_file_read` and `tmpfs_file_write` of
`src/fs/impl/tmpfs.c`.  A file is an array of pages of which some are absent, and a size.  Each call runs under the
lock of the file.  Offsets into a file are 32 bits wide, positions 64 bits; `*pos` is cut to 32 bits where the source
casts it.

Memory may run out and a page may fail to be mapped (`Env`); both are found anew in each round of a loop.
-/

namespace Mos.Tmpfs

open Lib

def pageSize : Nat := 4096

def eio : Int := -5

def enomem : Int := -12

def einval : Int := -22

def efbig : Int := -27

def enospc : Int := -28

abbrev Page := Nat → UInt8

/-- The fields of `tmpfs_node` for a regular file: `n_pages` is the length of the array. -/
structure FileNode where
  size : Nat
  pages : List (Option Page)

def FileNode.empty : FileNode := ⟨0, []⟩

/-- What the kernel finds in one round: memory for the array, a page, and mappings of pages. -/
structure Env where
  malloc : Bool := true
  page : Bool := true
  zero : Bool := true
  copy : Bool := true

/-- The bytes of a page from `offset` on are replaced. -/
def pageWrite (p : Page) (offset : Nat) (data : List UInt8) : Page :=
  fun o => if offset ≤ o then (data[o - offset]?).getD (p o) else p o

def pageZero (p : Page) (offset size : Nat) : Page := fun o => if offset ≤ o ∧ o < offset + size then 0 else p o

def FileNode.modifyPage (tn : FileNode) (i : Nat) (f : Page → Page) : FileNode :=
  { tn with pages := tn.pages.modify i (Option.map f) }

/-- `tn->pages[i]`, within the array. -/
def FileNode.present (tn : FileNode) (i : Nat) : Bool := (tn.pages[i]?).join.isSome

def tmpfsEnsurePage (tn : FileNode) (offset : Nat) (e : Env) : Int × FileNode :=
  let i := offset / pageSize
  if i < tn.pages.length then
    if tn.present i then (0, tn)
    else if e.page then (0, { tn with pages := tn.pages.set i (some fun _ => 0) })
    else (enomem, tn)
  else if e.malloc then
    let tn := { tn with pages := tn.pages ++ List.replicate (i + 1 - tn.pages.length) none }
    if e.page then (0, { tn with pages := tn.pages.set i (some fun _ => 0) }) else (enomem, tn)
  else (enomem, tn)

/-- How a loop over the bytes of a call ends. -/
inductive Stop
  | done
  | noPage
  | notMapped
  deriving DecidableEq

/-- The zeroing of the rest of the last page before a write beyond the end of the file; `none` if it cannot be
mapped. -/
def zeroGap (tn : FileNode) (curOff : Nat) (e : Env) : Option FileNode :=
  let oldPage := tn.size / pageSize
  let oldOff := tn.size % pageSize
  if curOff > tn.size ∧ oldOff ≠ 0 ∧ tn.present oldPage then
    let pageEnd := (oldPage + 1) * pageSize % 2 ^ 32
    let zeroEnd := if curOff > pageEnd then pageEnd else curOff
    if zeroEnd > tn.size then
      if e.zero then some (tn.modifyPage oldPage fun p => pageZero p oldOff (zeroEnd - tn.size)) else none
    else some tn
  else some tn

/-- The loop of `tmpfs_file_write`; the environment of a round is found by the bytes transferred before. -/
def writeLoop (env : Nat → Env) (pos : Nat) (data : List UInt8) : Nat → Nat → FileNode → Stop × Nat × FileNode
  | 0, transferred, tn => (.done, transferred, tn)
  | fuel + 1, transferred, tn =>
    if transferred < data.length then
      let curOff := (pos + transferred) % 2 ^ 32
      let byteOff := curOff % pageSize
      let copy := min (pageSize - byteOff) (data.length - transferred)
      match tmpfsEnsurePage tn curOff (env transferred) with
      | (0, tn) =>
        match zeroGap tn curOff (env transferred) with
        | some tn =>
          if (env transferred).copy then
            let tn := tn.modifyPage (curOff / pageSize) fun p =>
              pageWrite p byteOff ((data.drop transferred).take copy)
            let stop := addW 32 curOff copy
            writeLoop env pos data fuel (transferred + copy) (if stop > tn.size then { tn with size := stop } else tn)
          else (.notMapped, transferred, tn)
        | none => (.notMapped, transferred, tn)
      | (_, tn) => (.noPage, transferred, tn)
    else (.done, transferred, tn)

/-- `tmpfs_file_write`: what it returns, the file, and the position.  `w` is the width of `ssize_t`. -/
def tmpfsFileWrite (w : Nat) (env : Nat → Env) (tn : FileNode) (pos : Nat) (data : List UInt8) :
    Int × FileNode × Nat :=
  if data.length = 0 then (0, tn, pos)
  else
    match writeLoop env pos data data.length 0 tn with
    | (.notMapped, transferred, tn) => (if transferred ≠ 0 then toSigned w transferred else eio, tn, pos)
    | (_, transferred, tn) =>
      if transferred = 0 then (enospc, tn, pos)
      else
        let pos := pos + transferred
        let tn := if pos % 2 ^ 32 > tn.size then { tn with size := pos % 2 ^ 32 } else tn
        (toSigned w transferred, tn, pos)

/-- The loop of `tmpfs_file_read`: the bytes read, and whether a page could not be mapped. -/
def readLoop (env : Nat → Env) (tn : FileNode) (pos size : Nat) : Nat → List UInt8 → Bool × List UInt8
  | 0, out => (true, out)
  | fuel + 1, out =>
    if out.length < size then
      let curOff := (pos + out.length) % 2 ^ 32
      let byteOff := curOff % pageSize
      let copy := min (pageSize - byteOff) (size - out.length)
      match (tn.pages[curOff / pageSize]?).join with
      | none => readLoop env tn pos size fuel (out ++ List.replicate copy 0)
      | some p =>
        if (env out.length).copy then
          readLoop env tn pos size fuel (out ++ (List.range copy).map fun i => p (byteOff + i))
        else (false, out)
    else (true, out)

/-- `tmpfs_file_read`: what it returns and the bytes in the buffer. -/
def tmpfsFileRead (w : Nat) (env : Nat → Env) (tn : FileNode) (pos size : Nat) : Int × List UInt8 :=
  if pos % 2 ^ 32 ≥ tn.size ∨ size = 0 then (0, [])
  else
    let size := if toSigned 64 (addW 64 pos size) > tn.size then tn.size - pos % 2 ^ 32 else size
    match readLoop env tn pos size size [] with
    | (true, out) => (toSigned w out.length, out)
    | (false, out) => (if out.length ≠ 0 then toSigned w out.length else eio, out)

def tmpfsFileFtruncate (e : Env) (tn : FileNode) (size : Int) : Int × FileNode :=
  let newSize := (size % 2 ^ 32).toNat
  let newPages := addW 32 newSize (pageSize - 1) / pageSize
  if size < 0 then (einval, tn)
  else if size > 0xffffffff then (efbig, tn)
  else if newSize < tn.size ∧ newPages > 0 ∧ newSize % pageSize ≠ 0 ∧ tn.present (newPages - 1) ∧
    ¬e.zero then (eio, tn)
  else
    let oldSize := tn.size
    let tn :=
      if newSize < tn.size ∧ newPages > 0 ∧ newSize % pageSize ≠ 0 ∧ tn.present (newPages - 1) then
        tn.modifyPage (newPages - 1) fun p => pageZero p (newSize % pageSize) (pageSize - newSize % pageSize)
      else tn
    if newPages > tn.pages.length ∧ ¬e.malloc then (enomem, tn)
    else
      let tn := { tn with pages := tn.pages.take newPages ++ List.replicate (newPages - tn.pages.length) none }
      if newSize > oldSize ∧ oldSize > 0 ∧ oldSize / pageSize = (newSize - 1) / pageSize ∧ oldSize % pageSize ≠ 0 ∧
          tn.present (oldSize / pageSize) then
        if e.copy then
          (0, { tn.modifyPage (oldSize / pageSize) fun p => pageZero p (oldSize % pageSize) (newSize - oldSize) with
            size := newSize })
        else (eio, tn)
      else (0, { tn with size := newSize })

/-- The loop of `tmpfs_file_fallocate` over the pages of a range. -/
def allocLoop (env : Nat → Env) : List Nat → FileNode → Int × FileNode
  | [], tn => (0, tn)
  | page :: pages, tn =>
    match tmpfsEnsurePage tn (page * pageSize) (env page) with
    | (0, tn) => allocLoop env pages tn
    | (err, tn) => (err, tn)

/-- `tmpfs_file_fallocate`, for a range that is not empty; `e` is what the truncation finds. -/
def tmpfsFileFallocate (e : Env) (env : Nat → Env) (tn : FileNode) (keepSize : Bool) (offset length : Nat) :
    Int × FileNode :=
  let stop := addW 64 offset length
  let pages := List.range' (offset / pageSize) ((stop - 1) / pageSize + 1 - offset / pageSize)
  if stop > 0xffffffff then (efbig, tn)
  else if ¬keepSize ∧ stop > tn.size then
    match tmpfsFileFtruncate e tn stop with
    | (0, tn) => allocLoop env pages tn
    | (err, tn) => (err, tn)
  else allocLoop env pages tn

end Mos.Tmpfs
