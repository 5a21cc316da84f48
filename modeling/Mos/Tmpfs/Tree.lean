import Mos.Lib.Assoc
import Mos.Lib.Path
import Mos.Tmpfs.File

/-!
# The directory tree of tmpfs

The directory helpers, the path walks and the operations on names of `src/fs/impl/tmpfs.c`.  Nodes are numbered in the
order of their allocation; the root is the first one.  Every operation runs under `directory_lock`, and every
allocation succeeds. `maxPath` is `MAX_PATH`, which depends on the size of a pointer.
-/

namespace Mos.Tmpfs

open Lib Function

def eperm : Int := -1

def enoent : Int := -2

def ebusy : Int := -16

def eexist : Int := -17

def enotdir : Int := -20

def eisdir : Int := -21

def enametoolong : Int := -36

def enotempty : Int := -39

inductive Mode
  | reg
  | dir
  | lnk
  deriving DecidableEq

/-- The fields of `tmpfs_node` for its place in the tree. -/
structure Node where
  mode : Mode
  parent : Option Nat := none
  children : List (Str × Nat) := []
  links : Nat := 0
  symlink : Option Str := none

/-- `tmpfs_sb_info` with its nodes. -/
structure SbInfo where
  node : Nat → Node
  next : Nat

def root : Nat := 0

def SbInfo.empty : SbInfo := ⟨update (fun _ => { mode := .reg }) root { mode := .dir, parent := some root }, 1⟩

def SbInfo.modify (s : SbInfo) (n : Nat) (f : Node → Node) : SbInfo :=
  { s with node := update s.node n (f (s.node n)) }

/-- `tmpfs_node_alloc`; the new node is `s.next`. -/
def tmpfsNodeAlloc (s : SbInfo) (n : Node) : SbInfo := ⟨update s.node s.next n, s.next + 1⟩

def tmpfsDirLookup (s : SbInfo) (dir : Nat) (name : Str) : Option Nat := Assoc.find (s.node dir).children name

def Node.linked (n : Node) (dir : Nat) : Node :=
  { n with parent := some dir, links := if n.mode = .dir then n.links else addW 32 n.links 1 }

def Node.unlinked (n : Node) : Node := if n.mode ≠ .dir ∧ n.links ≠ 0 then { n with links := n.links - 1 } else n

def tmpfsDirAdd (s : SbInfo) (dir : Nat) (name : Str) (node : Nat) : SbInfo :=
  (s.modify node (·.linked dir)).modify dir fun n => { n with children := n.children ++ [(name, node)] }

def tmpfsDirRemove (s : SbInfo) (dir : Nat) (name : Str) : Int × SbInfo :=
  match tmpfsDirLookup s dir name with
  | none => (enoent, s)
  | some node =>
    (0, (s.modify dir fun n => { n with children := Assoc.remove n.children name }).modify node Node.unlinked)

/-- The loop of `tmpfs_walk`. -/
def walkNames (s : SbInfo) : Nat → List Str → Option Nat
  | cur, [] => some cur
  | cur, component :: rest =>
    if component.length > 255 then none
    else if (s.node cur).mode ≠ .dir then none
    else (tmpfsDirLookup s cur component).bind fun next => walkNames s next rest

def tmpfsWalk (s : SbInfo) (path : Str) : Option Nat := walkNames s root (names path)

/-- `tmpfs_walk_parent`: the parent and the last component. -/
def tmpfsWalkParent (maxPath : Nat) (s : SbInfo) (path : Str) : Option (Nat × Str) :=
  let front := (splitLast path).1
  let last := (splitLast path).2
  if last = [] then some (root, [])
  else if last.length > 255 then none
  else if front.all (· = '/') then some (root, last)
  else if front.length ≥ maxPath then none
  else (tmpfsWalk s front).map fun parent => (parent, last)

def badName (name : Str) : Bool := name = [] || name = ['.'] || name = ['.', '.']

/-- The checks before a new node is added: the parent and the name of the entry. -/
def newEntry (maxPath : Nat) (s : SbInfo) (path : Str) : Except Int (Nat × Str) :=
  match tmpfsWalkParent maxPath s path with
  | none => .error enoent
  | some (parent, last) =>
    if (s.node parent).mode ≠ .dir ∨ badName last then .error enoent
    else if (tmpfsDirLookup s parent last).isSome then .error eexist
    else .ok (parent, last)

def addNode (s : SbInfo) (parent : Nat) (name : Str) (n : Node) : SbInfo :=
  tmpfsDirAdd (tmpfsNodeAlloc s n) parent name s.next

/-- `tmpfs_open_direct` with `O_CREAT`, up to the node that is opened. -/
def tmpfsOpenDirect (maxPath : Nat) (s : SbInfo) (path : Str) : Option Nat × SbInfo :=
  match tmpfsWalk s path with
  | some tn => (some tn, s)
  | none =>
    match newEntry maxPath s path with
    | .error _ => (none, s)
    | .ok (parent, last) => (some s.next, addNode s parent last { mode := .reg })

/-- How the walk of `tmpfs_open_link_locked` ends: at a node that cannot be walked, at a symbolic link that the caller
has to follow, or in `tmpfs_open_direct`. -/
inductive LinkWalk
  | fail
  | follow
  | direct

/-- `more` tells if anything stands behind the last component. -/
def linkWalk (s : SbInfo) (more followFinal : Bool) : Nat → List Str → LinkWalk
  | _, [] => .direct
  | cur, component :: rest =>
    if component.length > 255 ∨ (s.node cur).mode ≠ .dir then .fail
    else
      match tmpfsDirLookup s cur component with
      | none => .direct
      | some next =>
        if (s.node next).symlink.isSome ∧ (rest ≠ [] ∨ more ∨ followFinal) then .follow
        else linkWalk s more followFinal next rest

/-- `tmpfs_open_link_locked` with `O_CREAT`; following a link is left to the caller. -/
def tmpfsOpenLinkLocked (maxPath : Nat) (s : SbInfo) (path : Str) (followFinal : Bool) : Option Nat × SbInfo :=
  match linkWalk s (path.getLast? = some '/') followFinal root (names path) with
  | .direct => tmpfsOpenDirect maxPath s path
  | _ => (none, s)

def tmpfsSymlinkOp (maxPath : Nat) (s : SbInfo) (target path : Str) : Int × SbInfo :=
  match newEntry maxPath s path with
  | .error e => (e, s)
  | .ok (parent, name) =>
    if target.length ≥ maxPath then (enametoolong, s)
    else (0, addNode s parent name { mode := .lnk, symlink := some target })

def tmpfsMkdirOp (maxPath : Nat) (s : SbInfo) (path : Str) : Int × SbInfo :=
  if (tmpfsWalk s path).isSome then (eexist, s)
  else
    match newEntry maxPath s path with
    | .error e => (e, s)
    | .ok (parent, last) => (0, addNode s parent last { mode := .dir })

def tmpfsLinkOp (maxPath : Nat) (s : SbInfo) (oldpath newpath : Str) : Int × SbInfo :=
  match tmpfsWalk s oldpath with
  | none => (enoent, s)
  | some node =>
    if (s.node node).mode = .dir then (eperm, s)
    else
      match tmpfsWalkParent maxPath s newpath with
      | none => (enoent, s)
      | some (parent, name) =>
        if (s.node parent).mode ≠ .dir then (enoent, s)
        else if badName name then (eexist, s)
        else if (tmpfsDirLookup s parent name).isSome then (eexist, s)
        else (0, tmpfsDirAdd s parent name node)

def tmpfsUnlinkOp (maxPath : Nat) (s : SbInfo) (path : Str) : Int × SbInfo :=
  match tmpfsWalkParent maxPath s path with
  | none => (enoent, s)
  | some (parent, last) =>
    if badName last then (eisdir, s)
    else
      match tmpfsDirLookup s parent last with
      | none => (enoent, s)
      | some victim => if (s.node victim).mode = .dir then (eisdir, s) else tmpfsDirRemove s parent last

def tmpfsRmdirOp (maxPath : Nat) (s : SbInfo) (path : Str) : Int × SbInfo :=
  match tmpfsWalk s path with
  | none => (enoent, s)
  | some tn =>
    if tn = root ∨ path = ['.'] ∨ path = ['.', '.'] then (ebusy, s)
    else if (s.node tn).mode ≠ .dir then (enotdir, s)
    else if (s.node tn).children ≠ [] then (enotempty, s)
    else
      match tmpfsWalkParent maxPath s path with
      | none => (enoent, s)
      | some (parent, last) => if badName last then (enoent, s) else tmpfsDirRemove s parent last

/-- The loop of `tmpfs_rename_op` over the ancestors of the new parent: whether the node is met. -/
def meetsNode (s : SbInfo) (node : Nat) : Nat → Nat → Option Bool
  | 0, _ => none
  | fuel + 1, p =>
    if p = node then some true
    else
      match (s.node p).parent with
      | none => some false
      | some q => if p = q then some false else meetsNode s node fuel q

/-- The end of `tmpfs_rename_op`: the entry moves under its new name to the end of the new parent. -/
def moveEntry (s : SbInfo) (node oldparent : Nat) (oldname : Str) (newparent : Nat) (newname : Str) : SbInfo :=
  ((s.modify oldparent fun n => { n with children := Assoc.remove n.children oldname }).modify node
    fun n => { n with parent := some newparent }).modify newparent
      fun n => { n with children := n.children ++ [(newname, node)] }

/-- `tmpfs_rename_op` from the lookup of the target on. -/
def replaceTarget (s : SbInfo) (node oldparent : Nat) (oldname : Str) (newparent : Nat) (newname : Str) :
    Int × SbInfo :=
  match tmpfsDirLookup s newparent newname with
  | none => (0, moveEntry s node oldparent oldname newparent newname)
  | some target =>
    if target = node then (0, s)
    else if (s.node target).mode = .dir ∧ (s.node node).mode ≠ .dir then (eisdir, s)
    else if (s.node target).mode ≠ .dir ∧ (s.node node).mode = .dir then (enotdir, s)
    else if (s.node target).mode = .dir ∧ (s.node target).children ≠ [] then (enotempty, s)
    else (0, moveEntry (tmpfsDirRemove s newparent newname).2 node oldparent oldname newparent newname)

/-- `tmpfs_rename_op`; `none` if the loop over the ancestors does not end within the number of nodes. -/
def tmpfsRenameOp (maxPath : Nat) (s : SbInfo) (oldpath newpath : Str) : Option (Int × SbInfo) :=
  match tmpfsWalkParent maxPath s oldpath, tmpfsWalkParent maxPath s newpath with
  | some (oldparent, oldname), some (newparent, newname) =>
    if badName oldname ∨ badName newname then some (einval, s)
    else
      match tmpfsDirLookup s oldparent oldname with
      | none => some (enoent, s)
      | some node =>
        if oldparent = newparent ∧ oldname = newname then some (0, s)
        else if (s.node node).mode = .dir then
          match meetsNode s node s.next newparent with
          | none => none
          | some true => some (einval, s)
          | some false => some (replaceTarget s node oldparent oldname newparent newname)
        else some (replaceTarget s node oldparent oldname newparent newname)
  | _, _ => some (enoent, s)

end Mos.Tmpfs
