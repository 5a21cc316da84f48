import Mos.Lib.SearchTree
import Mos.Lib.Strcmp
import Mathlib.Algebra.Group.Nat.Defs

/-!
# The mount tree

`super_block` with its child mounts, and `sb_path_resolve`, `vfs_mount`, `vfs_umount` and `vfs_take_mount` of
`src/fs/impl/vfs.c`.  A superblock keeps its child mounts in a red-black tree of nodes, which is ordered by their
keys, the greatest first; rebalancing and the addresses of new nodes are parameters (`Mem`).  In front of the tree
there is a cache of four lookups, which hold addresses of nodes.

A superblock is a tree of values here: no superblock is mounted twice, and one that is put for good is dropped.
`none` stands for a call that follows a pointer to a node that is not in the tree any more, or that writes beyond one
of the buffers for mount points.
-/

namespace Mos.Vfs

open Lib Function

def einval : Int := -22

def enoent : Int := -2

def eexist : Int := -17

def enotdir : Int := -20

/-- The memory: where nodes are allocated, and how their tree is kept in balance. -/
structure Mem where
  balancing : Balancing Nat
  fresh : List Nat → Nat
  fresh_not_mem : ∀ l, fresh l ∉ l

/-- Nodes are numbered, and never moved. -/
def Mem.plain : Mem where
  balancing := .none Nat
  fresh l := l.foldr max 0 + 1
  fresh_not_mem l h := by
    have hle : ∀ l : List Nat, ∀ x ∈ l, x ≤ l.foldr max 0 := by
      intro l x hx
      induction l with
      | nil => cases hx
      | cons a l ih =>
        rw [List.foldr_cons]
        rcases List.mem_cons.1 hx with rfl | hx
        · exact Nat.le_max_left _ _
        · exact Nat.le_trans (ih hx) (Nat.le_max_right _ _)
    have := hle l _ h
    omega

/-- What the kernel reads of a superblock besides its mounts; `id` is its address, `point` is `s_mountpoint`. -/
structure Info where
  id : Nat
  fstype : Str := []
  point : Str := []
  peerGroup : Nat := 0
  masterGroup : Nat := 0
  deriving DecidableEq

/-- An element of `s_lookup`. -/
structure Slot where
  valid : Bool := false
  path : Str := []
  mount : Option Nat := none
  length : Nat := 0

/-- The fields of a superblock; `last` is `s_lookup_last`. -/
structure Fields extends Info where
  lookup : Nat → Slot := fun _ => {}
  last : Nat := 0

/-- A pointer to a superblock, with the paths and the superblocks of its mount nodes. -/
inductive Super
  | null
  | mk (f : Fields) (mounts : Lib.Tree Nat) (key : Nat → Str) (child : Nat → Super) (covered : Super)

namespace Super

def isNull : Super → Bool
  | null => true
  | mk .. => false

def fstype : Super → Str
  | null => []
  | mk f .. => f.fstype

def point : Super → Str
  | null => []
  | mk f .. => f.point

def setCovered : Super → Super → Super
  | null, _ => null
  | mk f mounts key child _, covered => mk f mounts key child covered

def covered : Super → Super
  | null => null
  | mk _ _ _ _ covered => covered

end Super

/-- `sget`, with the fields that its caller sets. -/
def sget (info : Info) : Super := .mk { info with } .leaf (fun _ => []) (fun _ => .null) .null

def rootFs : Super := sget { id := 1, fstype := ['e', 'x', 't', '4'], point := ['/'] }

/-- The cache is cleared; `s_lookup_last` stays. -/
def Fields.clear (f : Fields) : Fields := { f with lookup := fun _ => {} }

/-- `sb_mount_find_n`, for the first bytes of a path. -/
def sbMountFindN (mounts : Lib.Tree Nat) (key : Nat → Str) (path : Str) : Option Nat :=
  mounts.find fun n => strcmp (key n) path

/-- The loop of `sb_mount_prefix`: the ends of the components, from the last one to the first. -/
def prefixLoop (mounts : Lib.Tree Nat) (key : Nat → Str) (path : Str) : Nat → Option (Nat × Nat)
  | 0 => none
  | stop + 1 =>
    if stop + 1 = path.length ∨ path[stop + 1]? = some '/' then
      match sbMountFindN mounts key (path.take (stop + 1)) with
      | some n => some (n, stop + 1)
      | none => prefixLoop mounts key path stop
    else prefixLoop mounts key path stop

def slotOf (path : Str) : Nat := path.foldl (fun slot c => (slot * 33 + c.toNat) % 2 ^ 32) 0 % 4

/-- The node that a slot names, and the length of its key. -/
def Slot.result (s : Slot) : Option (Nat × Nat) := s.mount.map fun n => (n, s.length)

/-- `sb_mount_prefix`: the node and the length of its key, and the fields with the cache. -/
def sbMountPrefix (f : Fields) (mounts : Lib.Tree Nat) (key : Nat → Str) (path : Str) : Option (Nat × Nat) × Fields :=
  if (f.lookup f.last).valid ∧ (f.lookup f.last).path = path then ((f.lookup f.last).result, f)
  else
    let slot := slotOf path
    if path.length < 256 ∧ (f.lookup slot).valid ∧ (f.lookup slot).path = path then
      ((f.lookup slot).result, { f with last := slot })
    else
      let found := prefixLoop mounts key path path.length
      if path.length < 256 then
        let entry : Slot := ⟨true, path, found.map Prod.fst, (found.map Prod.snd).getD 0⟩
        (found, { f with lookup := update f.lookup slot entry, last := slot })
      else (found, f)

/-- `sb_path_resolve`: the superblock and the rest of the path, and the tree with its caches. -/
def sbPathResolve : Super → Str → Option ((Nat × Str) × Super)
  | .null, _ => none
  | .mk f mounts key child covered, path =>
    if path = [] then some ((f.id, path), .mk f mounts key child covered)
    else
      match sbMountPrefix f mounts key path with
      | (none, f') => some ((f.id, path), .mk f' mounts key child covered)
      | (some (n, length), f') =>
        if n ∈ mounts.toList then
          (sbPathResolve (child n) (path.drop length)).map fun r =>
            (r.1, .mk f' mounts key (update child n r.2) covered)
        else none

/-- The way that `vfs_mount`, `vfs_umount` and `vfs_take_mount` share: `hit` where a node has the path as its key,
`miss` in the superblock that no child mount leads out of. -/
def route {α : Type} (bad : α) (hit : Super → Nat → Option (α × Super)) (miss : Super → Str → Option (α × Super)) :
    Super → Str → Option (α × Super)
  | .null, _ => some (bad, .null)
  | .mk f mounts key child covered, path =>
    if path.head? ≠ some '/' then some (bad, .mk f mounts key child covered)
    else
      match sbMountFindN mounts key path with
      | some n => hit (.mk f mounts key child covered) n
      | none =>
        match sbMountPrefix f mounts key path with
        | (none, f') => miss (.mk f' mounts key child covered) path
        | (some (n, length), f') =>
          if n ∈ mounts.toList then
            (route bad hit miss (child n) (path.drop length)).map fun r =>
              (r.1, .mk f' mounts key (update child n r.2) covered)
          else none

/-- The mount point of a child in `vfs_rebase_mount_tree`; `none` if it would be too long. -/
def childPoint (point key : Str) : Option Str :=
  if point = ['/'] then some key else if point.length + key.length ≥ 256 then none else some (point ++ key)

/-- `vfs_rebase_mount_tree`. -/
def rebase : Super → Str → Super
  | .null, _ => .null
  | .mk f mounts key child covered, point =>
    .mk { f with point := point.take 255 } mounts key
      (fun n => if n ∈ mounts.toList then
        match childPoint point (key n) with
        | some path => rebase (child n) path
        | none => child n
      else child n) covered

/-- At `/` the path of a child is copied without a check. -/
def rebaseSafe : Super → Str → Bool
  | .null, _ => true
  | .mk _ mounts key child _, point =>
    mounts.toList.all fun n => (point ≠ ['/'] || (key n).length < 256) &&
      match childPoint point (key n) with
      | some path => rebaseSafe (child n) path
      | none => true

/-- `sb_mount_insert`, after the cache was cleared. -/
def sbMountInsert (M : Mem) (mounts : Lib.Tree Nat) (key : Nat → Str) (n : Nat) (path : Str) : Lib.Tree Nat :=
  (mounts.insert (fun cur => if strcmp path (key cur) = .gt then .lt else .gt) n).elim mounts M.balancing.insertColor

/-- A mount point that is taken: the new superblock covers the one that is there.  `compatible` tells if both roots
are directories or both are not. -/
def coverMount (next : Super) (compatible : Bool) : Super → Nat → Option (Int × Super)
  | .null, _ => none
  | .mk f mounts key child covered, n =>
    if next.fstype = [] then some (eexist, .mk f mounts key child covered)
    else if !compatible then some (enotdir, .mk f mounts key child covered)
    else if rebaseSafe next (child n).point then
      some (0, .mk f.clear mounts key
        (update child n ((rebase next (child n).point).setCovered (child n))) covered)
    else none

/-- The mount point of a new child: behind a proper mount point it is written without a check of its length. -/
def newPoint (point path : Str) : Option Str :=
  if point = [] ∨ point = ['/'] then some (path.take 255)
  else if point.length + path.length < 256 then some (point ++ path)
  else none

def addMount (M : Mem) (next : Super) : Super → Str → Option (Int × Super)
  | .null, _ => none
  | .mk f mounts key child covered, path =>
    match newPoint f.point path with
    | none => none
    | some point =>
      if rebaseSafe next point then
        let n := M.fresh mounts.toList
        some (0, .mk f.clear (sbMountInsert M mounts key n path) (update key n path)
          (update child n (rebase next point)) covered)
      else none

def vfsMount (M : Mem) (compatible : Bool) (sb : Super) (path : Str) (next : Super) : Option (Int × Super) :=
  if next.isNull then some (einval, sb) else route einval (coverMount next compatible) (addMount M next) sb path

/-- The mount at a node is taken away: what it covers comes back, or the node goes. -/
def dropMount (M : Mem) : Super → Nat → Option (Super × Super)
  | .null, _ => none
  | .mk f mounts key child covered, n =>
    match child n with
    | .null => none
    | .mk cf cmounts ckey cchild under =>
      some (.mk cf cmounts ckey cchild .null,
        if under.isNull then .mk f.clear (M.balancing.erase mounts n) key child covered
        else .mk f.clear mounts key (update child n under) covered)

def vfsUmount (M : Mem) : Super → Str → Option (Int × Super) :=
  route einval (fun sb n => (dropMount M sb n).map fun r => (0, r.2)) fun sb _ => some (enoent, sb)

/-- `vfs_take_mount`: the superblock that was mounted, for the caller. -/
def vfsTakeMount (M : Mem) : Super → Str → Option (Super × Super) :=
  route .null (dropMount M) fun sb _ => some (.null, sb)

end Mos.Vfs
