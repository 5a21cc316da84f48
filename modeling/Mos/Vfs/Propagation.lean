import Mos.Vfs.Mounts
import Mos.Lib.Worklist

/-!
# Propagation of mounts

`vfs_mount_propagated` of `src/fs/impl/propagation.c`, with `vfs_mount_walk` and
`vfs_clone_mount_tree` of `src/fs/impl/vfs.c`.  A mount below a shared mount is repeated below all mounts of the same
peer group and below the slaves of the group, in all tracked namespaces; slaves that are shared pass it on to their
own peers and slaves.  The mounts to make are planned first, with a clone for each, and made then; if one fails, those
before it are undone.

The answers of the allocator (`oom`) and of the comparison of file types (`compatible`) are parameters.
-/

namespace Mos.Vfs

open Lib Function

def enomem : Int := -12

def enametoolong : Int := -36

namespace Super

def id : Super → Nat
  | null => 0
  | mk f .. => f.id

def peerGroup : Super → Nat
  | null => 0
  | mk f .. => f.peerGroup

def masterGroup : Super → Nat
  | null => 0
  | mk f .. => f.masterGroup

def setGroups : Super → Nat → Nat → Super
  | null, _, _ => null
  | mk f mounts key child covered, peer, master =>
    mk { f with peerGroup := peer, masterGroup := master } mounts key child covered

end Super

/-- `vfs_mount_walk`: the superblocks that are reported, in order. -/
def walk : Super → List Info
  | .null => []
  | .mk f mounts _ child _ => (if f.fstype = [] then [] else [f.toInfo]) ++ mounts.toList.flatMap fun n =>
      walk (child n)

/-- The path is at a mount point or below it, as `find_owner` tells. -/
def Under (point path : Str) : Prop :=
  point.length ≠ 0 ∧ point <+: path ∧ (point.length = 1 ∨ path.length = point.length ∨ path[point.length]? = some '/')

instance (point path : Str) : Decidable (Under point path) := inferInstanceAs (Decidable (_ ∧ _ ∧ _))

/-- `find_owner`, for one superblock. -/
def findOwner (path : Str) (found : Option Info × Nat) (mount : Info) : Option Info × Nat :=
  if mount.point.length ≥ found.2 ∧ Under mount.point path then (some mount, mount.point.length) else found

def ownerOf (sb : Super) (path : Str) : Option Info := ((walk sb).foldl (findOwner path) (none, 0)).1

/-- A copy while its child mounts are added. -/
structure Copy where
  mounts : Lib.Tree Nat
  key : Nat → Str
  child : Nat → Super
  nextId : Nat

def Copy.add (M : Mem) (copy : Copy) (path : Str) (sb : Super × Nat) : Copy :=
  let n := M.fresh copy.mounts.toList
  ⟨sbMountInsert M copy.mounts copy.key n path, update copy.key n path, update copy.child n sb.1, sb.2⟩

/-- `clone_mount_tree`, without pruning: new superblocks from the next address on, and the next address after that. -/
def cloneMountTree (M : Mem) : Super → Nat → Super × Nat
  | .null, nextId => (.null, nextId)
  | .mk f mounts key child covered, nextId =>
    let under := cloneMountTree M covered (nextId + 1)
    let copy := mounts.toList.foldl (fun (copy : Copy) n =>
      copy.add M (key n) (cloneMountTree M (child n) copy.nextId)) ⟨.leaf, fun _ => [], fun _ => .null, under.2⟩
    (.mk { f.toInfo with id := nextId } copy.mounts copy.key copy.child under.1, copy.nextId)

/-- The mount trees by their roots, the tracked ones of them, and the counters for peer groups and addresses. -/
structure Spaces (R : Type) where
  tree : R → Super
  roots : List R
  nextPeer : Nat
  nextId : Nat

/-- `++next_peer`. -/
def bump (peer : Nat) : Nat := (peer + 1) % 2 ^ 32

section

variable {R : Type} [DecidableEq R]

def Spaces.set (s : Spaces R) (root : R) (sb : Super) : Spaces R := { s with tree := update s.tree root sb }

/-- All reported superblocks of the tracked namespaces, with their roots, in the order of the walks. -/
def Spaces.mounts (s : Spaces R) : List (R × Info) := s.roots.flatMap fun root => (walk (s.tree root)).map (root, ·)

structure Item (R : Type) where
  root : R
  parent : Info
  path : Str
  mount : Super

def Item.place {R : Type} (item : Item R) : R × Str := (item.root, item.path)

structure Plan (R : Type) where
  items : List (Item R)
  error : Int
  nextPeer : Nat
  nextId : Nat
  allocs : Nat

/-- What is propagated at a time: `source_parent`, `source_mount`, `group` and `child_group`. -/
structure Source where
  parent : Nat
  mount : Super
  group : Nat
  childGroup : Nat

/-- The mount point of a receiver and the suffix behind it. -/
def receiverPath (suffix : Str) (receiver : Info) : Str :=
  (if receiver.point = ['/'] then [] else receiver.point) ++ suffix

/-- The path of an item: an empty path is that of the root. -/
def itemPath (suffix : Str) (receiver : Info) : Str :=
  if receiverPath suffix receiver = [] then ['/'] else receiverPath suffix receiver

/-- The groups of the clone for a receiver, and the counter. -/
def receiverGroups (src : Source) (receiver : Info) (plan : Plan R) (clone : Super) : Nat × Nat × Nat :=
  if receiver.peerGroup = src.group then (clone.peerGroup, clone.masterGroup, plan.nextPeer)
  else if receiver.peerGroup = 0 then (0, src.childGroup, plan.nextPeer)
  else
    -- the clones below one peer group are peers
    let peer := plan.items.foldl (fun peer prior =>
      if prior.parent.peerGroup = receiver.peerGroup ∧
        prior.mount.masterGroup = src.childGroup then prior.mount.peerGroup
      else peer) 0
    if peer = 0 then (bump plan.nextPeer, src.childGroup, bump plan.nextPeer) else (peer, src.childGroup,
      plan.nextPeer)

variable (M : Mem) (maxPath : Nat) (oom : Nat → Bool)

def planReceiver (suffix : Str) (src : Source) (plan : Plan R) (receiver : R × Info) : Plan R :=
  if plan.error ≠ 0 ∨ receiver.2.id = src.parent ∨
      receiver.2.peerGroup ≠ src.group ∧ receiver.2.masterGroup ≠ src.group then plan
  else if oom plan.allocs then { plan with error := enomem, allocs := plan.allocs + 1 }
  else if (receiverPath suffix receiver.2).length ≥ maxPath then
    { plan with error := enametoolong, allocs := plan.allocs + 1 }
  else
    let path := itemPath suffix receiver.2
    if (receiver.1, path) ∈ plan.items.map Item.place then { plan with allocs := plan.allocs + 1 }
    else if oom (plan.allocs + 1) then { plan with error := enomem, allocs := plan.allocs + 2 }
    else
      let clone := cloneMountTree M src.mount plan.nextId
      let groups := receiverGroups src receiver.2 plan clone.1
      { plan with
        items := plan.items ++ [⟨receiver.1, receiver.2, path, clone.1.setGroups groups.1 groups.2.1⟩]
        nextPeer := groups.2.2
        nextId := clone.2
        allocs := plan.allocs + 2 }

def collectReceivers (s : Spaces R) (suffix : Str) (src : Source) (plan : Plan R) : Plan R :=
  s.mounts.foldl (planReceiver M maxPath oom suffix src) plan

/-- The loop over the items: a receiver in another shared group passes the mount on. -/
def planItem (s : Spaces R) (suffix : Str) (group : Nat) (item : Item R) (plan : Plan R) : Plan R :=
  if item.parent.peerGroup = 0 ∨ item.parent.peerGroup = group then plan
  else collectReceivers M maxPath oom s suffix
    ⟨item.parent.id, item.mount, item.parent.peerGroup, item.mount.peerGroup⟩ plan

def targetSuffix (owner : Info) (target : Str) : Str :=
  if owner.point = ['/'] then target else target.drop owner.point.length

/-- The mount has a peer group of its own if it is to be propagated. -/
def sourceMount (mount : Super) (nextPeer : Nat) : Super × Nat :=
  if mount.peerGroup = 0 then (mount.setGroups (bump nextPeer) mount.masterGroup, bump nextPeer) else (mount,
    nextPeer)

/-- The plan of `vfs_mount_propagated`. -/
def mountPlan (s : Spaces R) (target : Str) (owner : Info) (mount : Super) (fuel : Nat) : Option (Plan R) :=
  let source := sourceMount mount s.nextPeer
  let suffix := targetSuffix owner target
  scan Plan.items (fun plan => plan.error ≠ 0) (planItem M maxPath oom s suffix owner.peerGroup) fuel 0
    (collectReceivers M maxPath oom s suffix ⟨owner.id, source.1, owner.peerGroup, source.1.peerGroup⟩
      ⟨[], 0, source.2, s.nextId, 0⟩)

def mountIn (compatible : Bool) (s : Spaces R) (root : R) (path : Str) (mount : Super) : Option (Int × Spaces R) :=
  (vfsMount M compatible (s.tree root) path mount).map fun r => (r.1, s.set root r.2)

def umountIn (s : Spaces R) (root : R) (path : Str) : Option (Int × Spaces R) :=
  (vfsUmount M (s.tree root) path).map fun r => (r.1, s.set root r.2)

/-- The mounts of the plan are made, up to the first that fails; the items that were, from the last to the first. -/
def commit (compatible : Item R → Bool) : List (Item R) → List (Item R) → Spaces R →
    Option (Int × List (Item R) × Spaces R)
  | [], done, s => some (0, done, s)
  | item :: rest, done, s =>
    (mountIn M (compatible item) s item.root item.path item.mount).bind fun r =>
      if r.1 = 0 then commit compatible rest (item :: done) r.2 else some (r.1, done, r.2)

/-- Mounts are undone, whatever `vfs_umount` answers. -/
def undo : List (R × Str) → Spaces R → Option (Spaces R)
  | [], s => some s
  | place :: rest, s => (umountIn M s place.1 place.2).bind fun r => undo rest r.2

def vfsMountPropagated (compatible : Bool) (compatibleItem : Item R → Bool) (fuel : Nat) (s : Spaces R) (root : R)
    (target : Str) (mount : Super) : Option (Int × Spaces R) :=
  match ownerOf (s.tree root) target with
  | none => mountIn M compatible s root target mount
  | some owner =>
    if owner.peerGroup = 0 then mountIn M compatible s root target mount
    else (mountPlan M maxPath oom s target owner mount fuel).bind fun plan =>
      let s' := { s with nextPeer := plan.nextPeer, nextId := plan.nextId }
      if plan.error ≠ 0 then some (plan.error, s')
      else (mountIn M compatible s' root target (sourceMount mount s.nextPeer).1).bind fun first =>
        if first.1 ≠ 0 then some first
        else (commit M compatibleItem plan.items [] first.2).bind fun r =>
          if r.1 = 0 then some (0, r.2.2)
          else (undo M (r.2.1.map Item.place ++ [(root, target)]) r.2.2).map (r.1, ·)

end

end Mos.Vfs
