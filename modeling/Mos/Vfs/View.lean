import Mos.Vfs.Mounts
import Mos.Lib.Longest

/-!
# Mount trees as paths see them

A `View` is a mount tree without nodes, addresses and caches: the child mounts of a superblock are found by their keys
alone. A path belongs to the superblock that is reached by descending into the child mount with the longest key that
covers the rest of the path (`owner`).  The operations on mount trees are stated for views here; those of the code
refine them.
-/

namespace Mos.Vfs

open Lib Function

inductive View
  | null
  | mk (info : Info) (keys : List Str) (sub : Str → View) (covered : View)

variable {v : View} {k : Str}

namespace View

def isNull : View → Bool
  | null => true
  | mk .. => false

def fstype : View → Str
  | null => []
  | mk info .. => info.fstype

def point : View → Str
  | null => []
  | mk info .. => info.point

def id : View → Nat
  | null => 0
  | mk info .. => info.id

def covered : View → View
  | null => null
  | mk _ _ _ covered => covered

def setCovered : View → View → View
  | null, _ => null
  | mk info keys sub _, covered => mk info keys sub covered

/-- Keys descend and begin with a slash, and only keys have child mounts. -/
inductive Wf : View → Prop
  | mk {info keys sub covered} (hdesc : Descending keys)
      (hslash : ∀ k ∈ keys, k.head? = some '/') (hnull : ∀ k, k ∉ keys → sub k = null) (hsub : ∀ k ∈ keys, (sub k).Wf)
      (hcov : covered ≠ null → covered.Wf) : Wf (mk info keys sub covered)

/-- The superblock that owns a path, and the rest of the path in it. -/
def owner : View → Str → Info × Str
  | null, path => ({ id := 0 }, path)
  | mk info keys sub _, path =>
    match best keys path with
    | none => (info, path)
    | some k => (sub k).owner (path.drop k.length)

/-- The address of the owner, and the rest of the path. -/
def resolve (v : View) (path : Str) : Nat × Str := ((v.owner path).1.id, (v.owner path).2)

def route {α : Type} (bad : α) (hit : View → Str → Option (α × View)) (miss : View → Str → Option (α × View)) :
    View → Str → Option (α × View)
  | null, _ => some (bad, null)
  | mk info keys sub covered, path =>
    if path.head? ≠ some '/' then some (bad, mk info keys sub covered)
    else if path ∈ keys then hit (mk info keys sub covered) path
    else
      match best keys path with
      | none => miss (mk info keys sub covered) path
      | some k => (route bad hit miss (sub k) (path.drop k.length)).map fun r =>
          (r.1, mk info keys (update sub k r.2) covered)

def rebase : View → Str → View
  | null, _ => null
  | mk info keys sub covered, point =>
    mk { info with point := point.take 255 } keys
      (fun k => match childPoint point k with
        | some path => (sub k).rebase path
        | none => sub k) covered

def rebaseSafe : View → Str → Bool
  | null, _ => true
  | mk _ keys sub _, point =>
    keys.all fun k => (point ≠ ['/'] || k.length < 256) &&
      match childPoint point k with
      | some path => (sub k).rebaseSafe path
      | none => true

def cover (next : View) (compatible : Bool) : View → Str → Option (Int × View)
  | null, _ => none
  | mk info keys sub covered, k =>
    if next.fstype = [] then some (eexist, mk info keys sub covered)
    else if !compatible then some (enotdir, mk info keys sub covered)
    else if next.rebaseSafe (sub k).point then
      some (0, mk info keys (update sub k ((next.rebase (sub k).point).setCovered (sub k))) covered)
    else none

def add (next : View) : View → Str → Option (Int × View)
  | null, _ => none
  | mk info keys sub covered, path =>
    match newPoint info.point path with
    | none => none
    | some point =>
      if next.rebaseSafe point then
        some (0, mk info (insertKey path keys) (update sub path (next.rebase point)) covered)
      else none

def mount (compatible : Bool) (v : View) (path : Str) (next : View) : Option (Int × View) :=
  if next.isNull then some (einval, v) else route einval (cover next compatible) (add next) v path

def drop : View → Str → Option (View × View)
  | null, _ => none
  | mk info keys sub covered, k =>
    match sub k with
    | null => none
    | mk cinfo ckeys csub under =>
      some (mk cinfo ckeys csub null,
        if under.isNull then mk info (keys.erase k) (update sub k null) covered
        else mk info keys (update sub k under) covered)

def umount : View → Str → Option (Int × View) :=
  route einval (fun v k => (drop v k).map fun r => (0, r.2)) fun v _ => some (enoent, v)

def take : View → Str → Option (View × View) := route null drop fun v _ => some (null, v)

theorem Wf.ne_null (h : v.Wf) : v ≠ null := by
  cases h
  exact View.noConfusion

section

variable {info : Info} {keys : List Str} {sub : Str → View} {covered : View}

section

variable (h : Wf (.mk info keys sub covered))

include h

theorem Wf.desc : Descending keys := by
  cases h
  assumption

theorem Wf.slash (hk : k ∈ keys) : k.head? = some '/' := by
  cases h with
  | mk _ hslash => exact hslash k hk

theorem Wf.sub_null (hk : k ∉ keys) : sub k = null := by
  cases h with
  | mk _ _ hnull => exact hnull k hk

theorem Wf.sub_wf (hk : k ∈ keys) : (sub k).Wf := by
  cases h with
  | mk _ _ _ hsub => exact hsub k hk

end

end

theorem isNull_iff : v.isNull = true ↔ v = null := by
  cases v <;> simp [isNull]

/-- The rule for the calls: what holds where the way ends, and is carried from a child mount to its parent, holds. -/
theorem route_induct {α : Type} {bad : α} {hit miss : View → Str → Option (α × View)}
    {P : View → Str → Option (α × View) → Prop}
    (hbad : ∀ {v path}, v.Wf → path.head? ≠ some '/' → P v path (some (bad, v)))
    (hhit : ∀ {info keys sub covered k}, Wf (mk info keys sub covered) → k.head? = some '/' → k ∈ keys →
      P (mk info keys sub covered) k (hit (mk info keys sub covered) k))
    (hmiss : ∀ {info keys sub covered path}, Wf (mk info keys sub covered) → path.head? = some '/' →
      best keys path = none → P (mk info keys sub covered) path (miss (mk info keys sub covered) path))
    (hdown : ∀ {info keys sub covered k rest r}, Wf (mk info keys sub covered) → (k ++ rest).head? = some '/' →
      rest.head? = some '/' → k ++ rest ∉ keys → Longest keys (k ++ rest) k → P (sub k) rest r →
      P (mk info keys sub covered) (k ++ rest) (r.map fun r => (r.1, mk info keys (update sub k r.2) covered)))
      (hv : v.Wf) (path : Str) : P v path (route bad hit miss v path) := by
  induction hv generalizing path with
  | @mk info keys sub covered hdesc hslash hnull hsub hcov ih _ =>
    have hwf : Wf (mk info keys sub covered) := .mk hdesc hslash hnull hsub hcov
    rw [route]
    by_cases hhead : path.head? ≠ some '/'
    · rw [if_pos hhead]
      exact hbad hwf hhead
    rw [if_neg hhead]
    have hhead := not_not.1 hhead
    by_cases hmem : path ∈ keys
    · rw [if_pos hmem]
      exact hhit hwf hhead hmem
    rw [if_neg hmem]
    cases hb : best keys path with
    | none => exact hmiss hwf hhead hb
    | some k =>
      have hl := hdesc.longest_of_best hb
      have he := hl.covers.eq_append
      have hrest : (path.drop k.length).head? = some '/' := by
        rcases hl.covers.rest with hnil | hrest
        · rw [hnil, List.append_nil] at he
          exact absurd (he ▸ hl.mem) hmem
        · exact hrest
      have hP := ih k hl.mem (path.drop k.length)
      generalize path.drop k.length = rest at he hrest hP
      subst he
      simp only [List.drop_left]
      exact hdown hwf hhead hrest hmem hl hP

end View

end Mos.Vfs
