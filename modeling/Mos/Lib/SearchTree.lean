import Mathlib.Data.List.Pairwise
import Mathlib.Order.Basic
import Mathlib.Tactic.Common

/-!
# Binary search trees probed by a comparison

A probe is a function `cmp : α → Ordering` that says on which side of a stored element the sought place lies.  It need
not come from a linear order: all that a search uses is that, along the elements in order, the answers are first `gt`,
then `eq`, then `lt` (`Cut`).  The searches are specified over the in-order list.

A self-balancing tree is described by its two restructuring operations and their effect on the in-order list
(`Balancing`).
-/

namespace Mos.Lib

open List

inductive Tree (α : Type*)
  | leaf
  | node (left : Tree α) (x : α) (right : Tree α)

namespace Tree

variable {α : Type*} (cmp : α → Ordering) {t : Tree α} {a : α}

def toList : Tree α → List α
  | leaf => []
  | node l x r => l.toList ++ x :: r.toList

/-- Descend to an element at which the probe answers `eq`. -/
def find : Tree α → Option α
  | leaf => none
  | node l x r => match cmp x with
    | .lt => l.find
    | .gt => r.find
    | .eq => some x

/-- Descend to a free place and put `a` there, unless an element answers `eq` on the way. -/
def insert (a : α) : Tree α → Option (Tree α)
  | leaf => some (node leaf a leaf)
  | node l x r => match cmp x with
    | .lt => (l.insert a).map fun l' => node l' x r
    | .gt => (r.insert a).map fun r' => node l x r'
    | .eq => none

/-- The first element that does not answer `gt`; `candidate` is the best one met on the way down. -/
def lowerBound (candidate : Option α) : Tree α → Option α
  | leaf => candidate
  | node l x r => match cmp x with
    | .lt => l.lowerBound (some x)
    | .gt => r.lowerBound candidate
    | .eq => some x

/-- The tree whose nodes form a single path to the right. -/
def ofList : List α → Tree α
  | [] => leaf
  | x :: l => node leaf x (ofList l)

@[simp] theorem toList_ofList (l : List α) : (ofList l).toList = l := by
  induction l with
  | nil => rfl
  | cons x l ih => simp [ofList, toList, ih]

def first (t : Tree α) : Option α := t.toList.head?

def next [DecidableEq α] (t : Tree α) (a : α) : Option α := (t.toList.dropWhile (· ≠ a)).tail.head?

theorem next_middle [DecidableEq α] {l1 l2 : List α} (h : t.toList = l1 ++ a :: l2) (ha : a ∉ l1) :
    t.next a = l2.head? := by
  rw [next, h, dropWhile_append_of_pos]
  · simp
  · intro x hx
    have hne : x ≠ a := fun heq => ha (heq ▸ hx)
    simpa using hne

theorem next_first [DecidableEq α] {l : List α} (h : t.toList = a :: l) : t.next a = l.head? :=
  next_middle (show t.toList = [] ++ a :: l from h) not_mem_nil

def map (f : α → α) : Tree α → Tree α
  | leaf => leaf
  | node l x r => node (l.map f) (f x) (r.map f)

theorem toList_map (f : α → α) (t : Tree α) : (t.map f).toList = t.toList.map f := by
  induction t with
  | leaf => rfl
  | node l x r ihl ihr => simp [map, toList, ihl, ihr]

/-- Along the list the probe answers `gt`, then `eq`, then `lt`. -/
def Cut (l : List α) : Prop :=
  l.Pairwise fun x y => (cmp x = .lt → cmp y = .lt) ∧ (cmp y = .gt → cmp x = .gt)

variable {cmp}

theorem Cut.node {l r : Tree α} {x : α} (h : Cut cmp (Tree.node l x r).toList) :
    Cut cmp l.toList ∧ Cut cmp r.toList ∧ (cmp x = .lt → ∀ y ∈ r.toList, cmp y = .lt) ∧
      (cmp x = .gt → ∀ y ∈ l.toList, cmp y = .gt) := by
  obtain ⟨hl, hr, hlr⟩ := pairwise_append.1 h
  obtain ⟨hx, hr⟩ := pairwise_cons.1 hr
  exact ⟨hl, hr, fun hlt y hy => (hx y hy).1 hlt, fun hgt y hy => (hlr y hy x mem_cons_self).2 hgt⟩

theorem find_mem (h : t.find cmp = some a) : a ∈ t.toList ∧ cmp a = .eq := by
  induction t with
  | leaf => cases h
  | node l x r ihl ihr =>
    rw [find] at h
    simp only [toList, mem_append, mem_cons]
    split at h
    · exact ⟨.inl (ihl h).1, (ihl h).2⟩
    · exact ⟨.inr (.inr (ihr h).1), (ihr h).2⟩
    · cases h
      exact ⟨.inr (.inl rfl), by assumption⟩

theorem find_eq_none (hcut : Cut cmp t.toList) (h : t.find cmp = none) : ∀ a ∈ t.toList, cmp a ≠ .eq := by
  induction t with
  | leaf => simp [toList]
  | node l x r ihl ihr =>
    obtain ⟨hl, hr, hright, hleft⟩ := hcut.node
    rw [find] at h
    intro a ha
    simp only [toList, mem_append, mem_cons] at ha
    split at h
    · rename_i hx
      rcases ha with ha | rfl | ha
      · exact ihl hl h a ha
      · simp [hx]
      · simp [hright hx a ha]
    · rename_i hx
      rcases ha with ha | rfl | ha
      · simp [hleft hx a ha]
      · simp [hx]
      · exact ihr hr h a ha
    · cases h

/-- Where no element answers `eq`, insertion succeeds and puts the new element between the `gt` and the `lt` part. -/
theorem insert_spec (a : α) (hcut : Cut cmp t.toList) (h : ∀ x ∈ t.toList, cmp x ≠ .eq) :
    ∃ t' l1 l2, t.insert cmp a = some t' ∧ t.toList = l1 ++ l2 ∧ t'.toList = l1 ++ a :: l2 ∧
      (∀ x ∈ l1, cmp x = .gt) ∧ ∀ x ∈ l2, cmp x = .lt := by
  induction t with
  | leaf => exact ⟨_, [], [], rfl, rfl, rfl, by simp, by simp⟩
  | node l x r ihl ihr =>
    obtain ⟨hl, hr, hright, hleft⟩ := hcut.node
    simp only [toList, mem_append, mem_cons] at h
    rw [insert]
    cases hx : cmp x with
    | lt =>
      obtain ⟨t', l1, l2, h1, h2, h3, h4, h5⟩ := ihl hl fun y hy => h y (.inl hy)
      refine ⟨node t' x r, l1, l2 ++ x :: r.toList, by simp [h1], by simp [toList, h2], by simp [toList, h3], h4,
        forall_mem_append.2 ⟨h5, forall_mem_cons.2 ⟨hx, hright hx⟩⟩⟩
    | gt =>
      obtain ⟨t', l1, l2, h1, h2, h3, h4, h5⟩ := ihr hr fun y hy => h y (.inr (.inr hy))
      refine ⟨node l x t', l.toList ++ x :: l1, l2, by simp [h1], by simp [toList, h2], by simp [toList, h3],
        forall_mem_append.2 ⟨hleft hx, forall_mem_cons.2 ⟨hx, h4⟩⟩, h5⟩
    | eq => exact absurd hx (h x (.inr (.inl rfl)))

/-- A cut at which at most one element answers `eq`. -/
def StrictCut (cmp : α → Ordering) (l : List α) : Prop := l.Pairwise fun x y => cmp y ≠ .lt → cmp x = .gt

theorem lowerBound_eq (candidate : Option α) (hcut : StrictCut cmp t.toList) :
    t.lowerBound cmp candidate = (t.toList.find? fun x => decide (cmp x ≠ .gt)).or candidate := by
  induction t generalizing candidate with
  | leaf => rfl
  | node l x r ihl ihr =>
    obtain ⟨hl, hr, hlr⟩ := pairwise_append.1 hcut
    have hleft : cmp x ≠ .lt → l.toList.find? (fun x => decide (cmp x ≠ .gt)) = none := fun hx =>
      List.find?_eq_none.2 fun y hy => by simp [hlr y hy x mem_cons_self hx]
    rw [lowerBound, toList, List.find?_append]
    cases hx : cmp x with
    | lt =>
      rw [ihl _ hl, List.find?_cons_of_pos (by simp [hx])]
      cases l.toList.find? fun x => decide (cmp x ≠ .gt) <;> rfl
    | gt =>
      rw [ihr _ (pairwise_cons.1 hr).2, List.find?_cons_of_neg (by simp [hx]), hleft (by simp [hx]), Option.none_or]
    | eq => rw [List.find?_cons_of_pos (by simp [hx]), hleft (by simp [hx]), Option.none_or, Option.some_or]

end Tree

/-- The restructuring operations of a self-balancing tree: recolouring and rotating after an insertion, and taking out
an element. -/
structure Balancing (α : Type*) [DecidableEq α] where
  insertColor : Tree α → Tree α
  insertColor_toList : ∀ t, (insertColor t).toList = t.toList
  erase : Tree α → α → Tree α
  erase_toList : ∀ t x, x ∈ t.toList → (erase t x).toList = t.toList.erase x

def Balancing.none (α : Type*) [DecidableEq α] : Balancing α where
  insertColor := id
  insertColor_toList _ := rfl
  erase t x := Tree.ofList (t.toList.erase x)
  erase_toList _ _ _ := Tree.toList_ofList _

end Mos.Lib
