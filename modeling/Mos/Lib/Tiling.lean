import Mathlib.Tactic

/-!
# Tilings of intervals by cells

A chunk is an interval cut into consecutive cells without gaps; the cut is part of the chunk (`Chunk.tiles`).  An
arena is a list of chunks.  Its operations replace a run of neighbouring cells by other cells over the same interval,
so the bounds of the chunks never change, and a property of the other cells is kept because they are the same list
`rest` up to order.
-/

namespace Mos.Lib

open List

variable {α : Type*}

structure Cell (α : Type*) where
  addr : Nat
  size : Nat
  tag : α

def Cell.stop (c : Cell α) : Nat := c.addr + c.size

/-- The cells follow one another from `lo` to `hi`. -/
def Tiles : Nat → List (Cell α) → Nat → Prop
  | lo, [], hi => lo = hi
  | lo, c :: cs, hi => c.addr = lo ∧ Tiles c.stop cs hi

variable {lo hi : Nat} {l : List (Cell α)}

theorem tiles_append {l1 l2 : List (Cell α)} : Tiles lo (l1 ++ l2) hi ↔ ∃ m, Tiles lo l1 m ∧ Tiles m l2 hi := by
  induction l1 generalizing lo with
  | nil => simp [Tiles]
  | cons c l ih => simp [Tiles, ih, and_assoc]

theorem Tiles.bounds (h : Tiles lo l hi) : lo ≤ hi ∧ ∀ c ∈ l, lo ≤ c.addr ∧ c.stop ≤ hi := by
  induction l generalizing lo with
  | nil => exact ⟨Nat.le_of_eq h, fun c hc => absurd hc not_mem_nil⟩
  | cons c l ih =>
    obtain ⟨rfl, ht⟩ := h
    obtain ⟨hle, hin⟩ := ih ht
    have hc : c.addr ≤ c.stop := Nat.le_add_right _ _
    exact ⟨Nat.le_trans hc hle, forall_mem_cons.2 ⟨⟨Nat.le_refl _, hle⟩, fun d hd => ⟨Nat.le_trans hc (hin d hd).1,
      (hin d hd).2⟩⟩⟩

theorem Tiles.sorted (h : Tiles lo l hi) : l.Pairwise fun c d => c.stop ≤ d.addr := by
  induction l generalizing lo with
  | nil => exact Pairwise.nil
  | cons c l ih => exact Pairwise.cons (fun d hd => (h.2.bounds.2 d hd).1) (ih h.2)

def Cell.Apart (c d : Cell α) : Prop := c.stop ≤ d.addr ∨ d.stop ≤ c.addr

theorem Cell.Apart.symm {c d : Cell α} (h : c.Apart d) : d.Apart c := Or.symm h

structure Chunk (α : Type*) where
  base : Nat
  top : Nat
  cells : List (Cell α)
  tiles : Tiles base cells top

def Chunk.bounds (c : Chunk α) : Nat × Nat := (c.base, c.top)

def cellsOf (cs : List (Chunk α)) : List (Cell α) := cs.flatMap Chunk.cells

/-- Chunks keep a distance of at least `g` after their tops: the room of a guard. -/
def ChunksApart (g : Nat) (bounds : List (Nat × Nat)) : Prop :=
  bounds.Pairwise fun c d => c.2 + g ≤ d.1 ∨ d.2 + g ≤ c.1

variable {cs : List (Chunk α)} {b : Cell α} {g : Nat} {c : Chunk α} {rest : List (Cell α)}

theorem mem_cellsOf : b ∈ cellsOf cs ↔ ∃ c ∈ cs, b ∈ c.cells := mem_flatMap

open Chunk

open Cell

theorem cellsOf_pairwise (h : ChunksApart g (cs.map bounds)) : (cellsOf cs).Pairwise Cell.Apart := by
  induction cs with
  | nil => exact Pairwise.nil
  | cons c cs ih =>
    obtain ⟨hc, hcs⟩ := pairwise_cons.1 h
    refine pairwise_append.2 ⟨c.tiles.sorted.imp .inl, ih hcs, fun x hx y hy => ?_⟩
    obtain ⟨d, hd, hyd⟩ := mem_cellsOf.1 hy
    have hx := c.tiles.bounds.2 x hx
    have hy := d.tiles.bounds.2 y hyd
    have hcd : c.top + g ≤ d.base ∨ d.top + g ≤ c.base := hc d.bounds (mem_map_of_mem hd)
    unfold Cell.Apart
    omega

theorem cell_size_le (hb : b ∈ cellsOf cs) : ∃ c ∈ cs.map bounds, c.1 + b.size ≤ c.2 := by
  obtain ⟨c, hc, hbc⟩ := mem_cellsOf.1 hb
  refine ⟨c.bounds, mem_map_of_mem hc, ?_⟩
  have hin := c.tiles.bounds.2 b hbc
  simp only [bounds, stop] at hin ⊢
  omega

theorem cell_apart_top (hg : 0 < g) (h : ChunksApart g (cs.map bounds)) (hb : b ∈ cellsOf cs) (hc : c ∈ cs) :
    c.top < b.addr ∨ b.stop ≤ c.top := by
  obtain ⟨d, hd, hbd⟩ := mem_cellsOf.1 hb
  have hin := d.tiles.bounds.2 b hbd
  have hcd : c = d ∨ (c.top + g ≤ d.base ∨ d.top + g ≤ c.base) := by
    have hpw : cs.Pairwise fun c d => c.top + g ≤ d.base ∨ d.top + g ≤ c.base := pairwise_map.1 h
    by_cases he : c = d
    · exact .inl he
    · have : Std.Symm fun c d : Chunk α => c.top + g ≤ d.base ∨ d.top + g ≤ c.base := ⟨fun _ _ h => h.symm⟩
      exact .inr (hpw.forall hc hd he)
  rcases hcd with rfl | hcd
  · exact .inr hin.2
  · have := c.tiles.bounds.1
    omega

/-- The same chunk with the cells `mid` in the middle replaced by others over the same interval. -/
theorem exists_replace_run (hc : c ∈ cs) {pre post : List (Cell α)}
    (mid mid' : List (Cell α)) (he : c.cells = pre ++ (mid ++ post))
    (hm : ∀ lo hi, Tiles lo mid hi → Tiles lo mid' hi) :
    ∃ cs' rest, cs'.map bounds = cs.map bounds ∧ (cellsOf cs).Perm (mid ++ rest) ∧
      (cellsOf cs').Perm (mid' ++ rest) := by
  obtain ⟨cs1, cs2, rfl⟩ := append_of_mem hc
  have htiles : Tiles c.base (pre ++ (mid' ++ post)) c.top := by
    have h := c.tiles
    rw [he] at h
    obtain ⟨m, h1, h2⟩ := tiles_append.1 h
    obtain ⟨m', h3, h4⟩ := tiles_append.1 h2
    exact tiles_append.2 ⟨m, h1, tiles_append.2 ⟨m', hm m m' h3, h4⟩⟩
  -- bring the middle run of the flattened list to the front
  have hfront : ∀ l : List (Cell α), (cellsOf cs1 ++ ((pre ++ (l ++ post)) ++ cellsOf cs2)).Perm
      (l ++ (cellsOf cs1 ++ (pre ++ (post ++ cellsOf cs2)))) := by
    intro l
    rw [append_assoc, append_assoc]
    refine Perm.trans ((perm_append_comm_assoc pre l _).append_left _) ?_
    exact perm_append_comm_assoc _ _ _
  refine ⟨cs1 ++ ⟨c.base, c.top, _, htiles⟩ :: cs2, cellsOf cs1 ++ (pre ++ (post ++ cellsOf cs2)), by simp [bounds],
    ?_, ?_⟩
  · have := hfront mid
    simpa [cellsOf, he] using this
  · have := hfront mid'
    simpa [cellsOf] using this

theorem head_mem {β : Type*} {b : β} {l rest : List β} (hp : l.Perm (b :: rest)) : b ∈ l := hp.mem_iff.2 mem_cons_self

theorem exists_replace (hp : (cellsOf cs).Perm (b :: rest)) (mid : List (Cell α)) (hm : Tiles b.addr mid b.stop) :
    ∃ cs', cs'.map bounds = cs.map bounds ∧ (cellsOf cs').Perm (mid ++ rest) := by
  obtain ⟨c, hc, hbc⟩ := mem_cellsOf.1 (head_mem hp)
  obtain ⟨pre, post, he⟩ := append_of_mem hbc
  obtain ⟨cs', rest', hbounds, hp', hmid⟩ := exists_replace_run hc [b] mid he fun lo hi ht => by
    obtain ⟨rfl, rfl⟩ := ht
    exact hm
  have hrest : rest'.Perm rest := Perm.cons_inv (hp'.symm.trans hp)
  exact ⟨cs', hbounds, hmid.trans (hrest.append_left mid)⟩

/-- After a cell comes another one or the top of its chunk. -/
theorem exists_next (hp : (cellsOf cs).Perm (b :: rest)) :
    (∃ c ∈ cs, b.stop = c.top) ∨ ∃ n rest', n.addr = b.stop ∧ rest.Perm (n :: rest') := by
  obtain ⟨c, hc, hbc⟩ := mem_cellsOf.1 (head_mem hp)
  obtain ⟨pre, post, he⟩ := append_of_mem hbc
  have ht := c.tiles
  rw [he] at ht
  obtain ⟨m, -, -, h2⟩ := tiles_append.1 ht
  cases post with
  | nil => exact .inl ⟨c, hc, h2⟩
  | cons n post =>
    obtain ⟨-, rest', -, hp', -⟩ := exists_replace_run hc [b, n] [b, n] he fun _ _ h => h
    exact .inr ⟨n, rest', h2.1, Perm.cons_inv (hp.symm.trans hp')⟩

/-- Two cells of which one starts where the other stops are neighbours, and can be replaced by one cell over both. -/
theorem exists_join (hg : 0 < g) (hapart : ChunksApart g (cs.map bounds))
    (hpos : ∀ c ∈ cellsOf cs, c.addr < c.stop) {n m : Cell α}
    (hp : (cellsOf cs).Perm (b :: n :: rest)) (hn : n.addr = b.stop) (haddr : m.addr = b.addr)
    (hsize : m.size = b.size + n.size) :
    ∃ cs', cs'.map bounds = cs.map bounds ∧ (cellsOf cs').Perm (m :: rest) := by
  obtain ⟨c, hc, hbc⟩ := mem_cellsOf.1 (head_mem hp)
  obtain ⟨pre, post, he⟩ := append_of_mem hbc
  have hnm : n ∈ cellsOf cs := hp.mem_iff.2 (by simp)
  have hnpos := hpos n hnm
  have ht := c.tiles
  rw [he] at ht
  obtain ⟨x, -, -, h2⟩ := tiles_append.1 ht
  cases post with
  | nil =>
    have h2 : b.stop = c.top := h2
    have := cell_apart_top hg hapart hnm hc
    omega
  | cons n' post =>
    have hn' : n'.addr = b.stop := h2.1
    -- two cells that start at one address are the same
    have hsame : n' = n := by
      have hm' : n' ∈ cellsOf cs := mem_cellsOf.2 ⟨c, hc, by simp [he]⟩
      have : Std.Symm (Cell.Apart (α := α)) := ⟨fun _ _ h => h.symm⟩
      by_contra hne
      have hd := (cellsOf_pairwise hapart).forall hm' hnm hne
      have hpos' := hpos n' hm'
      unfold Cell.Apart at hd
      omega
    subst hsame
    obtain ⟨cs', rest', hbounds, hp', hm⟩ := exists_replace_run hc [b, n'] [m] he fun lo hi ht => by
      obtain ⟨rfl, -, rfl⟩ := ht
      refine ⟨haddr, ?_⟩
      simp only [Tiles, stop] at hn' ⊢
      omega
    have hrest : rest'.Perm rest := Perm.cons_inv (Perm.cons_inv (hp'.symm.trans hp))
    exact ⟨cs', hbounds, hm.trans (hrest.cons m)⟩

end Mos.Lib
