import Mathlib.Tactic

/-!
# Paths of bounded length

Paths of a relation, counted by their steps.  A relation whose paths are bounded has no cycles.  Whether the bound
survives a new edge can be read off the paths that end where the edge begins and those that begin where it ends
(`bounded_insertEdge_iff`); and the longest of these are found by a search to a limited depth (`explore`).
-/

namespace Mos.Lib

open List

variable {α : Type*} {R R' : α → α → Prop} {a b c u v : α} {n m B : Nat}

inductive Steps (R : α → α → Prop) : Nat → α → α → Prop
  | refl (a : α) : Steps R 0 a a
  | head {a b c : α} {n : Nat} : R a b → Steps R n b c → Steps R (n + 1) a c

namespace Steps

theorem mono (h : ∀ a b, R a b → R' a b) (hs : Steps R n a b) : Steps R' n a b := by
  induction hs with
  | refl => exact .refl _
  | head hr _ ih => exact .head (h _ _ hr) ih

theorem trans (h1 : Steps R n a b) (h2 : Steps R m b c) : Steps R (n + m) a c := by
  induction h1 with
  | refl => simpa using h2
  | @head _ _ _ n hr _ ih =>
    rw [show n + 1 + m = (n + m) + 1 by omega]
    exact .head hr (ih h2)

theorem snoc (h : Steps R n a b) (hr : R b c) : Steps R (n + 1) a c := h.trans (.head hr (.refl c))

theorem flip (h : Steps R n a b) : Steps (flip R) n b a := by
  induction h with
  | refl => exact .refl _
  | head hr _ ih => exact ih.snoc hr

theorem loop (h : Steps R n a a) (k : Nat) : Steps R (n * k) a a := by
  induction k with
  | zero => exact .refl a
  | succ k ih => exact ih.trans h

end Steps

def Bounded (R : α → α → Prop) (B : Nat) : Prop := ∀ n a b, Steps R n a b → n ≤ B

namespace Bounded

theorem mono (hB : Bounded R B) (h : ∀ a b, R' a b → R a b) : Bounded R' B := fun n a b hs => hB n a b (hs.mono h)

theorem acyclic (hB : Bounded R B) (n : Nat) (a : α) : ¬Steps R (n + 1) a a := by
  intro h
  have hle := hB _ a a (h.loop (B + 1))
  have hge : B + 1 ≤ (n + 1) * (B + 1) := Nat.le_mul_of_pos_left _ (by omega)
  omega

end Bounded

def insertEdge (R : α → α → Prop) (u v : α) (a b : α) : Prop := R a b ∨ a = u ∧ b = v

/-- A path takes the new edge at most once, if there is no way back. -/
theorem Steps.of_insertEdge (hback : ∀ n, ¬Steps R n v u) (h : Steps (insertEdge R u v) n a b) :
    Steps R n a b ∨ ∃ i j, Steps R i a u ∧ Steps R j v b ∧ n = i + 1 + j := by
  induction h with
  | refl => exact .inl (.refl _)
  | @head x y z n hr _ ih =>
    rcases hr with hr | ⟨rfl, rfl⟩
    · rcases ih with ih | ⟨i, j, hi, hj, rfl⟩
      · exact .inl (.head hr ih)
      · exact .inr ⟨i + 1, j, .head hr hi, hj, by omega⟩
    · rcases ih with ih | ⟨i, j, hi, -, -⟩
      · exact .inr ⟨0, n, .refl _, ih, by omega⟩
      · exact absurd hi (hback i)

/-- A new edge keeps the bound exactly if there is no way back and the paths through it are short enough. -/
theorem bounded_insertEdge_iff (hB : Bounded R B) : Bounded (insertEdge R u v) B ↔
    (∀ n, ¬Steps R n v u) ∧ ∀ i j a b, Steps R i a u → Steps R j v b → i + 1 + j ≤ B := by
  have hold : ∀ x y, R x y → insertEdge R u v x y := fun _ _ => .inl
  have hnew : insertEdge R u v u v := .inr ⟨rfl, rfl⟩
  constructor
  · intro h
    constructor
    · intro n hs
      exact h.acyclic n v ((hs.mono hold).snoc hnew)
    · intro i j a b hi hj
      exact h _ a b (((hi.mono hold).snoc hnew).trans (hj.mono hold))
  · intro h n a b hs
    rcases hs.of_insertEdge h.1 with hs | ⟨i, j, hi, hj, rfl⟩
    · exact hB n a b hs
    · exact h.2 i j a b hi hj

/-- The length of the longest path from a place along `next`, by a search of depth `n`.  It is `limit` where the
search has to end early, and at the places of `stop`. -/
def explore (next : α → List α) (stop : α → Bool) (limit : Nat) : Nat → α → Nat
  | 0, _ => limit
  | n + 1, a => if stop a then limit else (next a).foldl (fun longest b =>
      max longest (1 + explore next stop limit n b)) 0

section explore

variable {next : α → List α} {stop : α → Bool} {limit : Nat} {f : α → Nat}

theorem le_foldl_max (l : List α) (k : Nat) :
    k ≤ l.foldl (fun k b => max k (f b)) k ∧ ∀ b ∈ l, f b ≤ l.foldl (fun k b => max k (f b)) k := by
  induction l generalizing k with
  | nil => exact ⟨Nat.le_refl k, nofun⟩
  | cons x l ih =>
    obtain ⟨hk, hl⟩ := ih (max k (f x))
    refine ⟨Nat.le_trans (Nat.le_max_left ..) hk, ?_⟩
    exact forall_mem_cons.2 ⟨Nat.le_trans (Nat.le_max_right ..) hk, hl⟩

theorem foldl_max_eq (l : List α) (k : Nat) :
    l.foldl (fun k b => max k (f b)) k = k ∨ ∃ b ∈ l, l.foldl (fun k b => max k (f b)) k = f b := by
  refine foldlRecOn (motive := fun m => m = k ∨ ∃ b ∈ l, m = f b) l _ (.inl rfl) fun m hm b hb => ?_
  rcases Nat.le_total (f b) m with hle | hle
  · rwa [Nat.max_eq_left hle]
  · exact .inr ⟨b, hb, Nat.max_eq_right hle⟩

theorem one_add_explore_le (limit n : Nat) (hstop : stop a = false) (hb : b ∈ next a) :
    1 + explore next stop limit n b ≤ explore next stop limit (n + 1) a := by
  rw [explore, hstop, if_neg Bool.false_ne_true]
  exact (le_foldl_max (f := fun b => 1 + explore next stop limit n b) (next a) 0).2 b hb

/-- The search finds the limit if it can come to a place of `stop`. -/
theorem limit_le_explore (n : Nat) (hs : Steps (fun x y => y ∈ next x) m a b) (hb : stop b = true) :
    limit ≤ explore next stop limit n a := by
  induction n generalizing m a with
  | zero => exact Nat.le_refl limit
  | succ n ih =>
    cases hstop : stop a with
    | true => simp [explore, hstop]
    | false =>
      cases hs with
      | refl =>
        rw [hstop] at hb
        cases hb
      | head hr hs =>
        have := ih hs
        have := one_add_explore_le limit n hstop hr
        omega

/-- Otherwise it finds the length of the longest path, if its depth suffices. -/
theorem explore_longest (limit : Nat) (hstop : ∀ m b, Steps (fun x y => y ∈ next x) m a b → stop b = false)
    (hdepth : ∀ m b, Steps (fun x y => y ∈ next x) m a b → m < n) :
    (∃ b, Steps (fun x y => y ∈ next x) (explore next stop limit n a) a b) ∧
      ∀ m b, Steps (fun x y => y ∈ next x) m a b → m ≤ explore next stop limit n a := by
  induction n generalizing a with
  | zero => exact absurd (hdepth 0 a (.refl a)) (Nat.not_lt_zero 0)
  | succ n ih =>
    have ha := hstop 0 a (.refl a)
    have hnext : ∀ b ∈ next a, (∃ c, Steps (fun x y => y ∈ next x) (explore next stop limit n b) b c) ∧
        ∀ m c, Steps (fun x y => y ∈ next x) m b c → m ≤ explore next stop limit n b := by
      intro b hb
      apply ih
      · intro m c hs
        exact hstop (m + 1) c (.head hb hs)
      · intro m c hs
        have := hdepth (m + 1) c (.head hb hs)
        omega
    constructor
    · rw [explore, ha, if_neg Bool.false_ne_true]
      rcases foldl_max_eq (next a) 0 with h | ⟨b, hb, h⟩
      · exact ⟨a, by rw [h]; exact .refl a⟩
      · obtain ⟨c, hc⟩ := (hnext b hb).1
        refine ⟨c, ?_⟩
        rw [h, Nat.add_comm]
        exact .head hb hc
    · intro m c hs
      cases hs with
      | refl => exact Nat.zero_le _
      | @head _ b _ m hr hs =>
        have := (hnext b hr).2 m c hs
        have := one_add_explore_le limit n ha hr
        omega

end explore

end Mos.Lib
