import Mathlib.Data.Nat.Bitwise
import Mathlib.Tactic

/-!
# Blocks of power-of-two size

A block of order `o` is `2 ^ o` consecutive numbers from `start`; it is aligned when `2 ^ o` divides `start`.  `cover
bs p` counts the blocks that contain `p`, so that cutting, joining and moving blocks become equations between covers.
The buddy of an aligned block is the other half of the aligned block of the next order, and is found by flipping one
bit (`buddy_cases`).
-/

namespace Mos.Lib

open List

structure Block where
  order : Nat
  start : Nat
  deriving DecidableEq

namespace Block

def size (b : Block) : Nat := 2 ^ b.order

def Covers (b : Block) (p : Nat) : Prop := b.start ≤ p ∧ p < b.start + 2 ^ b.order

instance (b : Block) (p : Nat) : Decidable (b.Covers p) := by
  unfold Covers
  infer_instance

def Aligned (b : Block) : Prop := 2 ^ b.order ∣ b.start

theorem covers_start (b : Block) : b.Covers b.start := ⟨le_rfl, Nat.lt_add_of_pos_right (Nat.two_pow_pos _)⟩

end Block

/-- How many of the blocks contain `p`. -/
def cover (bs : List Block) (p : Nat) : Nat := bs.countP fun b => decide (b.Covers p)

@[simp] theorem cover_nil (p : Nat) : cover [] p = 0 := rfl

theorem cover_cons (b : Block) (bs : List Block) (p : Nat) :
    cover (b :: bs) p = cover bs p + if b.Covers p then 1 else 0 := by
  unfold cover
  rw [countP_cons]
  simp

theorem cover_append (bs bs' : List Block) (p : Nat) : cover (bs ++ bs') p = cover bs p + cover bs' p :=
  countP_append

variable {bs : List Block} {p : Nat}

theorem cover_perm {bs' : List Block} (h : bs.Perm bs') (p : Nat) : cover bs p = cover bs' p := h.countP_eq _

theorem cover_pos {b : Block} (hb : b ∈ bs) (hp : b.Covers p) : 0 < cover bs p :=
  countP_pos_iff.2 ⟨b, hb, by simpa using hp⟩

theorem exists_of_cover_pos (h : 0 < cover bs p) : ∃ b ∈ bs, b.Covers p := by
  obtain ⟨b, hb, hp⟩ := countP_pos_iff.1 h
  exact ⟨b, hb, by simpa using hp⟩

theorem covers_succ (o i p : Nat) : (if (⟨o + 1, i⟩ : Block).Covers p then 1 else 0) =
      (if (⟨o, i⟩ : Block).Covers p then 1 else 0) + if (⟨o, i + 2 ^ o⟩ : Block).Covers p then 1 else 0 := by
  have hpow : 2 ^ (o + 1) = 2 ^ o + 2 ^ o := by rw [Nat.pow_succ]; omega
  have hiff : (⟨o + 1, i⟩ : Block).Covers p ↔ (⟨o, i⟩ : Block).Covers p ∨ (⟨o, i + 2 ^ o⟩ : Block).Covers p := by
    simp only [Block.Covers, hpow]
    omega
  have hnot : (⟨o, i⟩ : Block).Covers p → ¬(⟨o, i + 2 ^ o⟩ : Block).Covers p := by
    simp only [Block.Covers]
    omega
  by_cases hlow : (⟨o, i⟩ : Block).Covers p
  · rw [if_pos (hiff.2 (.inl hlow)), if_pos hlow, if_neg (hnot hlow)]
  · by_cases hhigh : (⟨o, i + 2 ^ o⟩ : Block).Covers p
    · rw [if_pos (hiff.2 (.inr hhigh)), if_neg hlow, if_pos hhigh]
    · rw [if_neg fun h => (hiff.1 h).elim hlow hhigh, if_neg hlow, if_neg hhigh]

theorem eq_of_cover_le_one (h : cover bs p ≤ 1) {b b' : Block} (hb : b ∈ bs) (hb' : b' ∈ bs)
    (hp : b.Covers p) (hp' : b'.Covers p) : b = b' := by
  induction bs with
  | nil => cases hb
  | cons c bs ih =>
    rw [cover_cons] at h
    rcases mem_cons.1 hb with h1 | h1 <;> rcases mem_cons.1 hb' with h2 | h2
    · rw [h1, h2]
    · have := cover_pos h2 hp'
      rw [if_pos (h1 ▸ hp)] at h
      omega
    · have := cover_pos h1 hp
      rw [if_pos (h2 ▸ hp')] at h
      omega
    · exact ih (by omega) h1 h2

theorem pairwise_of_cover_le_one (h : ∀ p, cover bs p ≤ 1) : bs.Pairwise fun a b => ∀ p, a.Covers p →
    ¬b.Covers p := by
  induction bs with
  | nil => exact List.Pairwise.nil
  | cons b bs ih =>
    refine List.Pairwise.cons (fun c hc p hb hcp => ?_) (ih fun p => ?_)
    · have h1 := h p
      have h2 := cover_pos hc hcp
      rw [cover_cons, if_pos hb] at h1
      omega
    · have h1 := h p
      rw [cover_cons] at h1
      omega

theorem cover_le_one_of_pairwise (h : bs.Pairwise fun a b => ∀ p, a.Covers p → ¬b.Covers p) (p : Nat) :
    cover bs p ≤ 1 := by
  induction h with
  | nil => exact Nat.zero_le 1
  | @cons b bs hb _ ih =>
    rw [cover_cons]
    by_cases hp : b.Covers p
    · have hnone : cover bs p = 0 := List.countP_eq_zero.2 fun c hc hcp => hb c hc p hp (of_decide_eq_true hcp)
      rw [hnone, if_pos hp]
    · rw [if_neg hp]
      exact ih

theorem sum_size_eq {n : Nat} (h : ∀ b ∈ bs, b.start + b.size ≤ n) :
    (bs.map Block.size).sum = ∑ p ∈ Finset.range n, cover bs p := by
  induction bs with
  | nil => simp
  | cons b bs ih =>
    have hb := h b mem_cons_self
    have hcard : ∑ p ∈ Finset.range n, (if b.Covers p then 1 else 0) = b.size := by
      rw [← Finset.card_filter]
      have hfilter : Finset.filter b.Covers (Finset.range n) = Finset.Ico b.start (b.start + b.size) := by
        ext p
        simp only [Finset.mem_filter, Finset.mem_range, Finset.mem_Ico, Block.Covers, Block.size] at hb ⊢
        omega
      rw [hfilter, Nat.card_Ico]
      omega
    simp only [cover_cons]
    rw [map_cons, sum_cons, ih fun c hc => h c (mem_cons_of_mem _ hc), Finset.sum_add_distrib, hcard, Nat.add_comm]

/-- The start of the buddy of the block of order `o` at `i`. -/
def buddy (o i : Nat) : Nat := i ^^^ 2 ^ o

/-- An aligned block is the lower or the upper half of the next larger aligned block. -/
theorem buddy_cases {o i : Nat} (h : 2 ^ o ∣ i) :
    (2 ^ (o + 1) ∣ i ∧ buddy o i = i + 2 ^ o) ∨ (2 ^ o ≤ i ∧ 2 ^ (o + 1) ∣ i - 2 ^ o ∧ buddy o i = i - 2 ^ o) := by
  obtain ⟨q, rfl⟩ := h
  have hx : buddy o (2 ^ o * q) = 2 ^ o * (q ^^^ 1) := by
    have hs := Nat.shiftLeft_xor_distrib (a := q) (b := 1) (i := o)
    simp only [Nat.shiftLeft_eq, Nat.one_mul] at hs
    rw [buddy, Nat.mul_comm, ← hs, Nat.mul_comm]
  rcases Nat.even_or_odd q with hq | hq
  · left
    refine ⟨?_, ?_⟩
    · rw [Nat.pow_succ]
      exact Nat.mul_dvd_mul_left _ hq.two_dvd
    · rw [hx, Nat.xor_one_of_even hq, Nat.mul_add, Nat.mul_one]
  right
  obtain ⟨k, rfl⟩ := hq
  have hsub : 2 ^ o * (2 * k + 1) - 2 ^ o = 2 ^ o * 2 * k := by
    rw [Nat.mul_add, Nat.mul_one, Nat.add_sub_cancel, Nat.mul_assoc]
  refine ⟨?_, ?_, ?_⟩
  · exact Nat.le_mul_of_pos_right _ (by omega)
  · rw [hsub, Nat.pow_succ]
    exact Nat.dvd_mul_right _ _
  · rw [hx, Nat.xor_one_of_odd ⟨k, rfl⟩, Nat.add_sub_cancel, hsub, Nat.mul_assoc]

/-! ### Merged blocks -/

open Block

variable {bs' : List Block} {b c : Block} {q o i top : Nat}

theorem Block.Aligned.covers_iff (hb : b.Aligned) : b.Covers p ↔ b.start = p / 2 ^ b.order * 2 ^ b.order := by
  obtain ⟨k, hk⟩ := hb
  have hpos := Nat.two_pow_pos b.order
  rw [Covers, hk, Nat.mul_comm, Nat.mul_left_inj hpos.ne', eq_comm, Nat.div_eq_iff hpos]
  omega

/-- Aligned blocks that meet are nested. -/
theorem covers_of_le (hb : b.Aligned) (hc : c.Aligned) (hle : b.order ≤ c.order) (hp : b.Covers p) (hp' : c.Covers p)
    (hq : b.Covers q) : c.Covers q := by
  obtain ⟨d, hd⟩ := Nat.exists_eq_add_of_le hle
  rw [hb.covers_iff] at hp hq
  rw [hc.covers_iff, hd, Nat.pow_add, ← Nat.div_div_eq_div_mul] at hp' ⊢
  rw [hp', Nat.mul_right_cancel (Nat.two_pow_pos _) (hp.symm.trans hq)]

/-- Disjoint aligned blocks up to an order, without both halves of a block up to that order. -/
structure Merged (top : Nat) (bs : List Block) : Prop where
  aligned : ∀ b ∈ bs, b.Aligned
  order_le : ∀ b ∈ bs, b.order ≤ top
  once : ∀ p, cover bs p ≤ 1
  halves : ∀ o < top, ∀ i, 2 ^ (o + 1) ∣ i → ⟨o, i⟩ ∈ bs → ⟨o, i + 2 ^ o⟩ ∉ bs

theorem Merged.mem (h : Merged top bs) (hb : b ∈ bs) (ho : b.order = o) (hi : 2 ^ o ∣ i) (hp : b.Covers i) :
    ⟨o, i⟩ ∈ bs := by
  subst ho
  rw [(h.aligned b hb).covers_iff, Nat.div_mul_cancel hi] at hp
  exact hp ▸ hb

/-- A block that is covered is inside one of them. -/
theorem Merged.exists_inside (h : Merged top bs) (ho : o ≤ top) (hi : 2 ^ o ∣ i)
    (hcov : ∀ p, (⟨o, i⟩ : Block).Covers p → 0 < cover bs p) : ∃ b ∈ bs, o ≤ b.order ∧ b.Covers i := by
  induction o generalizing i with
  | zero =>
    obtain ⟨b, hb, hp⟩ := exists_of_cover_pos (hcov i (covers_start _))
    exact ⟨b, hb, Nat.zero_le _, hp⟩
  | succ o ih =>
    have hlow : 2 ^ o ∣ i := (Nat.pow_dvd_pow 2 (Nat.le_succ o)).trans hi
    have hhigh : 2 ^ o ∣ i + 2 ^ o := Nat.dvd_add hlow (dvd_refl _)
    obtain ⟨b, hb, hob, hbi⟩ := ih (by omega) hlow fun p hp => hcov p (by grind [Covers])
    obtain ⟨c, hc, hoc, hci⟩ := ih (by omega) hhigh fun p hp => hcov p (by grind [Covers])
    rcases hob.lt_or_eq with hlt | rfl
    · exact ⟨b, hb, hlt, hbi⟩
    rcases hoc.lt_or_eq with hlt | heq
    · exact ⟨c, hc, hlt, covers_of_le (b := ⟨_, i⟩) hi (h.aligned c hc) hlt (by grind [Covers]) hci (covers_start _)⟩
    · exact absurd (h.mem hc heq.symm hhigh hci) (h.halves _ ho i hi (h.mem hb rfl hlow hbi))

/-- Such blocks are determined by what they cover. -/
theorem Merged.subset (h : Merged top bs) (h' : Merged top bs') (heq : ∀ p, cover bs p = cover bs' p) : bs ⊆ bs' := by
  intro b hb
  obtain ⟨c, hc, hbc, hcb⟩ := h'.exists_inside (h.order_le b hb) (h.aligned b hb) fun p hp => heq p ▸ cover_pos hb hp
  obtain ⟨d, hd, hcd, hdc⟩ := h.exists_inside (h'.order_le c hc) (h'.aligned c hc) fun p hp => heq p ▸ cover_pos hc hp
  have hdb := covers_of_le (h'.aligned c hc) (h.aligned d hd) hcd c.covers_start hdc hcb
  obtain rfl := eq_of_cover_le_one (h.once _) hb hd b.covers_start hdb
  exact h'.mem hc (hcd.antisymm hbc) (h.aligned b hb) hcb

end Mos.Lib
