import Mathlib.Tactic.NormNum

/-!
# Fixed-width unsigned arithmetic

Unsigned machine words of width `w` as natural numbers: `addW` and `subW` wrap around at `2 ^ w`, and agree with the
operations on natural numbers where these stay in range.
-/

namespace Mos.Lib

def addW (w a b : Nat) : Nat := (a + b) % 2 ^ w

def subW (w a b : Nat) : Nat := (a + (2 ^ w - b % 2 ^ w)) % 2 ^ w

theorem addW_eq {w a b : Nat} (h : a + b < 2 ^ w) : addW w a b = a + b := Nat.mod_eq_of_lt h

theorem subW_eq {w a b : Nat} (hb : b ≤ a) (ha : a < 2 ^ w) : subW w a b = a - b := by
  unfold subW
  rw [Nat.mod_eq_of_lt (show b < 2 ^ w by omega), show a + (2 ^ w - b) = a - b + 2 ^ w by omega,
    Nat.add_mod_right, Nat.mod_eq_of_lt (by omega)]

theorem addW_mod (w a b : Nat) : addW w (a % 2 ^ w) b = (a + b) % 2 ^ w := by
  unfold addW
  rw [Nat.mod_add_mod]

theorem subW_mod (w a b : Nat) : subW w ((a + b) % 2 ^ w) b = a % 2 ^ w := by
  unfold subW
  have hb := Nat.div_add_mod b (2 ^ w)
  rw [Nat.mod_add_mod, show a + b + (2 ^ w - b % 2 ^ w) = a + 2 ^ w * (b / 2 ^ w + 1) by rw [Nat.mul_add]; omega,
    Nat.add_mul_mod_self_left]

/-- The signed value of an unsigned word. -/
def toSigned (w a : Nat) : Int := if a < 2 ^ (w - 1) then a else (a : Int) - 2 ^ w

theorem toSigned_of_lt {w a : Nat} (h : a < 2 ^ (w - 1)) : toSigned w a = a := if_pos h

theorem find_getLsbD {n : Nat} {x : BitVec n} (h : x ≠ 0) :
    ((List.range n).find? x.getLsbD).getD n < n ∧ x.getLsbD (((List.range n).find? x.getLsbD).getD n) = true := by
  cases hf : (List.range n).find? x.getLsbD with
  | none =>
    refine absurd (BitVec.eq_of_getLsbD_eq fun i hi => ?_) h
    have := List.find?_eq_none.1 hf i (List.mem_range.2 hi)
    simpa using this
  | some i => exact ⟨List.mem_range.1 (List.mem_of_find?_eq_some hf), List.find?_some hf⟩

end Mos.Lib
