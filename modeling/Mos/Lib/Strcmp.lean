import Mos.Lib.Path

/-!
# Comparison of strings

`strcmp` compares two strings byte by byte; it is a linear order.  A key covers a path if it is made of whole
components of its front.
-/

namespace Mos.Lib

def strcmp : Str → Str → Ordering
  | [], [] => .eq
  | [], _ :: _ => .lt
  | _ :: _, [] => .gt
  | a :: s, b :: t => if a = b then strcmp s t else if a.toNat < b.toNat then .lt else .gt

theorem strcmp_eq_compare (s t : Str) : strcmp s t = compare s t := by
  induction s generalizing t with
  | nil => cases t <;> rfl
  | cons a s ih =>
    cases t with
    | nil => rfl
    | cons b t =>
      have hcmp : compare a b = if a < b then .lt else if a = b then .eq else .gt := rfl
      rw [List.compare_cons_cons, ← ih, strcmp, hcmp]
      by_cases hab : a = b
      · simp [hab]
      simp only [if_neg hab]
      by_cases hlt : a.toNat < b.toNat
      · rw [if_pos hlt, if_pos (show a < b from hlt)]
        rfl
      · rw [if_neg hlt, if_neg (show ¬a < b from hlt)]
        rfl

theorem strcmp_eq_iff {s t : Str} : strcmp s t = .eq ↔ s = t := by
  rw [strcmp_eq_compare, Std.LawfulEqCmp.compare_eq_iff_eq]

theorem strcmp_gt_iff {s t : Str} : strcmp s t = .gt ↔ strcmp t s = .lt := by
  rw [strcmp_eq_compare, strcmp_eq_compare, Std.OrientedCmp.gt_iff_lt]

theorem strcmp_lt_trans {s t u : Str} (h1 : strcmp s t = .lt) (h2 : strcmp t u = .lt) : strcmp s u = .lt := by
  rw [strcmp_eq_compare] at h1 h2 ⊢
  exact Std.TransCmp.lt_trans h1 h2

theorem strcmp_gt_trans {s t u : Str} (h1 : strcmp s t = .gt) (h2 : strcmp t u = .gt) : strcmp s u = .gt :=
  strcmp_gt_iff.2 (strcmp_lt_trans (strcmp_gt_iff.1 h2) (strcmp_gt_iff.1 h1))

/-- The key is the path, or the path goes on with a slash behind the key. -/
def Covers (key path : Str) : Prop := ∃ rest, path = key ++ rest ∧ (rest = [] ∨ rest.head? = some '/')

end Mos.Lib
