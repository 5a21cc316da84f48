import Mos.Lib.Path
import Mathlib.Computability.Language

/-!
# Glob patterns

`strglob_impl` of `src/lib/impl/kstring.c` parses the pattern while it matches.  A pattern denotes a language: every
`?`, class and literal a set of characters, and a star all texts.  A class that is not closed ends with the pattern,
and an escape at the end matches nothing.
-/

namespace Mos.Klib

open Lib List

/-- The loop of `match_class`: the result so far, and what is left of the pattern. -/
def classLoop (c : Char) : Str → Bool → Bool × Str
  | [], matched => (matched, [])
  | ']' :: pat, matched => (matched, pat)
  | x :: '-' :: y :: pat, matched =>
    if y = ']' then classLoop c ('-' :: y :: pat) (matched || c = x) else classLoop c pat (matched || x ≤ c && c ≤ y)
  | x :: pat, matched => classLoop c pat (matched || c = x)

def negated (pat : Str) : Bool := pat.head? = some '!' || pat.head? = some '^'

def classBody (pat : Str) : Str := if negated pat then pat.tail else pat

def matchClass (c : Char) (pat : Str) : Bool × Str :=
  let r := classLoop c (classBody pat) false
  (if negated pat then !r.1 else r.1, r.2)

/-- The loop that tries the rest of a pattern at every position. -/
def anchor (impl : Str → Bool) : Str → Bool
  | [] => impl []
  | c :: str => impl (c :: str) || anchor impl str

private theorem classLoop_length (c : Char) (pat : Str) (m : Bool) : (classLoop c pat m).2.length ≤ pat.length := by
  fun_induction classLoop c pat m <;> simp_all <;> omega

private theorem matchClass_length (c : Char) (pat : Str) : (matchClass c pat).2.length ≤ pat.length := by
  refine (classLoop_length ..).trans ?_
  unfold classBody
  split <;> simp

def strglobImpl : Str → Str → Bool
  | [], str => str.isEmpty
  | '*' :: pat, str =>
    let rest := pat.dropWhile (· = '*')
    if rest.isEmpty then true else anchor (strglobImpl rest) str
  | '?' :: pat, str =>
    match str with
    | [] => false
    | _ :: str => strglobImpl pat str
  | '[' :: pat, str =>
    match str with
    | [] => false
    | c :: str => (matchClass c pat).1 && strglobImpl (matchClass c pat).2 str
  | ['\\'], _ => false
  | '\\' :: x :: pat, str =>
    match str with
    | [] => false
    | c :: str => x = c && strglobImpl pat str
  | x :: pat, str =>
    match str with
    | [] => false
    | c :: str => x = c && strglobImpl pat str
termination_by pat => pat.length
decreasing_by
  · exact Nat.lt_succ_of_le (dropWhile_sublist _).length_le
  · exact Nat.lt_succ_self _
  · exact Nat.lt_succ_of_le (matchClass_length _ _)
  all_goals grind

/-- The ranges of characters in a class, and what is behind it. -/
def parseClass : Str → List (Char × Char) × Str
  | [] => ([], [])
  | ']' :: pat => ([], pat)
  | x :: '-' :: y :: pat =>
    if y = ']' then (parseClass ('-' :: y :: pat)).map (cons (x, x)) id else (parseClass pat).map (cons (x, y)) id
  | x :: pat => (parseClass pat).map (cons (x, x)) id

/-- The texts of one character out of a set. -/
def one (S : Char → Prop) : Language Char := { str | ∃ c, S c ∧ str = [c] }

private theorem classLoop_eq (c : Char) (pat : Str) (m : Bool) :
    classLoop c pat m = (m || (parseClass pat).1.any fun r => r.1 ≤ c && c ≤ r.2, (parseClass pat).2) := by
  have hsame : ∀ x, decide (c = x) = (decide (x ≤ c) && decide (c ≤ x)) := by
    intro x
    rw [← Bool.decide_and, decide_eq_decide]
    exact ⟨by rintro rfl; simp, fun h => Char.le_antisymm h.2 h.1⟩
  fun_induction classLoop c pat m with
  | case1 | case2 => simp [parseClass]
  | case3 x pat m h ih =>
    rw [ih, parseClass, if_pos rfl]
    · simp [hsame, Bool.or_assoc]
    · exact h
  | case4 x y pat m h hy ih =>
    rw [ih, parseClass, if_neg hy]
    · simp [Bool.or_assoc]
    · exact h
  | case5 x pat m h1 h2 ih =>
    rw [ih, parseClass]
    · simp [hsame, Bool.or_assoc]
    · exact h1
    · exact h2

/-- The characters of a class: those in one of its ranges, or with a negation the others. -/
def InClass (pat : Str) (c : Char) : Prop :=
  (∃ r ∈ (parseClass (classBody pat)).1, r.1 ≤ c ∧ c ≤ r.2) ↔ negated pat = false

private theorem matchClass_spec (c : Char) (pat : Str) :
    ((matchClass c pat).1 = true ↔ InClass pat c) ∧ (matchClass c pat).2 = (parseClass (classBody pat)).2 := by
  unfold matchClass InClass
  rw [classLoop_eq]
  cases negated pat <;> simp

def language : Str → Language Char
  | [] => 1
  | '*' :: pat => ⊤ * language pat
  | '?' :: pat => one (fun _ => True) * language pat
  | '[' :: pat => one (InClass pat) * language (parseClass (classBody pat)).2
  | ['\\'] => 0
  | '\\' :: x :: pat => one (x = ·) * language pat
  | x :: pat => one (x = ·) * language pat
termination_by pat => pat.length
decreasing_by
  · exact Nat.lt_succ_self _
  · exact Nat.lt_succ_self _
  · exact Nat.lt_succ_of_le ((matchClass_spec ' ' pat).2 ▸ matchClass_length ' ' pat)
  all_goals grind

variable {S : Char → Prop} {L : Language Char} {c : Char} {pat str : Str}

private theorem cons_mem_one_mul : c :: str ∈ one S * L ↔ S c ∧ str ∈ L := by
  rw [Language.mem_mul]
  constructor
  · rintro ⟨_, ⟨c, hc, rfl⟩, s, hs, heq⟩
    cases heq
    exact ⟨hc, hs⟩
  · rintro ⟨hc, hs⟩
    exact ⟨[c], ⟨c, hc, rfl⟩, str, hs, rfl⟩

theorem nil_notMem_one_mul : [] ∉ one S * L := by
  rintro ⟨_, ⟨c, -, rfl⟩, s, -, heq⟩
  cases heq

theorem mem_top_mul : str ∈ ⊤ * L ↔ ∃ v ∈ L, v <:+ str := by
  rw [Language.mem_mul]
  constructor
  · rintro ⟨u, -, v, hv, rfl⟩
    exact ⟨v, hv, u, rfl⟩
  · rintro ⟨v, hv, u, rfl⟩
    exact ⟨u, trivial, v, hv, rfl⟩

theorem anchor_iff {impl : Str → Bool} : anchor impl str = true ↔ ∃ v, impl v = true ∧ v <:+ str := by
  induction str with
  | nil => simp [anchor]
  | cons c str ih =>
    simp only [anchor, Bool.or_eq_true, ih, suffix_cons_iff]
    grind

/-- Further stars make no difference. -/
theorem mem_star : str ∈ language ('*' :: pat) ↔ str ∈ ⊤ * language (pat.dropWhile (· = '*')) := by
  rw [language]
  induction pat with
  | nil => rfl
  | cons x pat ih =>
    by_cases hx : x = '*'
    · rw [hx, dropWhile_cons_of_pos (by rfl), ← ih, language]
      simp only [mem_top_mul]
      constructor
      · rintro ⟨v, ⟨u, hu, huv⟩, hv⟩
        exact ⟨u, hu, huv.trans hv⟩
      · rintro ⟨u, hu, hus⟩
        exact ⟨u, ⟨u, hu, suffix_refl u⟩, hus⟩
    · rw [dropWhile_cons_of_neg (by simpa using hx)]

/-- The matcher decides the language of its pattern. -/
theorem strglob_iff (pat str : Str) : strglobImpl pat str = true ↔ str ∈ language pat := by
  fun_induction strglobImpl pat str with
  | case1 | case8 => simp [language]
  | case2 pat str rest hrest =>
    have hnil : pat.dropWhile (· = '*') = [] := isEmpty_iff.1 hrest
    rw [mem_star, hnil, mem_top_mul]
    simp [language]
  | case3 pat str rest hrest ih => simp only [anchor_iff, ih, mem_star, mem_top_mul, rest]
  | case4 | case6 | case9 | case11 => simp [language, nil_notMem_one_mul]
  | case7 => simp_all [language, cons_mem_one_mul, matchClass_spec]
  | case5 | case10 | case12 => simp_all [language, cons_mem_one_mul]

end Mos.Klib
