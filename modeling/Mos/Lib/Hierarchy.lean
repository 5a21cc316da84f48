import Mathlib.Logic.Relation

/-!
# Rooted hierarchies

`E d c` says that the node `d` has an entry for `c`.  Some nodes are branches: only they have entries, and they are
named by one node at most, while a leaf may be named by several.  If each node with entries can be reached from the
root and no entry names the root, the branches form a tree.  The lemmas say which changes of the entries keep this.
-/

namespace Mos.Lib

open Relation TransGen

variable {ι : Type*} {r : ι} {E E' : ι → ι → Prop} {branch branch' : ι → Prop}

structure Hierarchy (r : ι) (E : ι → ι → Prop) (branch : ι → Prop) : Prop where
  rooted : ∀ {d c}, E d c → ReflTransGen E r d
  root_free : ∀ d, ¬E d r
  branches : ∀ {d c}, E d c → branch d
  single : ∀ {d d' c}, branch c → E d c → E d' c → d = d'

variable {d c p x : ι}

namespace Hierarchy

section

variable (h : Hierarchy r E branch)

include h

theorem reach_child (he : E d c) : ReflTransGen E r c := (h.rooted he).tail he

/-- A node on a cycle would have its only parent on it, and so on up to the root. -/
theorem acyclic (x : ι) : ¬TransGen E x x := by
  intro hx
  obtain ⟨y, hxy, -⟩ := head'_iff.1 hx
  have hreach := h.rooted hxy
  clear hxy
  induction hreach with
  | refl =>
    obtain ⟨d, -, hd⟩ := tail'_iff.1 hx
    exact h.root_free d hd
  | @tail d c _ hdc ih =>
    obtain ⟨d', hd', hlast⟩ := tail'_iff.1 hx
    obtain ⟨y, hy, -⟩ := head'_iff.1 hx
    obtain rfl := h.single (h.branches hy) hlast hdc
    exact ih (head' hdc hd')

theorem ne_of_edge (he : E d c) : d ≠ c := by
  rintro rfl
  exact h.acyclic d (.single he)

/-- Which nodes are branches matters only for those that take part. -/
theorem congr_branch
    (hb : ∀ {d c}, E d c → (branch d → branch' d) ∧ (branch' c → branch c)) : Hierarchy r E branch' where
  rooted := h.rooted
  root_free := h.root_free
  branches he := (hb he).1 (h.branches he)
  single hc he he' := h.single ((hb he).2 hc) he he'

/-- One more entry of a branch: of a node that is not named yet, or of a leaf. -/
theorem add (hE : ∀ d c, E' d c ↔ E d c ∨ d = p ∧ c = x) (hp : ReflTransGen E r p)
    (hb : branch p) (hx : x ≠ r) (hnew : branch x → ∀ d, ¬E d x) : Hierarchy r E' branch := by
  have hmono : ∀ {a b}, ReflTransGen E a b → ReflTransGen E' a b :=
    ReflTransGen.mono (fun d c hdc => (hE d c).mpr (.inl hdc)) _ _
  constructor
  · intro d c he
    rcases (hE d c).mp he with he | ⟨rfl, -⟩
    · exact hmono (h.rooted he)
    · exact hmono hp
  · intro d he
    rcases (hE d r).mp he with he | ⟨-, rfl⟩
    · exact h.root_free d he
    · exact hx rfl
  · intro d c he
    rcases (hE d c).mp he with he | ⟨rfl, -⟩
    · exact h.branches he
    · exact hb
  · intro d d' c hc he he'
    rcases (hE d c).mp he with he | ⟨rfl, rfl⟩
    · rcases (hE d' c).mp he' with he' | ⟨-, rfl⟩
      · exact h.single hc he he'
      · exact absurd he (hnew hc d)
    · rcases (hE d' c).mp he' with he' | ⟨rfl, -⟩
      · exact absurd he' (hnew hc d')
      · rfl

end

/-- Without the entries of a node that has none itself, the others are still reached. -/
theorem reach_prune {y : ι} (hy : ReflTransGen E r y) (hge : ∀ {d c}, E d c → E' d c ∨ c = x) (hx : ∀ c, ¬E x c)
    (hne : y ≠ x) : ReflTransGen E' r y := by
  induction hy with
  | refl => exact .refl
  | @tail d c _ hdc ih =>
    have hd : d ≠ x := by
      rintro rfl
      exact hx c hdc
    rcases hge hdc with hdc | rfl
    · exact (ih hd).tail hdc
    · exact absurd rfl hne

theorem prune (h : Hierarchy r E branch) (hle : ∀ {d c}, E' d c → E d c) (hge : ∀ {d c}, E d c → E' d c ∨ c = x)
    (hx : ∀ c, ¬E x c) : Hierarchy r E' branch := by
  constructor
  · intro d c he
    refine reach_prune (h.rooted (hle he)) hge hx ?_
    rintro rfl
    exact hx c (hle he)
  · exact fun d he => h.root_free d (hle he)
  · exact fun he => h.branches (hle he)
  · exact fun hc he he' => h.single hc (hle he) (hle he')

/-- A node is moved, with all that is below it, to a branch that is not below it. -/
theorem move (h : Hierarchy r E branch) (hle : ∀ {d c}, E' d c → E d c ∨ d = p ∧ c = x)
    (hge : ∀ {d c}, E d c → E' d c ∨ c = x) (hnew : E' p x) (hp : ReflTransGen E r p) (hb : branch p) (hxr : x ≠ r)
    (hbelow : ¬ReflTransGen E x p) (honly : branch x → ∀ d, E' d x → d = p) : Hierarchy r E' branch := by
  -- what is not below the node keeps its path
  have haway : ∀ {y}, ReflTransGen E r y → ¬ReflTransGen E x y → ReflTransGen E' r y := by
    intro y hy
    induction hy with
    | refl => exact fun _ => .refl
    | @tail d c _ hdc ih =>
      intro hc
      rcases hge hdc with hdc' | rfl
      · exact (ih fun hd => hc (hd.tail hdc)).tail hdc'
      · exact absurd .refl hc
  have hx : ReflTransGen E' r x := (haway hp hbelow).tail hnew
  have hall : ∀ {y}, ReflTransGen E r y → ReflTransGen E' r y := by
    intro y hy
    induction hy with
    | refl => exact .refl
    | @tail d c _ hdc ih =>
      rcases hge hdc with hdc | rfl
      · exact ih.tail hdc
      · exact hx
  constructor
  · intro d c he
    rcases hle he with he | ⟨rfl, -⟩
    · exact hall (h.rooted he)
    · exact hall hp
  · intro d he
    rcases hle he with he | ⟨-, rfl⟩
    · exact h.root_free d he
    · exact hxr rfl
  · intro d c he
    rcases hle he with he | ⟨rfl, -⟩
    · exact h.branches he
    · exact hb
  · intro d d' c hc he he'
    by_cases hcx : c = x
    · subst hcx
      rw [honly hc d he, honly hc d' he']
    · have hold : ∀ {d}, E' d c → E d c := fun he => (hle he).resolve_right fun hn => hcx hn.2
      exact h.single hc (hold he) (hold he')

end Hierarchy

end Mos.Lib
