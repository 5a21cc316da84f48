import Mathlib.Logic.Basic

/-!
# Runs of a labelled transition system

A system is a relation `step : σ → ε → σ → Prop`; `Run step s tr t` is a finite run from `s` to `t` that performs the
labels `tr` in this order.  An invariant may speak about the labels performed so far (`Run.invariant`), and a fact
about a step in the middle of a run is obtained by splitting the run there (`Run.split`).
-/

namespace Mos.Lib

open List

variable {σ ε : Type*} {step : σ → ε → σ → Prop}

inductive Run (step : σ → ε → σ → Prop) (s : σ) : List ε → σ → Prop
  | nil : Run step s [] s
  | snoc {tr : List ε} {t u : σ} {e : ε} : Run step s tr t → step t e u → Run step s (tr ++ [e]) u

variable {s t u : σ} {tr tr' : List ε} {e : ε} {f : σ → ε → Option σ}

namespace Run

/-- The invariant rule: a property of the labels so far and the current state that holds at the start and is kept by
every step taken from a reached state holds at the end of every run. -/
theorem invariant (Inv : List ε → σ → Prop) (h : Run step s tr t) (h0 : Inv [] s)
    (hstep : ∀ tr t e u, Run step s tr t → Inv tr t → step t e u → Inv (tr ++ [e]) u) : Inv tr t := by
  induction h with
  | nil => exact h0
  | snoc hr hs ih => exact hstep _ _ _ _ hr ih hs

theorem invariant_state (Inv : σ → Prop) (h : Run step s tr t) (h0 : Inv s)
    (hstep : ∀ t e u, Inv t → step t e u → Inv u) : Inv t :=
  invariant (fun _ s => Inv s) h h0 (fun _ t e u _ hi hs => hstep t e u hi hs)

theorem append (h : Run step s tr t) (h' : Run step t tr' u) : Run step s (tr ++ tr') u := by
  induction h' with
  | nil => simpa using h
  | snoc _ hs ih => rw [← append_assoc]; exact ih.snoc hs

theorem single (h : step s e t) : Run step s [e] t := nil.snoc h

theorem imp {step' : σ → ε → σ → Prop} (h : Run step s tr t)
    (himp : ∀ s t, ∀ e ∈ tr, step s e t → step' s e t) : Run step' s tr t := by
  induction h with
  | nil => exact .nil
  | snoc _ hs ih =>
    exact (ih fun s t e he => himp s t e (mem_append_left _ he)).snoc
      (himp _ _ _ (mem_append_right _ mem_cons_self) hs)

/-- Steps that are computed one after another make a run. -/
theorem of_foldlM (hf : ∀ e ∈ tr, ∀ s t, f s e = some t → step s e t)
    (h : tr.foldlM f s = some t) : Run step s tr t := by
  induction tr generalizing s with
  | nil =>
    cases h
    exact .nil
  | cons e tr ih =>
    rw [foldlM_cons, Option.bind_eq_bind, Option.bind_eq_some_iff] at h
    obtain ⟨s1, h1, h2⟩ := h
    exact (single (hf e mem_cons_self s s1 h1)).append (ih (fun x hx => hf x (mem_cons_of_mem _ hx)) h2)

theorem exists_of_foldlM (hf : ∀ e ∈ tr, ∀ s t, f s e = some t → step s e t)
    {P : σ → Bool} (h : (tr.foldlM f s).any P = true) : ∃ t, Run step s tr t ∧ P t = true := by
  cases hx : tr.foldlM f s with
  | none =>
    rw [hx] at h
    cases h
  | some t =>
    rw [hx] at h
    exact ⟨t, of_foldlM hf hx, h⟩

/-- The rule for a queue: if every step takes its outputs off the front of the queue and puts its inputs at the back,
then so does every run. -/
theorem conserved {α : Type*} (q : σ → List α) (i o : ε → List α) (Inv : σ → Prop) (h : Run step s tr t) (h0 : Inv s)
    (hstep : ∀ t e u, Inv t → step t e u → Inv u ∧ q t ++ i e = o e ++ q u) :
    Inv t ∧ q s ++ (tr.map i).flatten = (tr.map o).flatten ++ q t := by
  refine invariant (fun tr t => Inv t ∧ q s ++ (tr.map i).flatten = (tr.map o).flatten ++ q t) h ⟨h0, by simp⟩ ?_
  intro tr t e u _ ⟨hi, heq⟩ hs
  obtain ⟨hi', hq⟩ := hstep t e u hi hs
  refine ⟨hi', ?_⟩
  simp only [map_append, flatten_append, map_cons, map_nil, flatten_cons, flatten_nil, append_nil]
  rw [← append_assoc, heq, append_assoc, hq, ← append_assoc]

/-- A run that performs `e` in the middle passes through the two states around it. -/
theorem split (h : Run step s (tr ++ e :: tr') u) : ∃ t t', Run step s tr t ∧ step t e t' ∧ Run step t' tr' u := by
  generalize hl : tr ++ e :: tr' = l at h
  induction h generalizing tr' with
  | nil => simp at hl
  | @snoc l0 t v e0 hr hs ih =>
    rcases eq_nil_or_concat tr' with rfl | ⟨tr'', x, rfl⟩
    · obtain ⟨rfl, he⟩ := append_inj' hl rfl
      cases he
      exact ⟨t, v, hr, hs, nil⟩
    have hl' : (tr ++ e :: tr'') ++ [x] = l0 ++ [e0] := by simpa using hl
    obtain ⟨h1, h2⟩ := append_inj' hl' rfl
    cases h2
    obtain ⟨a, b, ha, hb, hc⟩ := ih h1
    exact ⟨a, b, ha, hb, by simpa using hc.snoc hs⟩

end Run

/-- Some label with `p` was performed, and none with `q` after it. -/
def Since (p q : ε → Prop) (tr : List ε) : Prop := ∃ tr₁ e tr₂, tr = tr₁ ++ e :: tr₂ ∧ p e ∧ ∀ x ∈ tr₂, ¬q x

variable {p q : ε → Prop}

theorem since_nil : ¬Since p q [] := by
  intro h
  obtain ⟨tr1, e, tr2, h, -⟩ := h
  simp at h

theorem since_snoc : Since p q (tr ++ [e]) ↔ p e ∨ ¬q e ∧ Since p q tr := by
  constructor
  · intro h
    obtain ⟨tr1, x, tr2, heq, hp, hq⟩ := h
    rcases eq_nil_or_concat tr2 with rfl | ⟨tr3, y, rfl⟩
    · obtain ⟨-, hx⟩ := append_inj' heq rfl
      cases hx
      exact .inl hp
    · have heq' : tr ++ [e] = (tr1 ++ x :: tr3) ++ [y] := by simpa using heq
      obtain ⟨rfl, hx⟩ := append_inj' heq' rfl
      cases hx
      exact .inr ⟨hq e (by simp), tr1, x, tr3, rfl, hp, fun z hz => hq z (by simp [hz])⟩
  · intro h
    rcases h with hp | ⟨hq, tr1, x, tr2, rfl, hp, hrest⟩
    · exact ⟨tr, e, [], rfl, hp, fun x hx => absurd hx not_mem_nil⟩
    · refine ⟨tr1, x, tr2 ++ [e], by simp, hp, ?_⟩
      exact forall_mem_append.2 ⟨hrest, forall_mem_singleton.2 hq⟩

/-- The rule for a loop over a list: a property `P` that every round keeps, and a property `Q x` that the round of `x`
establishes and the other rounds keep. -/
theorem foldl_loop {β : Type*} {f : σ → β → σ} {P : σ → Prop} {Q : β → σ → Prop} (l : List β)
    (hround : ∀ s, ∀ x ∈ l, P s → P (f s x) ∧ Q x (f s x)) (hkeep : ∀ s x y, P s → Q y s → Q y (f s x))
    (h : P s) : P (l.foldl f s) ∧ ∀ x ∈ l, Q x (l.foldl f s) := by
  -- what holds of some `y` before the loop holds of it after the loop
  suffices hall : P (l.foldl f s) ∧ (∀ y, Q y s → Q y (l.foldl f s)) ∧ ∀ x ∈ l, Q x (l.foldl f s) from
    ⟨hall.1, hall.2.2⟩
  induction l generalizing s with
  | nil => exact ⟨h, fun _ hy => hy, nofun⟩
  | cons x l ih =>
    obtain ⟨hp, hq⟩ := hround s x mem_cons_self h
    obtain ⟨h1, h2, h3⟩ := ih (fun s y hy => hround s y (mem_cons_of_mem _ hy)) hp
    exact ⟨h1, fun y hy => h2 y (hkeep s x y h hy), forall_mem_cons.2 ⟨h2 _ hq, h3⟩⟩

end Mos.Lib
