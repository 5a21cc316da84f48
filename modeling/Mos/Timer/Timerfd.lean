import Mathlib.Tactic.Ring

/-!
# Timer descriptors

`timerfd_update`, `timerfd_take` and the arming in `timerfd_control` of `src/fs/impl/timerfd.c`.  Times are
nanoseconds in 64 bits.  `timerfd_poll`, `timerfd_get` and the tick of the clock only update the state before they
look at it.
-/

namespace Mos.Timer

def max64 : Nat := 2 ^ 64 - 1

structure Timerfd where
  due : Nat
  interval : Nat
  ticks : Nat := 0
  generation : Nat
  cancelOnSet : Bool
  canceled : Bool := false

/-- `timerfd_update`, with the time and the generation of the clock that it reads. -/
def timerfdUpdate (s : Timerfd) (now generation : Nat) : Timerfd :=
  if s.cancelOnSet ∧ generation ≠ s.generation then
    { s with generation := generation, canceled := true, ticks := 0, due := 0 }
  else if s.due = 0 ∨ s.due > now then s
  else
    let count := 1 + if s.interval = 0 then 0 else (now - s.due) / s.interval
    let remaining := s.interval - (now - s.due) % s.interval
    { s with
      due := if s.interval = 0 ∨ remaining > max64 - now then 0 else now + remaining
      ticks := if count > max64 - s.ticks then max64 else s.ticks + count }

/-- `timerfd_take`: the result, and the ticks that are taken. -/
def timerfdTake (s : Timerfd) (now generation : Nat) : Int × Nat × Timerfd :=
  let s := timerfdUpdate s now generation
  if s.canceled then (-125, 0, { s with canceled := false })
  else if s.ticks ≠ 0 then (8, s.ticks, { s with ticks := 0 })
  else (0, 0, s)

/-- The state that `timerfd_control` sets at `now`, before it updates it. -/
def timerfdArm (now generation : Nat) (absolute cancelOnSet : Bool) (due interval : Nat) : Option Timerfd :=
  if !absolute ∧ due > max64 - now then none
  else some {
    due := if due = 0 then 0 else if absolute then due else now + due
    interval, generation, cancelOnSet }

/-- An armed timer with the first expiry `D` and the interval `I` at the time `t`, unless the clock is set, with the
ticks that reads have returned and those that a read took that could not write its buffer. -/
inductive Used (D I : Nat) : Nat → Nat → Nat → Timerfd → Prop
  | arm (now t generation due : Nat) (absolute cancelOnSet : Bool) {s : Timerfd}
      (harm : timerfdArm now generation absolute cancelOnSet due I = some s) (hD : s.due = D) (hpos : 0 < D)
      (h64 : D ≤ max64) (ht : t ≤ max64) : Used D I t 0 0 (timerfdUpdate s t generation)
  | update {t t' g returned lost : Nat} {s : Timerfd} (h : Used D I t returned lost s) (hle : t ≤ t')
      (ht : t' ≤ max64)
      (hg : s.cancelOnSet → g = s.generation) : Used D I t' returned lost (timerfdUpdate s t' g)
  | read {t t' g returned lost k : Nat} {r : Int} {s s' : Timerfd} (writable : Bool) (h : Used D I t returned lost s)
      (hle : t ≤ t') (ht : t' ≤ max64) (hg : s.cancelOnSet → g = s.generation)
        (htake : timerfdTake s t' g = (r, k, s')) :
      Used D I t' (returned + if writable then k else 0) (lost + if writable then 0 else k) s'

/-- The expiry `k` is at or before `t`; a timer without an interval has one. -/
def Expired (D I t k : Nat) : Prop := D + k * I ≤ t ∧ (I = 0 → k = 0)

/-- The state at the time `t`, after `n` ticks were taken. -/
structure Counted (D I t n : Nat) (s : Timerfd) : Prop where
  interval : s.interval = I
  expired : ∀ k, Expired D I t k ↔ k < n + s.ticks
  /-- There is no deadline after the only one, or if it is out of range. -/
  due : s.due = if I = 0 ∧ 0 < n + s.ticks ∨ max64 < D + (n + s.ticks) * I then 0 else D + (n + s.ticks) * I
  calm : s.canceled = false

variable {D I t t' n c g returned lost : Nat} {s : Timerfd}

section

variable (h : ∀ k, Expired D I t k ↔ k < c)

include h

private theorem expired_same (hle : t ≤ t') (hc : I = 0 ∧ 0 < c ∨ t' < D + c * I) (k : Nat) : Expired D I t' k ↔
    k < c := by
  constructor
  · rintro ⟨h1, h2⟩
    by_contra hk
    have := Nat.mul_le_mul_right I (Nat.not_lt.1 hk)
    omega
  · intro hk
    obtain ⟨h1, h2⟩ := (h k).mpr hk
    exact ⟨h1.trans hle, h2⟩

private theorem count_le (hD : 0 < D) : c ≤ t := by
  by_contra hc
  obtain ⟨h1, h2⟩ := (h t).mpr (by omega)
  rcases Nat.eq_zero_or_pos I with h0 | hI
  · omega
  · have := Nat.le_mul_of_pos_right t hI
    omega

end

private theorem expired_next (hc : ¬(I = 0 ∧ 0 < c)) (hle : D + c * I ≤ t') (k : Nat) :
    Expired D I t' k ↔ k < c + (1 + (t' - (D + c * I)) / I) := by
  rcases Nat.eq_zero_or_pos I with rfl | hI
  · simp [Expired]
    omega
  rcases Nat.lt_or_ge k c with hk | hk
  · have := Nat.mul_le_mul_right I (Nat.le_of_lt hk)
    exact ⟨fun _ => Nat.lt_add_right _ hk, fun _ => ⟨by omega, by omega⟩⟩
  · obtain ⟨j, rfl⟩ := Nat.exists_eq_add_of_le hk
    have := Nat.le_div_iff_mul_le hI (x := j) (y := t' - (D + c * I))
    rw [Expired, Nat.add_mul]
    omega

theorem Counted.update (h : Counted D I t n s) (hD : 0 < D) (hle : t ≤ t') (ht : t' ≤ max64)
    (hg : s.cancelOnSet → g = s.generation) : Counted D I t' n (timerfdUpdate s t' g) := by
  obtain ⟨rfl, hexp, hdue, hc⟩ := h
  rw [timerfdUpdate, if_neg (by tauto)]
  by_cases hlate : s.due = 0 ∨ s.due > t'
  · rw [if_pos hlate]
    exact ⟨rfl, expired_same hexp hle (by split_ifs at hdue <;> omega), hdue, hc⟩
  rw [if_neg hlate]
  rw [not_or, Nat.not_lt] at hlate
  have hopen := fun h => hlate.1 (hdue.trans (if_pos h))
  rw [if_neg hopen] at hdue
  have hnext := expired_next (fun h => hopen (.inl h)) (hdue ▸ hlate.2)
  have hbound := count_le hnext hD
  rw [← hdue] at hnext hbound
  have hcount : (if s.interval = 0 then 0 else (t' - s.due) / s.interval) = (t' - s.due) / s.interval := by
    split_ifs with h0 <;> simp [h0]
  have hfit : ¬1 + (t' - s.due) / s.interval > max64 - s.ticks := by omega
  simp only [hcount, if_neg hfit]
  refine ⟨rfl, by simpa [Nat.add_assoc] using hnext, ?_, hc⟩
  dsimp only
  rcases Nat.eq_zero_or_pos s.interval with h0 | hI
  · simp [h0]
  · have hdiv := Nat.div_add_mod' (t' - s.due) s.interval
    have hmod := Nat.mod_lt (t' - s.due) hI
    generalize (t' - s.due) / s.interval = q at hdiv ⊢
    have hq : D + (n + (s.ticks + (1 + q))) * s.interval = s.due + s.interval + q * s.interval := by
      rw [hdue]
      ring
    rw [hq]
    split_ifs <;> omega

theorem Used.counted (h : Used D I t returned lost s) : 0 < D ∧ Counted D I t (returned + lost) s := by
  induction h with
  | @arm now t generation due absolute cancelOnSet s harm hD hpos h64 ht =>
    obtain ⟨hI, hn, hc, hg⟩ : s.interval = I ∧ s.ticks = 0 ∧ s.canceled = false ∧ generation = s.generation := by
      unfold timerfdArm at harm
      split at harm <;> cases harm
      exact ⟨rfl, rfl, rfl, rfl⟩
    have h0 : Counted D I 0 0 s := ⟨hI, by simp [Expired, hn]; omega, by simp [hD, hn, Nat.not_lt.2 h64], hc⟩
    exact ⟨hpos, h0.update hpos (Nat.zero_le t) ht fun _ => hg⟩
  | update _ hle ht hg ih => exact ⟨ih.1, ih.2.update ih.1 hle ht hg⟩
  | @read _ _ _ returned lost k _ _ _ writable _ hle ht hg htake ih =>
    have h' := ih.2.update ih.1 hle ht hg
    have hsum : returned + (if writable then k else 0) + (lost + if writable then 0 else k) = returned + lost +
      k := by
      split_ifs <;> omega
    rw [hsum]
    simp only [timerfdTake, h'.calm, Bool.false_eq_true, if_false] at htake
    split_ifs at htake <;> cases htake
    · exact ⟨ih.1, h'.interval, h'.expired, h'.due, rfl⟩
    · exact ⟨ih.1, h'⟩

/-- The ticks that reads took and those left over count the expiries, and a deadline that is left is later than the
last use. -/
theorem timerfd_ticks (h : Used D I t returned lost s) : (∀ k, Expired D I t k ↔ k < returned + lost + s.ticks) ∧
    (t < s.due ∨ s.due = 0 ∧ (I = 0 ∧ D ≤ t ∨ max64 < D + (returned + lost + s.ticks) * I)) := by
  obtain ⟨-, -, hexp, hdue, -⟩ := h.counted
  refine ⟨hexp, ?_⟩
  have h0 := hexp 0
  have hc := hexp (returned + lost + s.ticks)
  simp only [Expired, Nat.zero_mul] at h0 hc
  split_ifs at hdue <;> omega

/-- A timer that is read at 10 after it was armed for 3, 5, 7 and so on. -/
theorem timerfd_ticks_late : ∃ s, Used 3 2 10 4 0 s ∧ 10 < s.due := by
  have h : Used 3 2 10 4 0 _ :=
    .read (g := 0) true (.arm (I := 2) 0 0 0 3 true false rfl rfl (by decide) (by decide) (by decide))
    (by decide) (by decide) nofun rfl
  exact ⟨_, h, (timerfd_ticks h).2.resolve_right nofun⟩

/-- A read that cannot write its buffer takes the tick. -/
theorem timerfd_fault_takes : ∃ s, Used 3 0 10 0 1 s ∧ s.ticks = 0 ∧ Expired 3 0 10 0 :=
  ⟨_, .read (g := 0) false (.arm (I := 0) 0 0 0 3 true false rfl rfl (by decide) (by decide) (by decide))
    (by decide) (by decide) nofun rfl, rfl, by decide, fun _ => rfl⟩

/-! ### How often a timer is looked at -/

variable {h : Nat}

/-- An update makes no difference to a later one. -/
theorem timerfdUpdate_update (hle : t ≤ t') (ht : t' ≤ max64) (hg : s.cancelOnSet → h = s.generation ∨ h = g) :
    timerfdUpdate (timerfdUpdate s t h) t' g = timerfdUpdate s t' g := by
  by_cases hc : s.cancelOnSet ∧ h ≠ s.generation
  · obtain rfl := (hg hc.1).resolve_left hc.2
    simp [timerfdUpdate, hc]
  by_cases hlate : s.due = 0 ∨ s.due > t
  · rw [timerfdUpdate.eq_1 s t, if_neg hc, if_pos hlate]
  obtain ⟨due, interval, ticks, generation, cancelOnSet, canceled⟩ := s
  simp only [timerfdUpdate, if_neg hc, if_neg hlate] at hc hlate ⊢
  congr 1
  rw [if_neg (show ¬(due = 0 ∨ due > t') by omega)]
  rcases Nat.eq_zero_or_pos interval with rfl | hI
  · simp
  have hdiv := Nat.div_add_mod (t - due) interval
  have hmod := Nat.mod_lt (t - due) hI
  simp only [hI.ne', false_or, if_false]
  generalize (t - due) / interval = q, (t - due) % interval = r at *
  by_cases hnext : interval - r > max64 - t ∨ t + (interval - r) > t'
  · -- The next expiry is after `t'`, or out of range.
    obtain ⟨hq, hr⟩ : (t' - due) / interval = q ∧ (t' - due) % interval = t' - t + r := by
      rw [Nat.div_mod_unique hI]
      omega
    rw [hq, hr, if_pos (by split_ifs <;> omega)]
    congr 1
    split_ifs <;> omega
  · have hmul : interval * (q + 1) ≤ t' - due ∧ t' - (t + (interval - r)) = t' - due - interval * (q + 1) := by
      rw [Nat.mul_succ]
      omega
    have hq := (Nat.le_div_iff_mul_le hI).2 (Nat.mul_comm .. ▸ hmul.1)
    rw [if_neg (not_or.1 hnext).1, if_neg (by omega), hmul.2, Nat.sub_mul_div, Nat.sub_mul_mod hmul.1]
    congr 1
    split_ifs <;> omega

/-- However often a timer is polled, queried or ticked before a read, the read returns and leaves the same, also if
ticks saturate and if the clock is set before the polls or after them. -/
theorem timerfdTake_polled (ts : List Nat) (hts : ∀ x ∈ ts, x ≤ t) (ht : t ≤ max64)
    (hg : s.cancelOnSet → h = s.generation ∨ h = g) :
    timerfdTake (ts.foldl (timerfdUpdate · · h) s) t g = timerfdTake s t g := by
  have hupdate : timerfdUpdate (ts.foldl (timerfdUpdate · · h) s) t g = timerfdUpdate s t g := by
    induction ts generalizing s with
    | nil => rfl
    | cons x ts ih =>
      rw [List.forall_mem_cons] at hts
      rw [List.foldl_cons, ih hts.2, timerfdUpdate_update hts.1 ht hg]
      -- the update keeps `hg`
      unfold timerfdUpdate
      split_ifs <;> simp_all
  simp only [timerfdTake, hupdate]

theorem timerfdTake_polled_set : timerfdTake ([3, 7].foldl (timerfdUpdate · · 0) ⟨2, 2, 0, 0, true, false⟩) 9 1 =
    (-125, 0, ⟨0, 2, 0, 1, true, false⟩) :=
  timerfdTake_polled [3, 7] (by decide) (by decide) fun _ => .inl rfl

end Mos.Timer
