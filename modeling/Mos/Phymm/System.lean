import Mos.Lib.Run
import Mos.Phymm.Operations

/-!
# Runs of the page allocator

The allocator from boot on: callers allocate blocks, hold them, change the reference counts and flags of the pages
they hold, and free each block once.  The blocks held are part of the state (`live`), so that `Core` accounts for
them.
-/

namespace Mos.Phymm

open Lib List Block

variable {p : Nat} {cfg : Config} {ic : Nat → Nat} {s : State}

private theorem fitOrder_spec {stop : Nat} (hlt : p < stop) (o : Nat) :
    2 ^ fitOrder p stop o ∣ p ∧ p + 2 ^ fitOrder p stop o ≤ stop ∧ fitOrder p stop o ≤ o := by
  induction o with
  | zero => exact ⟨Nat.one_dvd _, hlt, le_rfl⟩
  | succ o ih =>
    rw [fitOrder]
    split_ifs with hc
    · exact ⟨Nat.dvd_of_mod_eq_zero hc.1, hc.2, le_rfl⟩
    · exact ⟨ih.1, ih.2.1, Nat.le_succ_of_le ih.2.2⟩

private theorem buddyAddFreeRange_spec (p stop : Nat) (h : Core cfg ic s [])
    (hnew : ∀ q, p ≤ q → q < stop → ic q = 0 ∧ (s.pages q).refCount = 0)
    (hin : ∀ q, p ≤ q → q < stop → cfg.phymmBegin ≤ q ∧ q < cfg.phymmEnd) :
    Core cfg (fun q => ic q + if p ≤ q ∧ q < stop then 1 else 0) (buddyAddFreeRange s p stop) [] := by
  induction hn : stop - p using Nat.strongRecOn generalizing s p ic with
  | _ n ih =>
    rw [buddyAddFreeRange]
    by_cases hlt : p < stop
    · obtain ⟨hd, hfit, hmax⟩ := fitOrder_spec hlt maxBuddyOrder
      obtain ⟨o, ho⟩ : ∃ o, o = fitOrder p stop maxBuddyOrder := ⟨_, rfl⟩
      rw [dif_pos hlt, ← ho]
      rw [← ho] at hd hfit hmax
      have hge : ∀ q, (⟨o, p⟩ : Block).Covers q → p ≤ q ∧ q < stop := fun q hq => by
        simp only [Block.Covers] at hq
        omega
      rw [if_neg (by omega)]
      -- the new block is first in hand and then pushed
      have hhand : Core cfg (fun q => ic q + if (⟨o, p⟩ : Block).Covers q then 1 else 0) s [⟨o, p⟩] := by
        refine ⟨fun q => ?_, fun q => ?_, fun q hq => ?_, h.aligned, h.head, h.total⟩
        · have h1 := h.cover_eq q
          rw [cover_nil] at h1
          rw [cover_cons, cover_nil]
          omega
        · by_cases hq : (⟨o, p⟩ : Block).Covers q
          · rw [if_pos hq, (hnew q (hge q hq).1 (hge q hq).2).1]
          · rw [if_neg hq]
            exact h.once q
        · by_cases hq' : (⟨o, p⟩ : Block).Covers q
          · exact hin q (hge q hq').1 (hge q hq').2
          · rw [if_neg hq'] at hq
            exact h.managed q hq
      have hpushed := hhand.push hd hmax (hnew p le_rfl hlt).2
      have hrest := ih (stop - (p + 2 ^ o)) (by omega) (p + 2 ^ o) hpushed (fun q hq1 hq2 => ?_)
        (fun q hq1 hq2 => hin q (by omega) hq2) rfl
      · have hic : (fun q => (ic q + if (⟨o, p⟩ : Block).Covers q then 1 else 0) +
            if p + 2 ^ o ≤ q ∧ q < stop then 1 else 0) = fun q => ic q + if p ≤ q ∧ q < stop then 1 else 0 := by
          funext q
          by_cases hq : (⟨o, p⟩ : Block).Covers q
          · rw [if_pos hq, if_pos (hge q hq), if_neg]
            simp only [Block.Covers] at hq
            omega
          · rw [if_neg hq]
            simp only [Block.Covers] at hq
            have hiff : (p + 2 ^ o ≤ q ∧ q < stop) ↔ (p ≤ q ∧ q < stop) := by omega
            simp [hiff]
        rw [hic] at hrest
        exact hrest
      · have hq := hnew q (by omega) hq2
        have hne : q ≠ p := by omega
        refine ⟨?_, ?_⟩
        · rw [hq.1, if_neg]
          simp only [Block.Covers]
          omega
        · simp only [buddyPush, Function.update_of_ne hne]
          exact hq.2
    · rw [dif_neg hlt]
      have hic : (fun q => ic q + if p ≤ q ∧ q < stop then 1 else 0) = ic := by
        funext q
        rw [if_neg (by omega), Nat.add_zero]
      rw [hic]
      exact h

def regionCount (regions : List (Nat × Nat)) (p : Nat) : Nat := regions.countP fun r => decide (r.1 ≤ p ∧ p < r.2)

/-- Regions as `phymm_init` clips them: inside the managed range and disjoint. -/
structure RegionsOk (cfg : Config) (regions : List (Nat × Nat)) : Prop where
  managed : ∀ r ∈ regions, cfg.phymmBegin ≤ r.1 ∧ r.2 ≤ cfg.phymmEnd
  disjoint : regions.Pairwise fun a b => a.2 ≤ b.1 ∨ b.2 ≤ a.1

private theorem initial_core (cfg : Config) : Core cfg (regionCount []) initial [] := by
  have hnone : freeBlocks initial = [] := rfl
  refine ⟨fun _ => rfl, fun _ => Nat.zero_le _, fun _ hp => absurd hp (Nat.lt_irrefl _), fun b hb => ?_,
    fun b hb => ?_, rfl⟩
  all_goals
    rw [hnone] at hb
    exact absurd hb not_mem_nil

private theorem addRegion_core {done : List (Nat × Nat)} {r : Nat × Nat}
    (h : Core cfg (regionCount done) s []) (hr : cfg.phymmBegin ≤ r.1 ∧ r.2 ≤ cfg.phymmEnd)
    (hdis : ∀ d ∈ done, d.2 ≤ r.1 ∨ r.2 ≤ d.1) : Core cfg (regionCount (done ++ [r])) (addRegion s r) [] := by
  have hzero : ∀ q, r.1 ≤ q → q < r.2 → regionCount done q = 0 := by
    intro q h1 h2
    refine countP_eq_zero.2 fun d hd => ?_
    have := hdis d hd
    simp
    omega
  have hclean : Core cfg (regionCount done) { s with pages := fun p =>
      if r.1 ≤ p ∧ p < r.2 then { s.pages p with refCount := 0, order := phymmOrderNone } else s.pages p } [] := by
    refine h.frame fun b hb => if_neg fun hin => ?_
    have h1 := cover_pos hb b.covers_start
    have h2 := h.cover_eq b.start
    rw [hzero _ hin.1 hin.2] at h2
    omega
  have hadd := buddyAddFreeRange_spec r.1 r.2 hclean (fun q h1 h2 => ⟨hzero q h1 h2, ?_⟩)
    (fun q h1 h2 => ⟨by omega, by omega⟩)
  · have hic : (fun q => regionCount done q + if r.1 ≤ q ∧ q < r.2 then 1 else 0) = regionCount (done ++ [r]) := by
      funext q
      simp [regionCount, countP_cons]
    rw [hic] at hadd
    exact hadd
  · simp only
    rw [if_pos ⟨h1, h2⟩]

variable {regions : List (Nat × Nat)}

private theorem boot_core (h : RegionsOk cfg regions) : Core cfg (regionCount regions) (boot regions) [] := by
  -- from the front: after each region the regions so far are accounted for
  have hloop : ∀ (rest done : List (Nat × Nat)) (s : State), Core cfg (regionCount done) s [] →
      RegionsOk cfg (done ++ rest) → Core cfg (regionCount (done ++ rest)) (rest.foldl addRegion s) [] := by
    intro rest
    induction rest with
    | nil =>
      intro done s hs _
      simpa using hs
    | cons r rest ih =>
      intro done s hs hok
      have hr := hok.managed r (by simp)
      have hdis : ∀ d ∈ done, d.2 ≤ r.1 ∨ r.2 ≤ d.1 := fun d hd =>
        (pairwise_append.1 hok.disjoint).2.2 d hd r mem_cons_self
      have hnext := ih (done ++ [r]) (addRegion s r) (addRegion_core hs hr hdis) (by simpa using hok)
      simpa using hnext
  exact hloop regions [] initial (initial_core cfg) h

/-! ### Allocation calls -/

/-- `k` is the rounded-up binary logarithm of `n`. -/
def IsCeilLog2 (n k : Nat) : Prop := n ≤ 2 ^ k ∧ ∀ j < k, 2 ^ j < n

variable {n order : Nat}

/-- The loop of `ceil_log2`, entered with every smaller power known to be too small. -/
theorem ceilLog2Loop_spec {rounds size : Nat} (hr : order + rounds = 32) (hs : rounds = 0 ∨ size = 2 ^ order)
    (hlow : ∀ j < order, 2 ^ j < n) : (∀ k, ceilLog2Loop n rounds size order = some k → IsCeilLog2 n k) ∧
      (n ≤ 2 ^ 31 → ∃ k, ceilLog2Loop n rounds size order = some k) := by
  induction rounds generalizing size order with
  | zero =>
    have := hlow 31 (by omega)
    exact ⟨fun k hk => (by cases hk), fun hn => by omega⟩
  | succ rounds ih =>
    obtain rfl : size = 2 ^ order := by omega
    rw [ceilLog2Loop]
    split_ifs with hlt
    · refine ih (by omega) ?_ fun j hj => ?_
      · by_cases h0 : rounds = 0
        · exact .inl h0
        · have hpow := Nat.pow_le_pow_right (n := 2) (by omega) (show order + 1 ≤ 31 by omega)
          rw [← Nat.pow_succ]
          exact .inr (Nat.mod_eq_of_lt (hpow.trans_lt (by decide)))
      · rcases Nat.lt_succ_iff_lt_or_eq.1 hj with hj | rfl
        · exact hlow j hj
        · exact hlt
    · refine ⟨fun k hk => ?_, fun _ => ⟨order, rfl⟩⟩
      cases hk
      exact ⟨Nat.le_of_not_lt hlt, hlow⟩

/-- `ceil_log2` is the rounded-up logarithm when it returns, and it returns up to `2 ^ 31`. -/
theorem ceilLog2_spec (n : Nat) :
    (∀ k, ceilLog2 n = some k → IsCeilLog2 n k) ∧ (n ≤ 2 ^ 31 → ∃ k, ceilLog2 n = some k) :=
  ceilLog2Loop_spec (by omega) (.inr rfl) fun _ hj => absurd hj (Nat.not_lt_zero _)

theorem IsCeilLog2.unique {k k' : Nat} (h : IsCeilLog2 n k) (h' : IsCeilLog2 n k') : k = k' := by
  rcases Nat.lt_trichotomy k k' with hlt | he | hlt
  · have := h'.2 k hlt
    have := h.1
    omega
  · exact he
  · have := h.2 k' hlt
    have := h'.1
    omega

inductive AllocKind
  | kernel | dma | user | cachePages
  deriving DecidableEq

/-- The page count whose logarithm the call takes. -/
def AllocKind.count (k : AllocKind) (pageCount : Nat) : Nat :=
  if k = .user then 1 else if pageCount ≠ 0 then pageCount else 1

def alloc (cfg : Config) (s : State) (k : AllocKind) (pageCount : Nat) : Option (State × Option Nat) :=
  match k with
  | .kernel => phymmAllocKernel cfg s pageCount
  | .dma => phymmAllocDma cfg s pageCount
  | .user => some (phymmAllocUser cfg s)
  | .cachePages => phymmAllocCachePages cfg s pageCount

section Alloc

variable {cfg : Config} {ic : Nat → Nat} {s : State} {live : List Block}

/-- What a call with the page count `n` may return. -/
def CallSpec (cfg : Config) (ic : Nat → Nat) (s : State) (live : List Block) (n : Nat)
    (r : Option (State × Option Nat)) : Prop :=
  (n ≤ 2 ^ 31 → ∃ a, r = some a) ∧ ∀ a, r = some a → a = (s, none) ∨ ∃ order i, order ≤ maxBuddyOrder ∧
    IsCeilLog2 n order ∧ a.2 = some i ∧ Allocated cfg ic s live order a.1 i

private theorem callSpec_of {f : Nat → State × Option Nat}
    (hf : ∀ order ≤ maxBuddyOrder, AllocSpec cfg ic s live order (f order)) :
    CallSpec cfg ic s live n do
      let order ← ceilLog2 n
      if order > maxBuddyOrder then return (s, none)
      return f order := by
  obtain ⟨hceil, hret⟩ := ceilLog2_spec n
  cases hc : ceilLog2 n with
  | none =>
    refine ⟨fun hn => ?_, nofun⟩
    obtain ⟨k, hk⟩ := hret hn
    rw [hc] at hk
    cases hk
  | some order =>
    by_cases ho : order > maxBuddyOrder
    · refine ⟨fun _ => ⟨(s, none), by simp [ho]⟩, fun a ha => .inl ?_⟩
      simpa [ho] using ha.symm
    refine ⟨fun _ => ⟨f order, by simp [ho]⟩, fun a ha => ?_⟩
    obtain rfl : a = f order := by simpa [ho] using ha.symm
    have hle := Nat.le_of_not_lt ho
    rcases hf order hle with he | ⟨i, hi, hall⟩
    · exact .inl he
    · exact .inr ⟨order, i, hle, hceil order hc, hi, hall⟩

/-- Every call either leaves the state or allocates a block of the rounded-up order. -/
theorem alloc_spec (h : Core cfg ic s live) (k : AllocKind) (pageCount : Nat) :
    CallSpec cfg ic s live (k.count pageCount) (alloc cfg s k pageCount) := by
  cases k with
  | user =>
    refine ⟨fun _ => ⟨_, rfl⟩, fun a ha => ?_⟩
    obtain rfl : phymmAllocUser cfg s = a := Option.some.inj ha
    rcases phymmAllocUser_spec h with he | ⟨i, hi, hall⟩
    · exact .inl he
    · exact .inr ⟨0, i, Nat.zero_le _, ⟨le_rfl, fun _ hj => absurd hj (Nat.not_lt_zero _)⟩, hi, hall⟩
  | kernel =>
    refine callSpec_of fun order ho => ?_
    exact (buddyAllocInRange_spec h ho _ _).orElse (buddyAllocInRange_spec h ho _ _)
  | dma => exact callSpec_of fun order ho => buddyAllocInRange_spec h ho _ _
  | cachePages =>
    refine callSpec_of fun order ho => ?_
    refine ((buddyAllocInRange_spec h ho _ _).orElse (buddyAllocInRange_spec h ho _ _)).orElse ?_
    split_ifs
    · exact buddyAllocHigh_spec h ho
    · exact .inl rfl

end Alloc

/-- The allocator and the blocks its callers hold. -/
structure Sys where
  s : State
  live : List Block

inductive Event
  | alloc (k : AllocKind) (pageCount : Nat) (result : Option Nat)
  | free (b : Block)
  | touch

/-- A caller holds the block it asked for from the moment the call returns until it frees it, by either of the two
calls (`phymm_free_user` for single pages).  In between the reference counts and flags of its pages change freely. -/
inductive Step (cfg : Config) (t : Sys) : Event → Sys → Prop
  | alloc {k pageCount order s' result} :
    Phymm.alloc cfg t.s k pageCount = some (s', result) → IsCeilLog2 (k.count pageCount) order →
      Step cfg t (.alloc k pageCount result) ⟨s', (result.map (Block.mk order)).toList ++ t.live⟩
  | freeKernel {b pageCount s'} : b ∈ t.live →
    phymmFreeKernel cfg t.s b.start pageCount = some s' → Step cfg t (.free b) ⟨s', t.live.erase b⟩
  | freeUser {b} : b ∈ t.live → b.order = 0 → Step cfg t (.free b) ⟨phymmFreeUser cfg t.s b.start, t.live.erase b⟩
  | touch {pages} : (∀ p, (pages p).order = (t.s.pages p).order) →
    (∀ p, cover t.live p = 0 → pages p = t.s.pages p) → Step cfg t .touch ⟨{ t.s with pages := pages }, t.live⟩

/-- The order of a held block is recorded on its first page, where `phymm_free_kernel` reads it. -/
structure SysOk (cfg : Config) (ic : Nat → Nat) (t : Sys) : Prop where
  core : Core cfg ic t.s t.live
  held : ∀ b ∈ t.live, 2 ^ b.order ∣ b.start ∧ b.order ≤ maxBuddyOrder ∧ (t.s.pages b.start).order = b.order

variable {b : Block}

section Sys

variable {cfg : Config} {ic : Nat → Nat} {t u : Sys} {e : Event}

section

variable (h : SysOk cfg ic t)

include h

section

variable (hb : b ∈ t.live)

include hb

theorem SysOk.in_range : ¬(b.start < cfg.phymmBegin ∨ b.start ≥ cfg.phymmEnd) := by
  have := h.core.held_managed hb b.covers_start
  omega

/-- Freeing a held block finds the order it was allocated with. -/
theorem phymmFreeKernel_eq (pageCount : Nat) :
    phymmFreeKernel cfg t.s b.start pageCount = some (buddyFreeBlock cfg t.s b.start b.order) := by
  obtain ⟨-, hmax, horder⟩ := h.held b hb
  rw [phymmFreeKernel, if_neg (h.in_range hb), horder, if_neg (Nat.not_lt.2 hmax)]
  rfl

theorem SysOk.free : SysOk cfg ic ⟨buddyFreeBlock cfg t.s b.start b.order, t.live.erase b⟩ ∧
      (NoBuddies t.s → NoBuddies (buddyFreeBlock cfg t.s b.start b.order)) := by
  obtain ⟨ha, hmax, -⟩ := h.held b hb
  have hcore : Core cfg ic t.s (b :: t.live.erase b) := h.core.congr fun p => cover_perm (perm_cons_erase hb) p
  obtain ⟨h1, h2, h3⟩ := buddyFreeBlock_spec hcore ha hmax
  refine ⟨⟨h1, fun c hc => ?_⟩, h3⟩
  obtain ⟨k1, k2, k3⟩ := h.held c (mem_of_mem_erase hc)
  refine ⟨k1, k2, ?_⟩
  rw [← k3]
  exact congrArg Page.order (h2 c hc)

end

theorem SysOk.step (hs : Step cfg t e u) : SysOk cfg ic u ∧ (NoBuddies t.s → NoBuddies u.s) := by
  cases hs with
  | @alloc k pageCount order s' result hcall horder =>
    rcases (alloc_spec h.core k pageCount).2 _ hcall with he | ⟨order', i, hmax, hceil, hi, hall⟩
    · cases he
      exact ⟨{ h with }, id⟩
    obtain rfl := horder.unique hceil
    obtain rfl : result = some i := hi
    refine ⟨⟨hall.core, fun b hb => ?_⟩, hall.buddies⟩
    rcases mem_cons.1 hb with hb | hb
    · rw [hb]
      exact ⟨hall.aligned, hmax, hall.head⟩
    · obtain ⟨k1, k2, k3⟩ := h.held b hb
      refine ⟨k1, k2, ?_⟩
      rw [← k3]
      exact congrArg Page.order (hall.frame b hb)
  | freeKernel hb hcall =>
    rw [phymmFreeKernel_eq h hb] at hcall
    cases hcall
    exact h.free hb
  | freeUser hb h0 =>
    rw [phymmFreeUser, if_neg (h.in_range hb), ← h0]
    exact h.free hb
  | @touch pages horder hout =>
    refine ⟨⟨h.core.frame fun b hb => hout _ ?_, fun b hb => ?_⟩, id⟩
    · have h1 := cover_pos hb b.covers_start
      have h2 := h.core.cover_eq b.start
      have h3 := h.core.once b.start
      omega
    · obtain ⟨k1, k2, k3⟩ := h.held b hb
      exact ⟨k1, k2, (horder _).trans k3⟩

end

private theorem run_ok (hr : RegionsOk cfg regions) {tr : List Event}
    (h : Run (Step cfg) ⟨boot regions, []⟩ tr t) : SysOk cfg (regionCount regions) t :=
  h.invariant_state (SysOk cfg (regionCount regions)) ⟨boot_core hr, fun _ hb => absurd hb not_mem_nil⟩
    fun _ _ _ hi hs => (hi.step hs).1

end Sys

/-! ### Consequences of the accounting -/

private theorem regionCount_pos : 0 < regionCount regions p ↔ ∃ r ∈ regions, r.1 ≤ p ∧ p < r.2 := by
  simp [regionCount, countP_pos_iff]

variable {live : List Block}

theorem Core.covered_iff (h : Core cfg ic s live) (p : Nat) : (∃ b ∈ freeBlocks s ++ live, b.Covers p) ↔
    0 < ic p := by
  rw [← h.cover_eq p, ← cover_append]
  exact ⟨fun ⟨b, hb, hp⟩ => cover_pos hb hp, exists_of_cover_pos⟩

private theorem sum_size_flatMap (f : Nat → List Nat) (n : Nat) :
    (((List.range n).flatMap fun o => (f o).map (mk o)).map size).sum =
      ∑ o ∈ Finset.range n, 2 ^ o * (f o).length := by
  induction n with
  | zero => rfl
  | succ n ih =>
    have hlast : ((f n).map (size ∘ mk n)).sum = 2 ^ n * (f n).length := by
      have hconst : size ∘ mk n = fun _ => 2 ^ n := rfl
      rw [hconst, map_const', sum_replicate_nat, Nat.mul_comm]
    rw [Finset.sum_range_succ, ← ih, List.range_succ, flatMap_append, map_append, List.sum_append,
      flatMap_singleton, map_map, hlast]

theorem Core.below (h : Core cfg ic s live) : ∀ b ∈ freeBlocks s, b.start + b.size ≤ cfg.phymmEnd := by
  intro b hb
  have hpos := Nat.two_pow_pos b.order
  have hlast := h.free_managed hb (p := b.start + b.size - 1) (by simp only [Block.Covers, size]; omega)
  omega

theorem Core.sum_size_lt (h : Core cfg ic s live) : ((freeBlocks s).map size).sum < 2 ^ 32 := by
  have hend := cfg.end_le
  have hpos := Nat.two_pow_pos maxBuddyOrder
  rw [sum_size_eq h.below]
  calc ∑ p ∈ Finset.range cfg.phymmEnd, cover (freeBlocks s) p ≤ ∑ p ∈ Finset.range cfg.phymmEnd, 1 :=
        Finset.sum_le_sum fun p _ => by
          have h1 := h.cover_eq p
          have h2 := h.once p
          omega
    _ = cfg.phymmEnd := by simp
    _ < 2 ^ 32 := by omega

/-- The counter does not wrap: there are fewer than `2 ^ 32` pages. -/
theorem Core.freePages_eq (h : Core cfg ic s live) :
    s.buddyFreePages = ∑ o ∈ Finset.range (maxBuddyOrder + 1), 2 ^ o * (s.buddyLists o).length := by
  rw [h.total, Nat.mod_eq_of_lt h.sum_size_lt, freeBlocks, sum_size_flatMap]

/-- An allocated block was free: its pages are no longer covered by free blocks, and no page changed hands but
them. -/
theorem Allocated.was_free {s' : State} {i : Nat}
    (h : Core cfg ic s live) (ha : Allocated cfg ic s live order s' i) (hp : (⟨order, i⟩ : Block).Covers p) :
    ∃ b ∈ freeBlocks s, b.Covers p := by
  have h1 := h.cover_eq p
  have h2 := ha.core.cover_eq p
  rw [cover_cons, if_pos hp] at h2
  exact exists_of_cover_pos (by omega)

/-- In every run the free and the allocated blocks partition the usable pages, and a call allocates what was free. -/
theorem phymm_runs {cfg : Config} {regions : List (Nat × Nat)} (hr : RegionsOk cfg regions) {tr : List Event}
    {t : Sys} (h : Run (Step cfg) ⟨boot regions, []⟩ tr t) :
    (∀ b ∈ freeBlocks t.s, 2 ^ b.order ∣ b.start ∧ ∀ p, b.Covers p → cfg.phymmBegin ≤ p ∧ p < cfg.phymmEnd) ∧
    (freeBlocks t.s ++ t.live).Pairwise (fun a b => ∀ p, a.Covers p → ¬b.Covers p) ∧
    (∀ p, (∃ b ∈ freeBlocks t.s ++ t.live, b.Covers p) ↔ ∃ r ∈ regions, r.1 ≤ p ∧ p < r.2) ∧
    t.s.buddyFreePages = ∑ o ∈ Finset.range (maxBuddyOrder + 1), 2 ^ o * (t.s.buddyLists o).length ∧
    (∀ k pageCount, pageCount ≤ 2 ^ 31 → ∃ s' result, alloc cfg t.s k pageCount = some (s', result)) ∧
    (∀ k pageCount s' result, alloc cfg t.s k pageCount = some (s', result) → (s' = t.s ∧ result = none) ∨
      ∃ i order, result = some i ∧ IsCeilLog2 (k.count pageCount) order ∧
        ∀ p, (⟨order, i⟩ : Block).Covers p → ∃ b ∈ freeBlocks t.s, b.Covers p) ∧
    ((phymmAllocUser cfg t.s).2 = none → freeBlocks t.s = []) ∧
    (∀ b ∈ t.live, ∀ pageCount, ∃ s', phymmFreeKernel cfg t.s b.start pageCount = some s') ∧
    (NoBuddies t.s → ∀ e u, Step cfg t e u → NoBuddies u.s) := by
  have hok := run_ok hr h
  have hcore := hok.core
  refine ⟨fun b hb => ⟨hcore.aligned b hb, fun p hp => hcore.free_managed hb hp⟩,
    pairwise_of_cover_le_one fun p => ?_, fun p => (hcore.covered_iff p).trans regionCount_pos, hcore.freePages_eq,
    fun k pageCount hn => ?_, fun k pageCount s' result hcall => ?_, phymmAllocUser_none hcore,
    fun b hb pageCount => ⟨_, phymmFreeKernel_eq hok hb pageCount⟩, fun hn e u hs => (hok.step hs).2 hn⟩
  · rw [cover_append, hcore.cover_eq]
    exact hcore.once p
  · have hcount : k.count pageCount ≤ 2 ^ 31 := by
      unfold AllocKind.count
      split_ifs <;> omega
    obtain ⟨⟨s', result⟩, hcall⟩ := (alloc_spec hcore k pageCount).1 hcount
    exact ⟨s', result, hcall⟩
  · rcases (alloc_spec hcore k pageCount).2 _ hcall with he | ⟨order, i, -, hceil, hi, hall⟩
    · cases he
      exact .inl ⟨rfl, rfl⟩
    · exact .inr ⟨i, order, hi, hceil, fun p hp => hall.was_free hcore hp⟩

/-- Sixteen managed pages, eight of them usable. -/
private def smallConfig : Config := ⟨16, 32, 32, 32, 0, by decide⟩

private theorem boot_small : boot [(16, 24)] = buddyPush { initial with pages := fun p =>
    if 16 ≤ p ∧ p < 24 then { initial.pages p with refCount := 0, order := phymmOrderNone } else initial.pages p } 16
      3 := by
  have hfit : fitOrder 16 24 maxBuddyOrder = 3 := by decide
  simp only [boot, List.foldl, addRegion]
  rw [buddyAddFreeRange, dif_pos (by decide), hfit]
  rw [if_neg (by decide), buddyAddFreeRange, dif_neg (by decide)]

theorem phymm_runs_kernel_block : ∃ t, Run (Step smallConfig) ⟨boot [(16, 24)], []⟩ [.alloc .kernel 3 (some 16)] t ∧
    t.live = [⟨2, 16⟩] ∧ (∀ p, (∃ b ∈ freeBlocks t.s ++ t.live, b.Covers p) ↔ ∃ r ∈ [(16, 24)], r.1 ≤ p ∧
    p < r.2) := by
  have hcall : (alloc smallConfig (boot [(16, 24)]) .kernel 3).map Prod.snd = some (some 16) := by
    rw [boot_small]
    decide
  obtain ⟨⟨s', result⟩, hc, hi⟩ := Option.map_eq_some_iff.1 hcall
  obtain rfl : result = some 16 := hi
  have hrun : Run (Step smallConfig) ⟨boot [(16, 24)], []⟩ [.alloc .kernel 3 (some 16)] ⟨s', [⟨2, 16⟩]⟩ :=
    Run.single (Step.alloc hc ⟨by decide, by decide⟩)
  have hregions : RegionsOk smallConfig [(16, 24)] := ⟨by decide, by decide⟩
  exact ⟨_, hrun, rfl, (phymm_runs hregions hrun).2.2.1⟩

/-! ### The free blocks are canonical -/

private theorem run_merged (hr : RegionsOk cfg regions) (hno : NoBuddies (boot regions)) {tr : List Event}
    {t : Sys} (h : Run (Step cfg) ⟨boot regions, []⟩ tr t) : Merged maxBuddyOrder (freeBlocks t.s) := by
  obtain ⟨hok, hn⟩ := h.invariant_state (fun t => SysOk cfg (regionCount regions) t ∧ NoBuddies t.s)
    ⟨run_ok hr .nil, hno⟩ fun _ _ _ hi hs => ⟨(hi.1.step hs).1, (hi.1.step hs).2 hi.2⟩
  refine ⟨hok.core.aligned, fun b hb => (mem_freeBlocks.1 hb).1, fun p => ?_, fun o ho i hi hlow => ?_⟩
  · have hsum := hok.core.cover_eq p
    have hone := hok.core.once p
    omega
  · rw [← (buddy_halves hi).1]
    exact hn _ hlow ho

/-- The free blocks are determined by the pages that are held, whatever was allocated and freed before. -/
theorem free_blocks_determined {cfg : Config} {regions : List (Nat × Nat)} (hr : RegionsOk cfg regions)
    (hno : NoBuddies (boot regions)) {tr tr' : List Event} {t t' : Sys} (h : Run (Step cfg) ⟨boot regions, []⟩ tr t)
    (h' : Run (Step cfg) ⟨boot regions, []⟩ tr' t') (hlive : ∀ p, cover t.live p = cover t'.live p) (b : Block) :
    b ∈ freeBlocks t.s ↔ b ∈ freeBlocks t'.s := by
  have heq : ∀ p, cover (freeBlocks t.s) p = cover (freeBlocks t'.s) p := by
    intro p
    have h1 := (run_ok hr h).core.cover_eq p
    have h2 := (run_ok hr h').core.cover_eq p
    have h3 := hlive p
    omega
  have hm := run_merged hr hno h
  have hm' := run_merged hr hno h'
  exact ⟨fun hb => hm.subset hm' heq hb, fun hb => hm'.subset hm (fun p => (heq p).symm) hb⟩

theorem free_blocks_restored : ∃ t, Run (Step smallConfig) ⟨boot [(16, 24)], []⟩ [.alloc .kernel 3 (some 16),
    .free ⟨2, 16⟩] t ∧ ∀ b, b ∈ freeBlocks t.s ↔ b ∈ freeBlocks (boot [(16, 24)]) := by
  have hregions : RegionsOk smallConfig [(16, 24)] := ⟨by decide, by decide⟩
  have hno : NoBuddies (boot [(16, 24)]) := by
    rw [boot_small]
    unfold NoBuddies
    decide
  have hcall : (alloc smallConfig (boot [(16, 24)]) .kernel 3).map Prod.snd = some (some 16) := by
    rw [boot_small]
    decide
  obtain ⟨⟨s', result⟩, hc, hi⟩ := Option.map_eq_some_iff.1 hcall
  obtain rfl : result = some 16 := hi
  have hrun : Run (Step smallConfig) ⟨boot [(16, 24)], []⟩ [.alloc .kernel 3 (some 16)] ⟨s', [⟨2, 16⟩]⟩ :=
    Run.single (Step.alloc hc ⟨by decide, by decide⟩)
  have hrun2 := hrun.snoc (.freeKernel mem_cons_self (phymmFreeKernel_eq (run_ok hregions hrun) mem_cons_self 0))
  exact ⟨_, hrun2, free_blocks_determined hregions hno hrun2 .nil fun _ => rfl⟩

/-! ### The memory map -/

/-- An entry of the memory map that the boot loader passes. -/
structure MapEntry where
  base : Nat
  length : Nat
  type : Nat

def MapEntry.Has (e : MapEntry) (x : Nat) : Prop := e.base ≤ x ∧ x < e.base + e.length

/-- `PHYMM_ADDRESS_LIMIT` of x86-64 and of i386. -/
def addressLimit (wide : Bool) : Nat := if wide then 2 ^ 37 else 2 ^ 32

/-- The pages of an entry that are added; both ends are rounded down. -/
def MapEntry.region (cfg : Config) (wide : Bool) (e : MapEntry) : Option (Nat × Nat) :=
  let top := min (addW 64 e.base e.length) (addressLimit wide)
  let pageStart := max (e.base / 4096 % 2 ^ 32) cfg.phymmBegin
  let pageEnd := min (top / 4096 % 2 ^ 32) cfg.phymmEnd
  if e.type ≠ 1 ∨ e.base ≥ addressLimit wide ∨ pageStart ≥ pageEnd then none else some (pageStart, pageEnd)

/-- The state and the counter `managed_pages`, which counts each page of each region. -/
def phymmInit (cfg : Config) (wide : Bool) (map : List MapEntry) : State × Nat :=
  let regions := map.filterMap (MapEntry.region cfg wide)
  (boot regions, (regions.map fun r => r.2 - r.1).sum % 2 ^ 32)

/-- The pages that are added for the entries: the bytes of the first one that are before its entry are in other usable
entries, no byte is in an entry of another type, and no page is added twice. -/
structure MapOk (cfg : Config) (wide : Bool) (map : List MapEntry) : Prop where
  start : ∀ e ∈ map, ∀ r, e.region cfg wide = some r → ∀ x, r.1 * 4096 ≤ x → x < e.base →
    ∃ e' ∈ map, e'.type = 1 ∧ e'.Has x
  outside : ∀ e ∈ map, ∀ r, e.region cfg wide = some r → ∀ x, r.1 * 4096 ≤ x → x < r.2 * 4096 →
    ∀ e' ∈ map, e'.type ≠ 1 → ¬e'.Has x
  once : ∀ p, regionCount (map.filterMap (MapEntry.region cfg wide)) p ≤ 1

variable {wide : Bool} {e : MapEntry} {r : Nat × Nat}

theorem MapEntry.region_some (h : e.region cfg wide = some r) : e.type = 1 ∧ r.1 < r.2 ∧ r.2 ≤ cfg.phymmEnd ∧
    e.base < (r.1 + 1) * 4096 ∧ r.2 * 4096 ≤ e.base + e.length := by
  unfold region at h
  simp only at h
  split at h
  · cases h
  rename_i hn
  cases h
  simp only [not_or, not_not, not_le] at hn
  obtain ⟨ht, hlimit, hlt⟩ := hn
  have hwide : addressLimit wide ≤ 2 ^ 37 := by cases wide <;> decide
  unfold addW at hlt ⊢
  have := Nat.mod_le (e.base + e.length) (2 ^ 64)
  exact ⟨ht, hlt, by omega, by omega, by omega⟩

private theorem page_of_byte {a b x : Nat} (h1 : a * 4096 ≤ x) (h2 : x < b * 4096) :
    ∃ p, (a ≤ p ∧ p < b) ∧ p * 4096 ≤ x ∧ x < (p + 1) * 4096 :=
  ⟨x / 4096, by omega⟩

private theorem cover_addFreeRange (s : State) (p stop q : Nat) : cover (freeBlocks (buddyAddFreeRange s p stop)) q =
    cover (freeBlocks s) q + if p ≤ q ∧ q < stop then 1 else 0 := by
  induction hn : stop - p using Nat.strongRecOn generalizing s p with
  | _ n ih =>
    rw [buddyAddFreeRange]
    by_cases hlt : p < stop
    · obtain ⟨-, hfit, hmax⟩ := fitOrder_spec hlt maxBuddyOrder
      rw [dif_pos hlt]
      dsimp only
      have hpos := Nat.two_pow_pos (fitOrder p stop maxBuddyOrder)
      rw [if_neg (by omega), ih _ (by omega) _ _ rfl, cover_perm (freeBlocks_push s p hmax), cover_cons]
      simp only [Block.Covers]
      grind
    · rw [dif_neg hlt, if_neg (by omega), Nat.add_zero]

/-- Each page is free as often as it is added. -/
theorem cover_boot (regions : List (Nat × Nat)) (q : Nat) :
    cover (freeBlocks (boot regions)) q = regionCount regions q := by
  have hfold : ∀ s, cover (freeBlocks (regions.foldl addRegion s)) q = cover (freeBlocks s) q +
    regionCount regions q := by
    induction regions with
    | nil => exact fun s => rfl
    | cons r regions ih =>
      intro s
      have hadd : cover (freeBlocks (addRegion s r)) q = cover (freeBlocks s) q + if r.1 ≤ q ∧
        q < r.2 then 1 else 0 :=
        cover_addFreeRange ..
      rw [foldl_cons, ih, hadd, regionCount, regionCount, countP_cons]
      simp only [decide_eq_true_eq]
      omega
  exact (hfold initial).trans (Nat.zero_add _)

private theorem free_page_iff {map : List MapEntry} {p : Nat} :
    (∃ b ∈ freeBlocks (phymmInit cfg wide map).1, b.Covers p) ↔
      ∃ e ∈ map, ∃ r, e.region cfg wide = some r ∧ r.1 ≤ p ∧ p < r.2 := by
  have hcover : cover (freeBlocks (phymmInit cfg wide map).1) p = _ := cover_boot ..
  constructor
  · rintro ⟨b, hb, hp⟩
    obtain ⟨r, hr, hr1, hr2⟩ := regionCount_pos.1 (hcover ▸ cover_pos hb hp)
    obtain ⟨e, he, her⟩ := mem_filterMap.1 hr
    exact ⟨e, he, r, her, hr1, hr2⟩
  · rintro ⟨e, he, r, her, hr1, hr2⟩
    have hpos : 0 < cover (freeBlocks (phymmInit cfg wide map).1) p :=
      hcover ▸ regionCount_pos.2 ⟨r, mem_filterMap.2 ⟨e, he, her⟩, hr1, hr2⟩
    obtain ⟨b, hb, hp⟩ := countP_pos_iff.1 hpos
    exact ⟨b, hb, of_decide_eq_true hp⟩

private theorem sum_regionCount {n : Nat} (h : ∀ r ∈ regions, r.2 ≤ n) :
    ∑ p ∈ Finset.range n, regionCount regions p = (regions.map fun r => r.2 - r.1).sum := by
  induction regions with
  | nil => simp [regionCount]
  | cons r regions ih =>
    rw [forall_mem_cons] at h
    have hcard : ∑ p ∈ Finset.range n, (if r.1 ≤ p ∧ p < r.2 then 1 else 0) = r.2 - r.1 := by
      have hfilter : Finset.filter (fun p => r.1 ≤ p ∧ p < r.2) (Finset.range n) = Finset.Ico r.1 r.2 := by
        ext p
        simp only [Finset.mem_filter, Finset.mem_range, Finset.mem_Ico]
        omega
      rw [← Finset.card_filter, hfilter, Nat.card_Ico]
    rw [map_cons, sum_cons, ← ih h.2, ← hcard, ← Finset.sum_add_distrib]
    exact Finset.sum_congr rfl fun p _ => by simp [regionCount, countP_cons, Nat.add_comm]

theorem MapOk.byte_ok {map : List MapEntry} (h : MapOk cfg wide map) (he : e ∈ map)
    (her : e.region cfg wide = some r) {x : Nat} (h1 : r.1 * 4096 ≤ x) (h2 : x < r.2 * 4096) :
    (∃ e ∈ map, e.type = 1 ∧ e.Has x) ∧ ∀ e ∈ map, e.type ≠ 1 → ¬e.Has x := by
  obtain ⟨ht, -, -, -, htop⟩ := MapEntry.region_some her
  refine ⟨?_, h.outside e he r her x h1 h2⟩
  by_cases hx : x < e.base
  · exact h.start e he r her x h1 hx
  · exact ⟨e, he, ht, not_lt.1 hx, by omega⟩

/-- The managed pages are counted right if none is counted twice. -/
theorem managed_eq {map : List MapEntry}
    (h : ∀ p, regionCount (map.filterMap (MapEntry.region cfg wide)) p ≤ 1) :
    (phymmInit cfg wide map).2 = ((freeBlocks (phymmInit cfg wide map).1).map size).sum := by
  have hbelow : ∀ b ∈ freeBlocks (phymmInit cfg wide map).1, b.start + b.size ≤ cfg.phymmEnd := by
    intro b hb
    have hlast : b.Covers (b.start + b.size - 1) := by
      have := Nat.two_pow_pos b.order
      simp only [Block.Covers, Block.size] at this ⊢
      omega
    obtain ⟨e, -, r, her, -, hlt⟩ := free_page_iff.1 ⟨b, hb, hlast⟩
    have := (MapEntry.region_some her).2.2.1
    omega
  have hsum : ((freeBlocks (phymmInit cfg wide map).1).map size).sum =
      ((map.filterMap (MapEntry.region cfg wide)).map fun r => r.2 - r.1).sum := by
    rw [sum_size_eq hbelow, ← sum_regionCount fun r hr => ?_]
    · exact Finset.sum_congr rfl fun p _ => cover_boot ..
    · obtain ⟨e, -, her⟩ := mem_filterMap.1 hr
      exact (MapEntry.region_some her).2.2.1
  have hle : ((freeBlocks (phymmInit cfg wide map).1).map size).sum ≤ cfg.phymmEnd := by
    rw [sum_size_eq hbelow]
    calc ∑ p ∈ Finset.range cfg.phymmEnd, cover (freeBlocks (phymmInit cfg wide map).1) p
        ≤ ∑ p ∈ Finset.range cfg.phymmEnd, 1 := Finset.sum_le_sum fun p _ => (cover_boot ..).trans_le (h p)
      _ = cfg.phymmEnd := by simp
  have hend : cfg.phymmEnd < 2 ^ 32 := (Nat.lt_add_of_pos_right (Nat.two_pow_pos _)).trans_le cfg.end_le
  rw [hsum] at hle ⊢
  exact Nat.mod_eq_of_lt (hle.trans_lt hend)

/-- Every byte of a free page is in a usable entry and in no other, no page is free twice, and the managed pages are
the free ones, just if the map is such. -/
theorem phymm_init_free (cfg : Config) (wide : Bool) (map : List MapEntry) :
    ((∀ b ∈ freeBlocks (phymmInit cfg wide map).1, ∀ p, b.Covers p → ∀ x, p * 4096 ≤ x → x < (p + 1) * 4096 →
      (∃ e ∈ map, e.type = 1 ∧ e.Has x) ∧ ∀ e ∈ map, e.type ≠ 1 → ¬e.Has x) ∧
    (freeBlocks (phymmInit cfg wide map).1).Pairwise (fun a b => ∀ p, a.Covers p → ¬b.Covers p) ∧
    (phymmInit cfg wide map).2 = ((freeBlocks (phymmInit cfg wide map).1).map size).sum) ↔ MapOk cfg wide map := by
  constructor
  · rintro ⟨hbyte, hpair, -⟩
    have hpage : ∀ e ∈ map, ∀ r, e.region cfg wide = some r → ∀ x, r.1 * 4096 ≤ x → x < r.2 * 4096 →
        (∃ e ∈ map, e.type = 1 ∧ e.Has x) ∧ ∀ e ∈ map, e.type ≠ 1 → ¬e.Has x := by
      intro e he r her x h1 h2
      obtain ⟨p, hp, hx1, hx2⟩ := page_of_byte h1 h2
      obtain ⟨b, hb, hp⟩ := free_page_iff.2 ⟨e, he, r, her, hp⟩
      exact hbyte b hb p hp x hx1 hx2
    refine ⟨fun e he r her x h1 h2 => ?_, fun e he r her x h1 h2 => (hpage e he r her x h1 h2).2, fun p => ?_⟩
    · obtain ⟨-, hlt, -, hbase, -⟩ := MapEntry.region_some her
      exact (hpage e he r her x h1 (by omega)).1
    · rw [← cover_boot]
      exact cover_le_one_of_pairwise hpair p
  · intro h
    refine ⟨fun b hb p hp x h1 h2 => ?_, pairwise_of_cover_le_one fun p => (cover_boot ..).trans_le (h.once p),
      managed_eq h.once⟩
    obtain ⟨e, he, r, her, hr1, hr2⟩ := free_page_iff.1 ⟨b, hb, hp⟩
    exact h.byte_ok he her ((Nat.mul_le_mul_right _ hr1).trans h1) (h2.trans_le (Nat.mul_le_mul_right _ hr2))

/-- A reserved entry, an unaligned one below the managed range, and one in it. -/
private def threeEntries : List MapEntry := [⟨0, 0x400, 2⟩, ⟨0x400, 0x8000, 1⟩, ⟨65536, 32768, 1⟩]

theorem phymm_init_free_entries : MapOk smallConfig false threeEntries ∧
    (phymmInit smallConfig false threeEntries).2 = 8 ∧
    ((freeBlocks (phymmInit smallConfig false threeEntries).1).map size).sum = 8 := by
  have hregion : ∀ e ∈ threeEntries, ∀ r, e.region smallConfig false = some r → e.base = 65536 ∧ r = (16, 24) := by
    decide
  have hok : MapOk smallConfig false threeEntries := by
    refine ⟨fun e he r her x h1 h2 => ?_, fun e he r her x h1 _ e' he' ht => ?_, fun p => ?_⟩
    · obtain ⟨hbase, rfl⟩ := hregion e he r her
      omega
    · obtain ⟨-, rfl⟩ := hregion e he r her
      have htop : ∀ e ∈ threeEntries, e.type ≠ 1 → e.base + e.length ≤ 16 * 4096 := by decide
      exact fun hx => absurd hx.2 (not_lt.2 ((htop e' he' ht).trans h1))
    · exact countP_le_length
  exact ⟨hok, rfl, ((phymm_init_free smallConfig false _).2 hok).2.2.symm⟩

/-- An entry that starts behind the first byte of page 16 makes the page free. -/
theorem unaligned_page_free : ∃ b ∈ freeBlocks (phymmInit smallConfig false [⟨65537, 32767, 1⟩]).1, b.Covers 16 ∧
    ¬(⟨65537, 32767, 1⟩ : MapEntry).Has (16 * 4096) := by
  have hregions : RegionsOk smallConfig [(16, 24)] := ⟨by decide, by decide⟩
  obtain ⟨b, hb, h16⟩ := ((boot_core hregions).covered_iff 16).mpr (by decide)
  have hfree : b ∈ freeBlocks (boot [(16, 24)]) := by simpa using hb
  exact ⟨b, hfree, h16, fun h => absurd h.1 (by decide)⟩

end Mos.Phymm
