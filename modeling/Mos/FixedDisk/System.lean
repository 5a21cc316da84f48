import Mos.FixedDisk.Operations
import Mos.Lib.Run

/-!
# Runs of the sector cache

The flat disk is an array of sectors without a cache: reads return it, writes change it, a failed write may have
applied its first sectors, and a successful discard leaves the discarded sectors open.  A run of the cache is a run of
the flat disk as long as in every round of a write that covers a whole line the page can be mapped for the copy: such
a line is in the cache without having been filled.
-/

namespace Mos.FixedDisk

open Lib List

variable {α : Type*} {d : Disk} {st : State α}

inductive Event (α : Type*)
  | rw (write : Bool) (env : Nat → Env α) (sector count : Nat) (buffer : Nat → α) (r : RwResult α)
  | flush (ret : Int)
  | discard (first n : Nat) (ret : Int)
  | reclaim

inductive Step (d : Disk) (t : State α) : Event α → State α → Prop
  | rw (write : Bool) (env : Nat → Env α) (buffer : Nat → α) (sector count : Nat) :
    Step d t (.rw write env sector count buffer (cacheRw d write t env buffer sector count))
      (cacheRw d write t env buffer sector count).st
  | flush (env : Nat → Bool × Int) (flush : Int) :
    Step d t (.flush (cacheFlush d t env flush).2) (cacheFlush d t env flush).1
  | discard (p : Partition d) (range : Nat × Nat) (env : Nat → Bool × Int) (flush : Int) (discard : Option Int)
      (fresh : Nat → α) : Step d t (.discard (p.start + range.1 / d.sectorSize) (range.2 / d.sectorSize)
      (blkDiscard d p t range env flush discard fresh).2) (blkDiscard d p t range env flush discard fresh).1
  | reclaim (pages : Nat) : Step d t .reclaim (cacheReclaim t pages)

/-- In every round of a write that covers a whole line, the second `mm_kmap_phys` succeeds. -/
def Event.Maps (d : Disk) : Event α → Prop
  | .rw true env sector count _ _ => ∀ i, WholeLine d sector count i → (env i).kmapCopy = true
  | _ => True

inductive FlatStep (d : Disk) (flat : Nat → α) : Event α → (Nat → α) → Prop
  | read {env sector count buffer r flat'} :
    (∀ s < d.sectors, flat' s = flat s) → (r.ret = 0 → ∀ i < count, r.buffer i = flat (sector + i)) →
      FlatStep d flat (.rw false env sector count buffer r) flat'
  | write {env sector count done buffer r flat'} : done ≤ count → (r.ret = 0 → done = count) →
    (∀ s < d.sectors, flat' s = if sector ≤ s ∧ s < sector + done then buffer (s - sector) else flat s) →
      FlatStep d flat (.rw true env sector count buffer r) flat'
  | flush {ret flat'} : (∀ s < d.sectors, flat' s = flat s) → FlatStep d flat (.flush ret) flat'
  | discard {first n ret flat'} : (∀ s < d.sectors, flat' s = flat s ∨ (ret = 0 ∧ first ≤ s ∧ s < first + n)) →
      FlatStep d flat (.discard first n ret) flat'
  | reclaim {flat'} : (∀ s < d.sectors, flat' s = flat s) → FlatStep d flat .reclaim flat'

private theorem cacheRw_spec {write : Bool} (h : CacheOk d st) (env : Nat → Env α) (buffer : Nat → α)
    (sector count : Nat) (hmap : write = true → ∀ i, WholeLine d sector count i → (env i).kmapCopy = true) :
    ∃ done, RwSpec d write st buffer sector count 0 (cacheRw d write st env buffer sector count) done := by
  unfold cacheRw
  split_ifs with hrange
  · exact ⟨0, RwSpec.stop (Same.refl h) _ _ _ _ fun h => absurd h (by decide)⟩
  · exact rwLoop_spec h env buffer sector count 0 (by omega) hmap

private theorem blkDiscard_spec (h : CacheOk d st) (p : Partition d) (range : Nat × Nat) (env : Nat → Bool × Int)
    (flush : Int) (discard : Option Int) (fresh : Nat → α) :
    let r := blkDiscard d p st range env flush discard fresh
    CacheOk d r.1 ∧ ∀ s, logical d r.1 s = logical d st s ∨ (r.2 = 0 ∧ p.start + range.1 / d.sectorSize ≤ s ∧
      s < p.start + range.1 / d.sectorSize + range.2 / d.sectorSize) := by
  obtain ⟨hsame, hclean⟩ := cacheFlush_spec h env flush
  unfold blkDiscard
  cases discard with
  | none => exact ⟨h, fun s => .inl rfl⟩
  | some discard =>
    dsimp only
    split_ifs with hrange hflush hdiscard
    · exact ⟨h, fun s => .inl rfl⟩
    · exact ⟨hsame.ok, fun s => .inl (hsame.view s)⟩
    · exact ⟨hsame.ok, fun s => .inl (hsame.view s)⟩
    have hnil : ∀ l ∈ ([] : List (Line α)), False := fun l hl => absurd hl not_mem_nil
    refine ⟨⟨⟨nodup_nil, fun l hl => (hnil l hl).elim⟩, fun l hl => (hnil l hl).elim⟩, fun s => ?_⟩
    by_cases hs : p.start + range.1 / d.sectorSize ≤ s ∧
        s < p.start + range.1 / d.sectorSize + range.2 / d.sectorSize
    · exact .inr ⟨rfl, hs⟩
    · -- every line was stored before it was dropped
      refine .inl ((if_neg hs).trans ?_)
      rw [← hsame.view s]
      exact (logical_eq_device hsame.ok (hclean (Decidable.of_not_not hflush)) s).symm

/-- A step of the cache is a step of the flat disk. -/
theorem CacheOk.step {t u : State α} {e : Event α} (h : CacheOk d t) (hs : Step d t e u) (he : e.Maps d) :
    CacheOk d u ∧ FlatStep d (logical d t) e (logical d u) := by
  cases hs with
  | rw write env buffer sector count =>
    have hmap : write = true → ∀ i, WholeLine d sector count i → (env i).kmapCopy = true := by
      rintro rfl
      exact he
    obtain ⟨done, hrw⟩ := cacheRw_spec h env buffer sector count hmap
    refine ⟨hrw.ok, ?_⟩
    cases write with
    | true =>
      refine .write hrw.le hrw.all fun s hs => ?_
      rw [hrw.view s hs, Nat.zero_add]
      simp
    | false =>
      refine .read (fun s hs => ?_) fun h0 i hi => ?_
      · rw [hrw.view s hs, if_neg (by simp)]
      · have := hrw.data rfl i (by rw [hrw.all h0]; exact hi)
        rwa [Nat.zero_add] at this
  | flush env flush =>
    have hsame := (cacheFlush_spec h env flush).1
    exact ⟨hsame.ok, .flush fun s _ => hsame.view s⟩
  | discard p range env flush discard fresh =>
    obtain ⟨hok, hview⟩ := blkDiscard_spec h p range env flush discard fresh
    exact ⟨hok, .discard fun s _ => hview s⟩
  | reclaim pages =>
    have hsame : Same d t (cacheReclaim t pages) := reclaimLines_spec [] pages h
    exact ⟨hsame.ok, .reclaim fun s _ => hsame.view s⟩

theorem initial_ok (d : Disk) (device : Nat → α) : CacheOk d ⟨[], device⟩ :=
  ⟨⟨nodup_nil, fun _ h => absurd h not_mem_nil⟩, fun _ h => absurd h not_mem_nil⟩

/-- The sector cache refines the flat disk over every run in which whole lines can be mapped for the copy. -/
theorem cache_runs {device : Nat → α} {tr : List (Event α)} {t : State α}
    (h : Run (fun t e u => Step d t e u ∧ e.Maps d) ⟨[], device⟩ tr t) : Run (FlatStep d) device tr (logical d t) ∧
    (t.lines.map Line.sector).Nodup ∧ (∀ l ∈ t.lines, d.span ∣ l.sector) ∧
    (∀ l ∈ t.lines, ∀ s, covers d l s → logical d t s = value l s) ∧
    (∀ u, Step d t (.flush 0) u → ∀ s, u.device s = logical d t s) := by
  have hinv : CacheOk d t ∧ Run (FlatStep d) device tr (logical d t) := by
    refine h.invariant (fun tr t => CacheOk d t ∧ Run (FlatStep d) device tr (logical d t)) ⟨initial_ok d device,
      .nil⟩ ?_
    rintro tr t e u - ⟨hok, hrun⟩ ⟨hs, he⟩
    obtain ⟨hok', hflat⟩ := hok.step hs he
    exact ⟨hok', hrun.snoc hflat⟩
  obtain ⟨hok, hrun⟩ := hinv
  refine ⟨hrun, hok.heads.nodup, hok.heads.aligned, fun l hl s hs => ?_, fun u hs s => ?_⟩
  · rw [logical, lookup_of_mem hok.heads.apart hl hs, Option.getD_some]
  · generalize he : (Event.flush 0 : Event α) = e at hs
    cases hs with
    | flush env flush =>
      obtain ⟨hsame, hclean⟩ := cacheFlush_spec hok env flush
      have hret : (cacheFlush d t env flush).2 = 0 := by
        injection he with he
        exact he.symm
      rw [← hsame.view s]
      exact (logical_eq_device hsame.ok (hclean hret) s).symm
    | _ => cases he

private def oneSector : Disk := ⟨1, 4096, ⟨1, rfl⟩⟩

/-- The allocated page holds 9, and everything succeeds but perhaps the mapping for the copy. -/
private def sampleEnv (kmapCopy : Bool) : Nat → Env Nat := fun _ =>
  ⟨true, some fun _ => 9, none, true, true, 0, true, 0, kmapCopy⟩

private theorem write_torn : cacheRw oneSector true ⟨[], fun _ => 0⟩ (sampleEnv false) (fun _ => 5) 0 1 =
    ⟨⟨[⟨0, false, fun _ => 9⟩], fun _ => 0⟩, fun _ => 5, enomem⟩ := by
  rw [cacheRw, if_neg (by decide), rwLoop, dif_neg (by decide)]
  rfl

private theorem read_cached (buffer : Nat → Nat) :
    cacheRw oneSector false ⟨[⟨0, false, fun _ => 9⟩], fun _ => 0⟩ (sampleEnv true) buffer 0 1 =
      ⟨⟨[⟨0, false, fun _ => 9⟩], fun _ => 0⟩, copySectors buffer (fun _ => 9) 0 0 1, 0⟩ := by
  rw [cacheRw, if_neg (by decide), rwLoop, dif_neg (by decide)]
  change rwLoop oneSector false _ _ _ _ 0 _ = _
  rw [rwLoop, dif_pos rfl]
  rfl

private def twoSectors : Disk := ⟨2, 2048, ⟨2, rfl⟩⟩

/-- A write of a whole line and one of its first sector, which cannot map the page. -/
theorem cache_runs_two_writes : ∃ w v t, Run (fun t e u => Step twoSectors t e u ∧ e.Maps twoSectors) ⟨[], fun _ => 0⟩
      [.rw true (sampleEnv true) 0 2 (fun _ => 5) w, .rw true (sampleEnv false) 0 1 (fun _ => 6) v] t ∧
    w.ret = 0 ∧ v.ret = enomem ∧ Run (FlatStep twoSectors) (fun _ => 0)
      [.rw true (sampleEnv true) 0 2 (fun _ => 5) w, .rw true (sampleEnv false) 0 1 (fun _ => 6) v]
      (logical twoSectors t) := by
  have hw : cacheRw twoSectors true ⟨[], fun _ => 0⟩ (sampleEnv true) (fun _ => 5) 0 2 =
      ⟨⟨[⟨0, true, copySectors (fun _ => 9) (fun _ => 5) 0 0 2⟩], fun _ => 0⟩, fun _ => 5, 0⟩ := by
    rw [cacheRw, if_neg (by decide), rwLoop, dif_neg (by decide)]
    change rwLoop twoSectors true _ _ _ _ 0 _ = _
    rw [rwLoop, dif_pos rfl]
    rfl
  have hv : (cacheRw twoSectors true ⟨[⟨0, true, copySectors (fun _ => 9) (fun _ => 5) 0 0 2⟩], fun _ => 0⟩
      (sampleEnv false) (fun _ => 6) 0 1).ret = enomem := by
    rw [cacheRw, if_neg (by decide), rwLoop, dif_neg (by decide)]
    rfl
  have hwhole : ∀ i, ¬WholeLine twoSectors 0 1 i := by
    rintro i ⟨-, hlt, hle⟩
    cases i with
    | zero => exact absurd hle (by decide)
    | succ i =>
      have hspan : twoSectors.span = 2 := rfl
      rw [hspan] at hlt
      omega
  have hnil : Run (fun t e u => Step twoSectors t e u ∧ e.Maps twoSectors) (⟨[], fun _ => 0⟩ : State Nat) [] _ := .nil
  have hrun := (hnil.snoc ⟨Step.rw true (sampleEnv true) (fun _ => 5) 0 2, fun _ _ => rfl⟩).snoc
    ⟨Step.rw true (sampleEnv false) (fun _ => 6) 0 1, fun i hi => absurd hi (hwhole i)⟩
  exact ⟨_, _, _, hrun, by rw [hw], by rw [hw]; exact hv, (cache_runs hrun).1⟩

/-- The page of a whole line cannot be mapped for the copy: the write leaves the stale content of the page in a clean
line, and the next read returns it.  No flat disk that held 0 and may have been written 5 explains the 9. -/
theorem torn_write_read_stale : ∃ w r : RwResult Nat,
    Step oneSector ⟨[], fun _ => 0⟩ (.rw true (sampleEnv false) 0 1 (fun _ => 5) w) w.st ∧ w.ret = enomem ∧
    Step oneSector w.st (.rw false (sampleEnv true) 0 1 (fun _ => 0) r) r.st ∧ r.ret = 0 ∧ r.buffer 0 = 9 ∧
    ∀ flat flat', ¬(FlatStep oneSector (fun _ => 0) (.rw true (sampleEnv false) 0 1 (fun _ => 5) w) flat ∧
      FlatStep oneSector flat (.rw false (sampleEnv true) 0 1 (fun _ => 0) r) flat') := by
  have h1 := Step.rw (d := oneSector) (t := ⟨[], fun _ => 0⟩) true (sampleEnv false) (fun _ => 5) 0 1
  have h2 := Step.rw (d := oneSector) (t := ⟨[⟨0, false, fun _ => 9⟩], fun _ => 0⟩) false (sampleEnv true)
    (fun _ => 0) 0 1
  rw [write_torn] at h1
  rw [read_cached] at h2
  refine ⟨_, _, h1, rfl, h2, rfl, rfl, ?_⟩
  rintro flat flat' ⟨hw, hr⟩
  cases hw with
  | @write _ _ _ done _ _ _ hle _ hflat =>
    cases hr with
    | read _ hdata =>
      have h9 : 9 = flat 0 := hdata rfl 0 (by decide)
      rw [hflat 0 (by decide)] at h9
      split_ifs at h9
      exact absurd h9 (by decide)

end Mos.FixedDisk
