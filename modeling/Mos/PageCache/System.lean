import Mos.Lib.Run
import Mos.PageCache.Cache

/-!
# Freshness of reads through the page cache

A read must return bytes at least as new as every write that had returned when it started.  This holds over every run
in which no write goes to the backing file of a page while a reader holds a copy of the page that it has loaded and
not yet inserted, and in which the update of a cached page can map it.
-/

namespace Mos.PageCache

open Lib List Function Step

variable {α : Type*}

private theorem same_page {x y : Nat} (h : y ≤ x) (hlt : y % pageSize + (x - y) < pageSize) :
    x / pageSize = y / pageSize := by
  unfold pageSize at *
  omega

private theorem updatePage_eq (cache : Cache) (mapped : Nat → Bool) (data : Nat → Byte α)
    (frames : Nat → Nat → Byte α) (offset count f b : Nat) : updatePage cache mapped data frames offset count f b =
      if (offset ≤ b ∧ b < offset + count) ∧ cache.lookup (offset / pageSize) = some f ∧
        mapped (offset / pageSize) = true then data b else frames f b := by
  unfold updatePage
  cases hl : cache.lookup (offset / pageSize) with
  | none => simp
  | some g =>
    by_cases hm : mapped (offset / pageSize) = true
    · by_cases hg : f = g
      · subst hg
        simp [hm, writeFrame]
      · have hg' : g ≠ f := fun h => hg h.symm
        simp [hm, writeFrame, update_of_ne hg, hg']
    · simp [hm]

/-- `fs_page_cache_update` writes the bytes of the range to the cached pages that it can map. -/
theorem fsPageCacheUpdate_eq (cache : Cache) (mapped : Nat → Bool) (data : Nat → Byte α) (frames : Nat → Nat → Byte α)
    (offset size f b : Nat) : fsPageCacheUpdate cache mapped data frames offset size f b =
      if (offset ≤ b ∧ b < offset + size) ∧ cache.lookup (b / pageSize) = some f ∧
      mapped (b / pageSize) = true then data b
      else frames f b := by
  induction hn : size using Nat.strongRecOn generalizing frames offset size with
  | _ n ih =>
    subst hn
    rw [fsPageCacheUpdate]
    by_cases h0 : size = 0
    · rw [dif_pos h0, if_neg (by omega)]
    obtain ⟨hpos, hle, hpage⟩ := updateCount_spec offset h0
    rw [dif_neg h0, ih _ (by omega) _ _ _ rfl, updatePage_eq]
    by_cases hb : offset ≤ b ∧ b < offset + updateCount offset size
    · -- the bytes of this round are those of one page
      have hpg : b / pageSize = offset / pageSize := same_page hb.1 (by omega)
      rw [if_neg (by omega), hpg]
      have hin : offset ≤ b ∧ b < offset + size := by omega
      simp [hb, hin]
    · have hiff : (offset + updateCount offset size ≤ b ∧
          b < offset + updateCount offset size + (size - updateCount offset size)) ↔
            (offset ≤ b ∧ b < offset + size) := by
        omega
      rw [if_neg (c := (offset ≤ b ∧ b < offset + updateCount offset size) ∧ _) fun h => hb h.1]
      simp only [hiff]

/-! ### The invariant -/

/-- A byte that was written to the backing file by a call that has not updated the cache yet. -/
def Pending (t : State α) (b : Nat) : Prop :=
  ∃ i pos count data blocks written, t.tasks i = .updating pos count data blocks written ∧ pos ≤ b ∧ b < pos + count

/-- What a task knows.  A loaded copy is as new as the backing file, and a frame in the hands of a reader is as new as
its floor. -/
def TaskOk (t : State α) (i : Nat) : Task α → Prop
  | .idle => True
  | .reading floor _ _ => ∀ b, floor b ≤ t.returned b
  | .missed floor _ _ => ∀ b, floor b ≤ t.returned b
  | .loaded floor pos _ f => (∀ b, floor b ≤ t.returned b) ∧ f < t.nextFrame ∧
      ∀ b, b / pageSize = pos / pageSize → t.frames f b = t.backing b
  | .holding floor pos _ f => (∀ b, floor b ≤ t.returned b) ∧ f < t.nextFrame ∧
      ∀ b, b / pageSize = pos / pageSize → floor b ≤ (t.frames f b).stamp
  | .writing _ _ written => t.rootLock = some i ∧ ∀ b, written b ≤ (t.backing b).stamp
  | .updating pos count data _ written => t.rootLock = some i ∧ (∀ b, written b ≤ (t.backing b).stamp) ∧
      ∀ b, pos ≤ b → b < pos + count → data b = t.backing b

structure Inv (t : State α) : Prop where
  backing_le : ∀ b, (t.backing b).stamp ≤ t.clock
  returned_le : ∀ b, t.returned b ≤ (t.backing b).stamp
  frames_le : ∀ f < t.nextFrame, ∀ b, (t.frames f b).stamp ≤ (t.backing b).stamp
  cached : ∀ p f, t.cache.lookup p = some f → f < t.nextFrame ∧ ∀ b, b / pageSize = p →
    t.returned b ≤ (t.frames f b).stamp ∧ (¬Pending t b → (t.backing b).stamp ≤ (t.frames f b).stamp)
  tasks : ∀ i, TaskOk t i (t.tasks i)

/-- The condition on a step: see the head of this file. -/
def Safe (t : State α) : Event α → Prop
  | .fwrite _ pos count => ∀ j floor p stop f, t.tasks j = .loaded floor p stop f →
      ∀ b, pos ≤ b → b < pos + count → b / pageSize ≠ p / pageSize
  | .update _ pos count mapped => ∀ b f, pos ≤ b → b < pos + count → t.cache.lookup (b / pageSize) = some f →
      mapped (b / pageSize) = true
  | _ => True

def Task.isUpdating : Task α → Prop
  | .updating .. => True
  | _ => False

variable {t u : State α} {i pos stop f count : Nat} {k : Task α} {floor written : Nat → Nat}

private theorem pending_iff (hu : u.tasks = update t.tasks i k)
    (hold : ¬(t.tasks i).isUpdating) (hnew : ¬k.isUpdating) (b : Nat) : Pending u b ↔ Pending t b := by
  unfold Pending
  rw [hu]
  constructor
  · rintro ⟨j, pos, count, data, blocks, written, hj, hb⟩
    by_cases hji : j = i
    · subst hji
      rw [update_self] at hj
      exact absurd (by rw [hj]; trivial) hnew
    · rw [update_of_ne hji] at hj
      exact ⟨j, pos, count, data, blocks, written, hj, hb⟩
  · rintro ⟨j, pos, count, data, blocks, written, hj, hb⟩
    have hji : j ≠ i := by
      rintro rfl
      exact absurd (by rw [hj]; trivial) hold
    exact ⟨j, pos, count, data, blocks, written, by rw [update_of_ne hji]; exact hj, hb⟩

/-! ### Steps -/

section

variable (h : Inv t)

include h

theorem Inv.task (hi : t.tasks i = k) : TaskOk t i k := hi ▸ h.tasks i

theorem Inv.setTask {old : Task α} (hi : t.tasks i = old) (hold : ¬old.isUpdating)
    (hnew : ¬k.isUpdating) (hk : TaskOk t i k) : Inv (t.setTask i k) := by
  subst hi
  refine { h with cached := fun p f hp => ⟨(h.cached p f hp).1, fun b hb => ?_⟩, tasks := fun j => ?_ }
  · obtain ⟨h1, h2⟩ := (h.cached p f hp).2 b hb
    exact ⟨h1, fun hn => h2 fun hpend => hn ((pending_iff rfl hold hnew b).mpr hpend)⟩
  · exact (forall_update_iff t.tasks fun j k => TaskOk t j k).mpr ⟨hk, fun j _ => h.tasks j⟩ j

theorem Inv.with_cache (cache : Cache)
    (hc : ∀ p f, cache.lookup p = some f → t.cache.lookup p = some f ∨ (f < t.nextFrame ∧ ∀ b, b / pageSize = p →
      t.frames f b = t.backing b)) : Inv { t with cache := cache } := by
  refine { h with cached := fun p f hp => ?_ }
  rcases hc p f hp with hold | ⟨hf, hnew⟩
  · exact h.cached p f hold
  · refine ⟨hf, fun b hb => ?_⟩
    change t.returned b ≤ (t.frames f b).stamp ∧ (_ → (t.backing b).stamp ≤ (t.frames f b).stamp)
    rw [hnew b hb]
    exact ⟨h.returned_le b, fun _ => Nat.le_refl _⟩

/-- A reader that gets a frame from the cache gets one as new as its floor. -/
theorem Inv.holding (hfloor : ∀ b, floor b ≤ t.returned b) (hc : t.cache.lookup (pos / pageSize) = some f) :
    TaskOk t i (.holding floor pos stop f) :=
  ⟨hfloor, (h.cached _ f hc).1, fun b hb => Nat.le_trans (hfloor b) ((h.cached _ f hc).2 b hb).1⟩

theorem Inv.load : Inv t.load := by
  have hsame : ∀ f < t.nextFrame, t.load.frames f = t.frames f := fun f hf =>
    update_of_ne (Nat.ne_of_lt hf) _ _
  refine ⟨h.backing_le, h.returned_le, fun f hf b => ?_, fun p f hp => ?_, fun i => ?_⟩
  · rcases Nat.lt_succ_iff_lt_or_eq.1 hf with hf | rfl
    · rw [hsame f hf]
      exact h.frames_le f hf b
    · exact Nat.le_of_eq (congrArg Byte.stamp (congrFun (update_self _ _ _) b))
  · obtain ⟨hf, hb⟩ := h.cached p f hp
    rw [hsame f hf]
    exact ⟨Nat.lt_succ_of_lt hf, hb⟩
  · change TaskOk t.load i (t.tasks i)
    cases hk : t.tasks i with
    | loaded floor pos stop f | holding floor pos stop f =>
      obtain ⟨h1, h2, h3⟩ := h.task hk
      exact ⟨h1, Nat.lt_succ_of_lt h2, fun b hb => by rw [hsame f h2]; exact h3 b hb⟩
    | _ => exact h.task hk

theorem Inv.lock (hfree : t.rootLock = none) (i : Nat) : Inv { t with rootLock := some i } := by
  refine { h with tasks := fun j => ?_ }
  change TaskOk { t with rootLock := some i } j (t.tasks j)
  cases hk : t.tasks j with
  | writing pos blocks written | updating pos count data blocks written =>
    exact absurd (hfree.symm.trans (h.task hk).1) (by simp)
  | _ => exact h.task hk

theorem Inv.no_pending (hlock : t.rootLock = some i) (hi : t.tasks i = k) (hk : ¬k.isUpdating) (b : Nat) :
    ¬Pending t b := by
  rintro ⟨j, pos, count, data, blocks, written, hj, -⟩
  obtain rfl : i = j := Option.some.inj (hlock.symm.trans (h.task hj).1)
  rw [← hi, hj] at hk
  exact hk trivial

/-- The tasks other than the one with the mount lock are readers, and stay right if what readers rely on is kept. -/
theorem Inv.readers (hlock : t.rootLock = some i) (hu : u.tasks = Function.update t.tasks i k) (hi : TaskOk u i k)
    (hret : ∀ b, t.returned b ≤ u.returned b) (hnext : u.nextFrame = t.nextFrame)
    (hloaded : ∀ j floor pos stop f, t.tasks j = .loaded floor pos stop f →
      ∀ b, b / pageSize = pos / pageSize → u.frames f b = u.backing b)
    (hstamp : ∀ f < t.nextFrame, ∀ b n, n ≤ t.returned b → n ≤ (t.frames f b).stamp → n ≤ (u.frames f b).stamp) :
    ∀ j, TaskOk u j (u.tasks j) := by
  rw [hu]
  refine (forall_update_iff t.tasks fun j k => TaskOk u j k).mpr ⟨hi, fun j hji => ?_⟩
  cases hk : t.tasks j with
  | idle => trivial
  | reading floor pos stop | missed floor pos stop => exact fun b => Nat.le_trans (h.task hk b) (hret b)
  | loaded floor pos stop f =>
    obtain ⟨h1, h2, -⟩ := h.task hk
    exact ⟨fun b => Nat.le_trans (h1 b) (hret b), hnext ▸ h2, hloaded j floor pos stop f hk⟩
  | holding floor pos stop f =>
    obtain ⟨h1, h2, h3⟩ := h.task hk
    exact ⟨fun b => Nat.le_trans (h1 b) (hret b), hnext ▸ h2, fun b hb => hstamp f h2 b _ (h1 b) (h3 b hb)⟩
  | writing pos blocks written | updating pos count data blocks written =>
    exact absurd (Option.some.inj ((h.task hk).1.symm.trans hlock)) hji

theorem Inv.fwrite {blocks rest : List (Block α)} {data : Nat → Byte α} (hi : t.tasks i = .writing pos blocks written)
    (hdata : ∀ b, (data b).stamp = t.clock + 1) (hsafe : Safe t (.fwrite i pos count)) :
    Inv ((t.fwrite pos count data).setTask i (.updating pos count data rest
        fun b => if pos ≤ b ∧ b < pos + count then t.clock + 1 else written b)) := by
  obtain ⟨hlock, hwritten⟩ := h.task hi
  have hnone := h.no_pending hlock hi id
  -- the backing file only gets newer
  have hback : ∀ b, (t.backing b).stamp ≤
      (if pos ≤ b ∧ b < pos + count then data b else t.backing b).stamp := by
    intro b
    split_ifs
    · exact hdata b ▸ Nat.le_succ_of_le (h.backing_le b)
    · exact Nat.le_refl _
  refine ⟨fun b => ?_, fun b => ?_, fun f hf b => ?_, fun p f hp => ⟨(h.cached p f hp).1, fun b hb => ?_⟩, ?_⟩
  · change (if pos ≤ b ∧ b < pos + count then data b else t.backing b).stamp ≤ t.clock + 1
    split_ifs
    · exact Nat.le_of_eq (hdata b)
    · exact Nat.le_succ_of_le (h.backing_le b)
  · exact Nat.le_trans (h.returned_le b) (hback b)
  · exact Nat.le_trans (h.frames_le f hf b) (hback b)
  · obtain ⟨h1, h2⟩ := (h.cached p f hp).2 b hb
    refine ⟨h1, fun hnp => ?_⟩
    change (if pos ≤ b ∧ b < pos + count then data b else t.backing b).stamp ≤ _
    rw [if_neg fun hin => hnp ⟨i, pos, count, _, _, _, update_self _ _ _, hin⟩]
    exact h2 (hnone b)
  · refine h.readers hlock rfl ⟨hlock, fun b => ?_, fun b h1 h2 => (if_pos ⟨h1, h2⟩).symm⟩ (fun _ => Nat.le_refl _)
      rfl (fun j floor p stop f hk b hb => ?_) fun _ _ _ _ _ hn => hn
    · change (if pos ≤ b ∧ b < pos + count then t.clock + 1 else written b) ≤
        (if pos ≤ b ∧ b < pos + count then data b else t.backing b).stamp
      split_ifs
      · exact Nat.le_of_eq (hdata b).symm
      · exact hwritten b
    · change t.frames f b = if pos ≤ b ∧ b < pos + count then data b else t.backing b
      rw [if_neg fun hin => hsafe j floor p stop f hk b hin.1 hin.2 hb]
      exact (h.task hk).2.2 b hb

theorem Inv.update {data : Nat → Byte α} {blocks : List (Block α)} {mapped : Nat → Bool}
    (hi : t.tasks i = .updating pos count data blocks written) (hsafe : Safe t (.update i pos count mapped)) :
    Inv ({ t with frames := fsPageCacheUpdate t.cache mapped data t.frames pos count }.setTask i
      (.writing (pos + count) blocks written)) := by
  obtain ⟨hlock, hwritten, hdata⟩ := h.task hi
  have hupdate := fsPageCacheUpdate_eq t.cache mapped data t.frames pos count
  generalize fsPageCacheUpdate t.cache mapped data t.frames pos count = frames at hupdate
  -- a byte of a frame is unchanged or that of the backing file
  have hframe : ∀ f b, frames f b = t.frames f b ∨ frames f b = t.backing b := by
    intro f b
    rw [hupdate]
    split_ifs with hin
    · exact .inr (hdata b hin.1.1 hin.1.2)
    · exact .inl rfl
  have hpend : ∀ b, Pending t b → pos ≤ b ∧ b < pos + count := by
    rintro b ⟨j, pos', count', data', blocks', written', hj, hb⟩
    obtain rfl : i = j := Option.some.inj (hlock.symm.trans (h.task hj).1)
    rw [hi] at hj
    cases hj
    exact hb
  refine ⟨h.backing_le, h.returned_le, fun f hf b => ?_, fun p f hp => ⟨(h.cached p f hp).1, fun b hb => ?_⟩, ?_⟩
  · change (frames f b).stamp ≤ (t.backing b).stamp
    rcases hframe f b with he | he
    · rw [he]
      exact h.frames_le f hf b
    · exact Nat.le_of_eq (by rw [he])
  · obtain ⟨h1, h2⟩ := (h.cached p f hp).2 b hb
    change t.returned b ≤ (frames f b).stamp ∧
      (_ → (t.backing b).stamp ≤ (frames f b).stamp)
    by_cases hin : pos ≤ b ∧ b < pos + count
    · have hl : t.cache.lookup (b / pageSize) = some f := hb ▸ hp
      rw [hupdate, if_pos ⟨hin, hl, hsafe b f hin.1 hin.2 hl⟩, hdata b hin.1 hin.2]
      exact ⟨h.returned_le b, fun _ => Nat.le_refl _⟩
    · rw [hupdate, if_neg fun hc => hin hc.1]
      exact ⟨h1, fun _ => h2 fun hp => hin (hpend b hp)⟩
  · refine h.readers hlock rfl ⟨hlock, hwritten⟩ (fun _ => Nat.le_refl _) rfl (fun j floor p stop f hk b hb => ?_)
      fun f hf b n hn1 hn2 => ?_
    · change frames f b = t.backing b
      rcases hframe f b with he | he <;> rw [he]
      exact (h.task hk).2.2 b hb
    · change n ≤ (frames f b).stamp
      rcases hframe f b with he | he <;> rw [he]
      · exact hn2
      · exact Nat.le_trans hn1 (h.returned_le b)

theorem Inv.writeEnd (hi : t.tasks i = .writing pos [] written) :
    Inv ({ t with rootLock := none, returned := fun b => max (t.returned b) (written b) }.setTask i .idle) := by
  obtain ⟨hlock, hwritten⟩ := h.task hi
  have hnone := h.no_pending hlock hi id
  have hmax : ∀ b, max (t.returned b) (written b) ≤ (t.backing b).stamp := fun b =>
    Nat.max_le.2 ⟨h.returned_le b, hwritten b⟩
  refine ⟨h.backing_le, hmax, h.frames_le, fun p f hp => ⟨(h.cached p f hp).1, fun b hb => ?_⟩, ?_⟩
  · have hfresh := ((h.cached p f hp).2 b hb).2 (hnone b)
    exact ⟨Nat.le_trans (hmax b) hfresh, fun _ => hfresh⟩
  · exact h.readers hlock rfl trivial (fun b => Nat.le_max_left _ _) rfl
      (fun _ _ _ _ _ hk b hb => (h.task hk).2.2 b hb) fun _ _ _ _ _ hn => hn

end

theorem Inv.afterCopy (hk : TaskOk t i (.holding floor pos stop f)) (hpage : pos % pageSize + count ≤ pageSize) :
    TaskOk t i (PageCache.afterCopy floor (pos + count) stop f) ∧
      ¬(PageCache.afterCopy (α := α) floor (pos + count) stop f).isUpdating := by
  unfold PageCache.afterCopy
  split_ifs with h1 h2
  · exact ⟨trivial, id⟩
  · exact ⟨hk.1, id⟩
  · refine ⟨⟨hk.1, hk.2.1, fun b hb => hk.2.2 b (hb.trans (same_page (Nat.le_add_right _ _) ?_))⟩, id⟩
    have hne : pos % pageSize + count ≠ pageSize := fun he => h2 (by
      rw [← Nat.mod_add_mod, he, Nat.mod_self])
    omega

private theorem lookup_filter_ne {cache : Cache} {p q : Nat} (h : (cache.filter fun e => e.1 ≠ p).lookup q = some f) :
    cache.lookup q = some f := by
  obtain ⟨l1, l2, hl, hno⟩ := lookup_eq_some_iff.1 h
  obtain ⟨m1, m2, rfl, rfl, hm⟩ := filter_eq_append_iff.1 hl
  obtain ⟨n1, n2, rfl, hn, hq, -⟩ := filter_eq_cons_iff.1 hm
  refine lookup_eq_some_iff.2 ⟨m1 ++ n1, n2, by simp, fun e he => ?_⟩
  by_cases hep : e.1 = p
  · simpa [hep] using hq
  · rcases mem_append.1 he with he | he
    · exact hno e (mem_filter.2 ⟨he, by simpa using hep⟩)
    · exact absurd (by simpa using hep) (hn e he)

theorem Inv.step {e : Event α} (h : Inv t) (hs : Step t e u) (hsafe : Safe t e) : Inv u := by
  cases hs with
  | @readStart i pos stop hi _ => exact h.setTask hi id id fun _ => Nat.le_refl _
  | @hit i pos stop f floor hi hc =>
    exact h.setTask hi id id (h.holding (h.task hi) hc)
  | @miss i pos stop floor hi _ =>
    have hk := h.task hi
    exact h.setTask hi id id hk
  | @load i pos stop floor hi _ =>
    refine h.load.setTask hi id id ⟨h.task hi, Nat.lt_succ_self _, fun b _ => ?_⟩
    exact congrFun (update_self _ _ _) b
  | @insertOld i pos stop f g floor hi hc =>
    exact h.setTask hi id id (h.holding (h.task hi).1 hc)
  | @insertNew i pos stop f floor hi _ =>
    have hk := h.task hi
    have hnew := h.with_cache ((pos / pageSize, f) :: t.cache) fun p g hp => by
      rw [lookup_cons] at hp
      by_cases hpp : p = pos / pageSize
      · have : (p == pos / pageSize) = true := by simp [hpp]
        rw [this] at hp
        cases hp
        exact .inr ⟨hk.2.1, fun b hb => hk.2.2 b (hb.trans hpp)⟩
      · have : (p == pos / pageSize) = false := by simp [hpp]
        rw [this] at hp
        exact .inl hp
    refine hnew.setTask hi id id (hnew.holding hk.1 ?_)
    rw [lookup_cons]
    simp
  | @copy i pos stop f count floor hi _ _ hpage =>
    obtain ⟨h1, h2⟩ := Inv.afterCopy (h.task hi) hpage
    exact h.setTask hi id h2 h1
  | @readEnd i hw hu =>
    refine h.setTask rfl ?_ id trivial
    cases hk : t.tasks i with
    | updating pos count data blocks written => exact absurd hk (hu _ _ _ _ _)
    | _ => exact id
  | evict p => exact h.with_cache _ fun q f hq => .inl (lookup_filter_ne hq)
  | invalidate => exact h.with_cache _ nofun
  | @writeStart i pos blocks hi hlock =>
    exact (h.lock hlock i).setTask hi id id ⟨rfl, fun _ => Nat.zero_le _⟩
  | fwrite hi _ => exact h.fwrite hi (fun _ => rfl) hsafe
  | update hi => exact h.update hi hsafe
  | writeEnd hi => exact h.writeEnd hi

private theorem initial_inv (content : Nat → α) (frames : Nat → Nat → Byte α) : Inv (initial content frames) :=
  ⟨fun _ => Nat.le_refl _, fun _ => Nat.le_refl _, fun _ hf => absurd hf (Nat.not_lt_zero _),
    fun _ _ hp => absurd hp (by simp [initial]), fun _ => trivial⟩

/-- In every run whose steps are safe, a read call returns for each byte a write at least as new as those that had
returned when the call started. -/
theorem page_cache_fresh {content : Nat → α} {frames : Nat → Nat → Byte α} {tr : List (Event α)} {t : State α}
    (h : Run (fun t e u => Step t e u ∧ Safe t e) (initial content frames) tr t) :
    (∀ i floor pos count bytes u, Step t (.read i floor pos count bytes) u →
      ∀ b, pos ≤ b → b < pos + count → floor b ≤ (bytes b).stamp) ∧
    ∀ p f, t.cache.lookup p = some f → ∀ b, b / pageSize = p → t.returned b ≤ (t.frames f b).stamp := by
  have hinv : Inv t := h.invariant_state Inv (initial_inv content frames) fun _ _ _ hi hs => hi.step hs.1 hs.2
  refine ⟨fun i floor pos count bytes u hs b h1 h2 => ?_, fun p f hp b hb => ((hinv.cached p f hp).2 b hb).1⟩
  cases hs with
  | copy hi _ _ hpage =>
    exact (hinv.task hi).2.2 b (same_page h1 (by omega))

private def zeros : State Nat := initial (fun _ => 0) fun _ _ => ⟨0, 0⟩

theorem page_cache_fresh_after_write : ∃ tr t, Run (fun t e u => Step t e u ∧ Safe t e) zeros tr t ∧
    ∃ floor bytes u, Step t (.read 2 floor 0 1 bytes) u ∧ floor 0 = 1 ∧ floor 0 ≤ (bytes 0).stamp := by
  have r1 : Run (fun t e u => Step t e u ∧ Safe t e) zeros _ _ :=
    Run.nil.snoc ⟨@writeStart Nat zeros 1 0 [⟨1, fun _ => 7⟩] rfl rfl, trivial⟩
  have r2 := r1.snoc ⟨@fwrite Nat _ 1 0 1 ⟨1, fun _ => 7⟩ [] _ true rfl (by decide), fun j floor p stop f hj => ?_⟩
  · have r3 := r2.snoc ⟨@update Nat _ 1 0 1 _ _ _ (fun _ => true) rfl, fun _ _ _ _ _ => rfl⟩
    have r4 := r3.snoc ⟨@writeEnd Nat _ 1 1 _ rfl, trivial⟩
    have r5 := r4.snoc ⟨@readStart Nat _ 2 0 1 rfl (by decide), trivial⟩
    have r6 := r5.snoc ⟨@miss Nat _ 2 0 1 _ rfl rfl, trivial⟩
    have r7 := r6.snoc ⟨@load Nat _ 2 0 1 _ rfl rfl, trivial⟩
    have r8 := r7.snoc ⟨@insertNew Nat _ 2 0 1 0 _ rfl rfl, trivial⟩
    refine ⟨_, _, r8, _, _, _, @copy Nat _ 2 0 1 0 1 _ rfl (by decide) (by decide) (by decide), rfl, ?_⟩
    exact (page_cache_fresh r8).1 2 _ 0 1 _ _ (@copy Nat _ 2 0 1 0 1 _ rfl (by decide) (by decide) (by decide)) 0
      (by decide) (by decide)
  · -- no task has loaded a page yet
    by_cases h1 : j = 1
    · subst h1
      cases hj
    · have hidle : (update zeros.tasks 1 (Task.writing 0 [⟨1, fun _ => 7⟩] fun _ => 0)) j = .idle :=
        update_of_ne h1 _ _
      cases hidle.symm.trans hj

/-- A reader loads the page, a write call writes the backing file, finds the page uncached and returns, and the reader
inserts its old copy: a read call that starts afterwards returns the byte from before the write. -/
theorem stale_page_cached : ∃ tr t, Run Step zeros tr t ∧ ∃ floor bytes u, Step t (.read 2 floor 0 1 bytes) u ∧
    floor 0 = 1 ∧ t.backing 0 = ⟨1, 7⟩ ∧ bytes 0 = ⟨0, 0⟩ := by
  have r1 : Run Step zeros _ _ := Run.nil.snoc (@readStart Nat zeros 0 0 1 rfl (by decide))
  have r2 := r1.snoc (@miss Nat _ 0 0 1 _ rfl rfl)
  have r3 := r2.snoc (@load Nat _ 0 0 1 _ rfl rfl)
  -- task 1 writes the byte and returns
  have r4 := r3.snoc (@writeStart Nat _ 1 0 [⟨1, fun _ => 7⟩] rfl rfl)
  have r5 := r4.snoc (@fwrite Nat _ 1 0 1 ⟨1, fun _ => 7⟩ [] _ true rfl (by decide))
  have r6 := r5.snoc (@update Nat _ 1 0 1 _ _ _ (fun _ => true) rfl)
  have r7 := r6.snoc (@writeEnd Nat _ 1 1 _ rfl)
  -- task 0 inserts its copy, and task 2 reads it
  have r8 := r7.snoc (@insertNew Nat _ 0 0 1 0 _ rfl rfl)
  have r9 := r8.snoc (@readStart Nat _ 2 0 1 rfl (by decide))
  have r10 := r9.snoc (@hit Nat _ 2 0 1 0 _ rfl rfl)
  refine ⟨_, _, r10, _, _, _, @copy Nat _ 2 0 1 0 1 _ rfl (by decide) (by decide) (by decide), rfl, rfl, ?_⟩
  exact (fsPageCacheUpdate_eq _ _ _ _ _ _ _ _).trans rfl

end Mos.PageCache
