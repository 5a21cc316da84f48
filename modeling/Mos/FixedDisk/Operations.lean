import Mos.FixedDisk.Logical

/-!
# The operations of the sector cache

Storing, flushing, reclaiming and recycling lines keep the logical content; a round of `cache_rw` changes it in the
sectors it writes and nowhere else.
-/

namespace Mos.FixedDisk

open Lib List

variable {α : Type*} {d : Disk}

variable {lines : List (Line α)} {device : Nat → α}

/-- The two states are both sound and mean the same disk. -/
structure Same (d : Disk) (st st' : State α) : Prop where
  ok : CacheOk d st'
  view : ∀ s, logical d st' s = logical d st s

variable {st st' : State α}

theorem Same.refl (h : CacheOk d st) : Same d st st := ⟨h, fun _ => rfl⟩

theorem Same.trans {st'' : State α} (h : Same d st st') (h' : Same d st' st'') : Same d st st'' :=
  ⟨h'.ok, fun s => (h'.view s).trans (h.view s)⟩

theorem CacheOk.perm {lines' : List (Line α)} (h : CacheOk d ⟨lines, device⟩) (hp : lines.Perm lines') :
    Same d ⟨lines, device⟩ ⟨lines', device⟩ :=
  ⟨⟨h.heads.perm hp, fun l hl => h.clean l (hp.mem_iff.2 hl)⟩, fun s => (logical_perm h.heads hp device s).symm⟩

theorem CacheOk.drop {l : Line α} (h : CacheOk d ⟨l :: lines, device⟩) (hl : l.dirty = false) :
    Same d ⟨l :: lines, device⟩ ⟨lines, device⟩ :=
  ⟨⟨h.heads.tail, fun m hm => h.clean m (mem_cons_of_mem _ hm)⟩, fun s =>
    (logical_drop h.heads (h.clean l mem_cons_self hl) s).symm⟩

/-- What `cache_store` does: the device changes only under the line, and a line that is clean afterwards is on it. -/
structure Stored (d : Disk) (device : Nat → α) (l : Line α) (device' : Nat → α) (l' : Line α) (ret : Int) : Prop where
  sector : l'.sector = l.sector
  data : l'.data = l.data
  outside : ∀ s, ¬covers d l s → device' s = device s
  clean : Clean d device' l'
  stored : ret = 0 → l'.dirty = false

variable {l : Line α} {ret : Int}

private theorem cacheStore_spec (hc : Clean d device l) (kmap : Bool) (rw : Int) :
    let r := cacheStore d device l kmap rw
    Stored d device l r.1 r.2.1 r.2.2 := by
  unfold cacheStore
  split_ifs with h1 h2 h3
  · exact ⟨rfl, rfl, fun _ _ => rfl, hc, fun _ => h1⟩
  · exact ⟨rfl, rfl, fun _ _ => rfl, hc, fun h => absurd h (show enomem ≠ 0 by decide)⟩
  · exact ⟨rfl, rfl, fun _ _ => rfl, hc, fun h => absurd h h3⟩
  · refine ⟨rfl, rfl, fun s hs => if_neg hs, fun _ s hs => ?_, fun _ => rfl⟩
    exact (if_pos (show covers d l s from hs)).symm

theorem Stored.same {device' : Nat → α} {l' : Line α}
    (h : CacheOk d ⟨l :: lines, device⟩) (hs : Stored d device l device' l' ret) :
    Same d ⟨l :: lines, device⟩ ⟨l' :: lines, device'⟩ := by
  have hheads := h.heads.replace hs.sector
  have hcov : ∀ s, covers d l' s ↔ covers d l s := fun s => by simp only [covers, hs.sector]
  refine ⟨⟨hheads, forall_mem_cons.2 ⟨hs.clean, fun m hm hd s hms => ?_⟩⟩, fun s => ?_⟩
  · have hns : ¬covers d l s := fun hls => (pairwise_cons.1 h.heads.apart).1 m hm s hls hms
    exact (h.clean m (mem_cons_of_mem _ hm) hd s hms).trans (hs.outside s hns).symm
  · rw [logical_cons hheads, logical_cons h.heads]
    by_cases hls : covers d l s
    · rw [if_pos hls, if_pos ((hcov s).mpr hls), value, value, hs.data, hs.sector]
    · rw [if_neg hls, if_neg fun h => hls ((hcov s).mp h)]
      exact logical_device fun _ => hs.outside s hls

open Same

private theorem flushLines_spec (others : List (Line α)) (h : CacheOk d ⟨others ++ lines, device⟩)
    (env : Nat → Bool × Int) :
    let r := flushLines d device lines env
    Same d ⟨others ++ lines, device⟩ ⟨others ++ r.2.1, r.1⟩ ∧ (r.2.2 = 0 → ∀ l ∈ r.2.1, l.dirty = false) := by
  induction lines generalizing device others env with
  | nil => exact ⟨refl h, fun _ l hl => absurd hl not_mem_nil⟩
  | cons l lines ih =>
    have hst := cacheStore_spec (h.clean l (by simp)) (env 0).1 (env 0).2
    -- the line is first in its place among the others
    have hone : Same d ⟨others ++ l :: lines, device⟩ ⟨others ++ (cacheStore d device l (env 0).1 (env 0).2).2.1 ::
      lines, (cacheStore d device l (env 0).1 (env 0).2).1⟩ := by
      have hfront := h.perm perm_middle
      have hstored := hst.same hfront.ok
      exact (hfront.trans hstored).trans (hstored.ok.perm perm_middle.symm)
    rw [flushLines]
    generalize cacheStore d device l (env 0).1 (env 0).2 = r at hst hone
    by_cases hret : r.2.2 = 0
    · have hmove : others ++ r.2.1 :: lines = (others ++ [r.2.1]) ++ lines := by simp
      rw [hmove] at hone
      obtain ⟨hsame, hclean⟩ := ih (others ++ [r.2.1]) hone.ok fun i => env (i + 1)
      rw [if_neg (not_not.2 hret)]
      have hback : ∀ rest, (others ++ [r.2.1]) ++ rest = others ++ r.2.1 :: rest := by simp
      rw [hback (flushLines d r.1 lines fun i => env (i + 1)).2.1] at hsame
      refine ⟨hone.trans hsame, fun h0 => forall_mem_cons.2 ⟨hst.stored hret, hclean h0⟩⟩
    · rw [if_pos hret]
      exact ⟨hone, fun h0 => absurd h0 hret⟩

theorem cacheFlush_spec (h : CacheOk d st) (env : Nat → Bool × Int) (flush : Int) :
    let r := cacheFlush d st env flush
    Same d st r.1 ∧ (r.2 = 0 → ∀ l ∈ r.1.lines, l.dirty = false) := by
  obtain ⟨hsame, hclean⟩ := flushLines_spec [] h env
  refine ⟨hsame, fun h0 => hclean ?_⟩
  unfold cacheFlush at h0
  dsimp only at h0
  split_ifs at h0 with hret
  · exact absurd h0 hret
  · exact Decidable.of_not_not hret

theorem logical_eq_device (h : CacheOk d st) (hclean : ∀ l ∈ st.lines, l.dirty = false) (s : Nat) :
    logical d st s = st.device s := by
  unfold logical
  by_cases hs : ∃ l ∈ st.lines, covers d l s
  · obtain ⟨l, hl, hls⟩ := hs
    rw [lookup_of_mem h.heads.apart hl hls, Option.getD_some]
    exact h.clean l hl (hclean l hl) s hls
  · rw [lookup_eq_none_iff.2 fun l hl hls => hs ⟨l, hl, hls⟩, Option.getD_none]

theorem reclaimLines_spec (others : List (Line α)) (pages : Nat) (h : CacheOk d ⟨others ++ lines, device⟩) :
    Same d ⟨others ++ lines, device⟩ ⟨others ++ reclaimLines pages lines, device⟩ := by
  induction lines generalizing others pages with
  | nil =>
    rw [reclaimLines]
    exact refl h
  | cons l lines ih =>
    cases pages with
    | zero => exact refl h
    | succ pages =>
      rw [reclaimLines]
      split_ifs with hd
      · have hmove : ∀ rest, others ++ l :: rest = (others ++ [l]) ++ rest := by simp
        rw [hmove] at h
        rw [hmove lines, hmove (reclaimLines (pages + 1) lines)]
        exact ih _ _ h
      · have hfront := h.perm perm_middle
        have hdrop := hfront.trans (hfront.ok.drop (by simpa using hd))
        exact hdrop.trans (ih others pages hdrop.ok)

/-! ### Acquiring a line -/

/-- The line has what the disk of `st` has. -/
def Shows (d : Disk) (st st' : State α) (line : Line α) : Prop :=
  Clean d st'.device line ∧ ∀ s, covers d line s → value line s = logical d st s

/-- The line at `head` is in the cache.  If it was neither found nor filled, only its own content may be wrong, and
the round is about to write all of it. -/
structure LineReady (d : Disk) (st : State α) (head off n : Nat) (write : Bool) (st' : State α) (line : Line α) :
    Prop where
  sector : line.sector = head
  rest : ∃ rest, st'.lines.Perm (line :: rest) ∧ HeadsOk d (line :: rest) ∧ (∀ m ∈ rest, Clean d st'.device m) ∧
    ∀ s, ¬covers d line s → logical d ⟨rest, st'.device⟩ s = logical d st s
  content : Shows d st st' line ∨ write = true ∧ off = 0 ∧ d.lineSize head ≤ n

def AcquireSpec (d : Disk) (st : State α) (head off n : Nat) (write : Bool) : Acquired α → Prop
  | .fail st' ret => Same d st st' ∧ ret ≠ 0
  | .line st' line => LineReady d st head off n write st' line

private theorem fillLine_spec {st0 : State α} (h : Same d st0 st) (env : Env α) (line : Line α)
    (ha : d.span ∣ line.sector) (hnew : ∀ m ∈ st.lines, m.sector ≠ line.sector) (off n : Nat) (write : Bool) :
    AcquireSpec d st0 line.sector off n write (fillLine d st env line off n write) := by
  unfold fillLine
  dsimp only
  have hheads : ∀ l' : Line α, l'.sector = line.sector → HeadsOk d (l' :: st.lines) := fun l' he =>
    h.ok.heads.cons (he ▸ ha) (he ▸ hnew)
  -- under the new line there is no other, so the device shows there
  have hdev : ∀ s, covers d line s → st.device s = logical d st0 s := by
    intro s hs
    have hnone : lookup (covers d) value st.lines s = none :=
      lookup_eq_none_iff.2 fun m hm => (pairwise_cons.1 (hheads line rfl).apart).1 m hm s hs
    rw [← h.view s, logical, hnone, Option.getD_none]
  split_ifs with h1 h2 h3
  · exact ⟨h, by decide⟩
  · exact ⟨h, h3⟩
  · have hval : ∀ s, covers d line s →
        value { line with data := pageRead st.device line.sector (d.lineSize line.sector) line.data } s =
          st.device s := by
      intro s hs
      simp only [covers] at hs
      simp only [value, pageRead]
      rw [if_pos (by omega), Nat.add_sub_cancel' hs.1]
    refine ⟨rfl, ⟨st.lines, perm_append_singleton _ _, hheads _ rfl, h.ok.clean, fun s _ => h.view s⟩,
      .inl ⟨fun _ s hs => hval s hs, fun s hs => (hval s hs).trans (hdev s hs)⟩⟩
  · refine ⟨rfl, ⟨st.lines, perm_append_singleton _ _, hheads _ rfl, h.ok.clean, fun s _ => h.view s⟩,
      .inr ?_⟩
    simp only [not_or, Bool.not_eq_false, not_not, Nat.not_lt] at h2
    exact h2

variable {line : Line α} {head off n sector : Nat}

theorem LineReady.of_mem (h : CacheOk d st) (hl : line ∈ st.lines) (off n : Nat)
    (write : Bool) : LineReady d st line.sector off n write st line := by
  obtain ⟨l1, l2, he⟩ := append_of_mem hl
  have hp : st.lines.Perm (line :: (l1 ++ l2)) := he ▸ perm_middle
  have hheads := h.heads.perm hp
  have hview : ∀ s, logical d st s = if covers d line s then value line s else logical d ⟨l1 ++ l2, st.device⟩ s :=
    fun s =>
    (logical_perm h.heads hp st.device s).trans (logical_cons hheads _ s)
  refine ⟨rfl, ⟨l1 ++ l2, hp, hheads, fun m hm => h.clean m (hp.mem_iff.2 (mem_cons_of_mem _ hm)), fun s hs => ?_⟩,
    .inl ⟨h.clean line hl, fun s hs => ?_⟩⟩
  · rw [hview, if_neg hs]
  · rw [hview, if_pos hs]

private theorem acquireLine_spec (h : CacheOk d st) (env : Env α) (head : Nat) (ha : d.span ∣ head) (off n : Nat)
    (write : Bool) : AcquireSpec d st head off n write (acquireLine d st env head off n write) := by
  unfold acquireLine
  split
  · rename_i line hfind
    have hsec : line.sector = head := by simpa using List.find?_some hfind
    exact hsec ▸ LineReady.of_mem h (List.mem_of_find?_eq_some hfind) off n write
  rename_i hfind
  have hnew : ∀ m ∈ st.lines, m.sector ≠ head := fun m hm => by simpa using List.find?_eq_none.1 hfind m hm
  dsimp only
  split
  · rename_i data _
    split_ifs
    · exact ⟨refl h, by decide⟩
    · exact fillLine_spec (refl h) env ⟨head, false, data⟩ ha hnew off n write
  split
  · exact ⟨refl h, by decide⟩
  rename_i l lines hl
  have hlines : st = ⟨l :: lines, st.device⟩ := by rw [← hl]
  rw [hlines] at h
  have hst := cacheStore_spec (h.clean l mem_cons_self) env.kmapStore env.rwStore
  have hsame := hst.same h
  generalize cacheStore d st.device l env.kmapStore env.rwStore = r at hst hsame
  rw [← hlines] at hsame
  split_ifs with hret
  · exact ⟨hsame, hret⟩
  · -- the stored line is clean, and its page is reused
    have hdrop := hsame.trans (hsame.ok.drop (hst.stored (Decidable.of_not_not hret)))
    exact fillLine_spec hdrop env ⟨head, false, r.2.1.data⟩ ha
      (fun m hm => hnew m (by rw [hl]; exact mem_cons_of_mem _ hm)) off n write

/-! ### Rounds -/

private theorem touchLine_perm {rest : List (Line α)} {line' : Line α} (hp : lines.Perm (line :: rest))
    (h : HeadsOk d (line :: rest)) (he : line'.sector = line.sector) :
    (touchLine lines line').Perm (line' :: rest) := by
  have herase : (lines.eraseP fun l => l.sector == line'.sector).Perm rest := by
    have hpw : lines.Pairwise fun a b => (a.sector == line'.sector) = true → (b.sector == line'.sector) = true →
      False := by
      refine (pairwise_map.1 (h.perm hp.symm).nodup).imp fun {a b} hne ha hb => hne ?_
      exact (beq_iff_eq.1 ha).trans (beq_iff_eq.1 hb).symm
    have hfirst := List.Perm.eraseP (fun l => l.sector == line'.sector) hpw hp
    rwa [eraseP_cons_of_pos (by simp [he])] at hfirst
  exact (perm_append_singleton _ _).trans (herase.cons _)

/-- The state after a line was exchanged for another with the same head. -/
theorem LineReady.touch {write : Bool} (h : LineReady d st head off n write st' line) (line' : Line α)
    (he : line'.sector = line.sector) (hc : Clean d st'.device line') :
    CacheOk d ⟨touchLine st'.lines line', st'.device⟩ ∧ ∀ s, logical d ⟨touchLine st'.lines line', st'.device⟩ s =
      if covers d line s then value line' s else logical d st s := by
  obtain ⟨rest, hp, hheads, hclean, hview⟩ := h.rest
  have hp' := touchLine_perm hp hheads he
  have hheads' := hheads.replace he
  refine ⟨⟨hheads'.perm hp'.symm, fun m hm => ?_⟩, fun s => ?_⟩
  · rcases mem_cons.1 (hp'.mem_iff.1 hm) with rfl | hm
    · exact hc
    · exact hclean m hm
  · have hcov : covers d line' s ↔ covers d line s := by simp only [covers, he]
    rw [logical_perm (hheads'.perm hp'.symm) hp', logical_cons hheads']
    by_cases hs : covers d line s
    · rw [if_pos hs, if_pos (hcov.2 hs)]
    · rw [if_neg hs, if_neg fun h => hs (hcov.1 h), hview s hs]

private theorem round_covers (count : Nat) (hsec : line.sector = sector - sector % d.span) {s : Nat}
    (h1 : sector ≤ s) (h2 : s < sector + roundCount d sector count) (h3 : s < d.sectors) : covers d line s := by
  have hle : roundCount d sector count ≤ d.span - sector % d.span := by
    unfold roundCount
    split_ifs <;> omega
  have := lt_lineSize.2 (show s - line.sector < d.span ∧ line.sector + (s - line.sector) < d.sectors by omega)
  unfold covers
  omega

/-- What a call has done: it handled `done` sectors, all of them if it succeeded. -/
structure RwSpec (d : Disk) (write : Bool) (st : State α) (buffer : Nat → α) (sector count pos : Nat) (r : RwResult α)
    (done : Nat) : Prop where
  ok : CacheOk d r.st
  le : done ≤ count
  all : r.ret = 0 → done = count
  view : ∀ s < d.sectors, logical d r.st s =
    if write = true ∧ sector ≤ s ∧ s < sector + done then buffer (pos + (s - sector)) else logical d st s
  data : write = false → ∀ i < done, r.buffer (pos + i) = logical d st (sector + i)
  keep : ∀ i, write = true ∨ i < pos → r.buffer i = buffer i

theorem RwSpec.stop {write : Bool} (h : Same d st st') (buffer : Nat → α) (sector count pos : Nat)
    (hret : ret = 0 → count = 0) : RwSpec d write st buffer sector count pos ⟨st', buffer, ret⟩ 0 := by
  refine ⟨h.ok, Nat.zero_le _, fun h0 => (hret h0).symm, fun s _ => ?_, fun _ i hi => absurd hi (Nat.not_lt_zero _),
    fun _ _ => rfl⟩
  rw [if_neg (by omega)]
  exact h.view s

variable {count pos done : Nat} {buffer : Nat → α} {st1 : State α} {r : RwResult α}

theorem LineReady.write
    (h : LineReady d st (sector - sector % d.span) (sector % d.span) (roundCount d sector count) true st' line)
    (buffer : Nat → α) (pos : Nat) :
    let line' : Line α := { line with dirty := true,
                                      data := copySectors line.data buffer (sector % d.span) pos
                                        (roundCount d sector count) }
    CacheOk d ⟨touchLine st'.lines line', st'.device⟩ ∧ ∀ s < d.sectors,
      logical d ⟨touchLine st'.lines line', st'.device⟩ s = if sector ≤ s ∧
        s < sector + roundCount d sector count then
        buffer (pos + (s - sector)) else logical d st s := by
  intro line'
  obtain ⟨hok, hview⟩ := h.touch line' rfl fun hd => absurd hd Bool.noConfusion
  refine ⟨hok, fun s hs => ?_⟩
  have hsec := h.sector
  have hmod := Nat.mod_le sector d.span
  rw [hview s]
  by_cases hin : sector ≤ s ∧ s < sector + roundCount d sector count
  · rw [if_pos (round_covers count hsec hin.1 hin.2 hs), if_pos hin]
    simp only [value, copySectors, line']
    rw [if_pos (by omega)]
    congr 1
    omega
  rw [if_neg hin]
  split_ifs with hcov
  swap
  · rfl
  have hout : ¬(sector % d.span ≤ s - line.sector ∧
      s - line.sector < sector % d.span + roundCount d sector count) := by
    have := hcov.1
    omega
  simp only [value, copySectors, line']
  rw [if_neg hout]
  rcases h.content with hshow | ⟨-, hoff, hn⟩
  · exact hshow.2 s hcov
  · have h1 := hcov.1
    have h2 := hcov.2
    rw [hsec] at h2
    omega

theorem LineReady.read {write : Bool} (h : LineReady d st head off n write st' line) (hshow : Shows d st st' line) :
    Same d st ⟨touchLine st'.lines line, st'.device⟩ ∧ Same d st st' := by
  obtain ⟨hclean, hval⟩ := hshow
  obtain ⟨hok, hview⟩ := h.touch line rfl hclean
  have hsame : ∀ s, logical d ⟨touchLine st'.lines line, st'.device⟩ s = logical d st s := by
    intro s
    rw [hview s]
    split_ifs with hs
    · exact hval s hs
    · rfl
  obtain ⟨rest, hp, hheads, -, -⟩ := h.rest
  have hperm : (touchLine st'.lines line).Perm st'.lines := (touchLine_perm hp hheads rfl).trans hp.symm
  exact ⟨⟨hok, hsame⟩, .trans ⟨hok, hsame⟩ (hok.perm hperm)⟩

/-- A first round of `n` sectors followed by the rest of a call. -/
theorem RwSpec.cons_write (hn : n ≤ count) (hview : ∀ s < d.sectors, logical d st1 s =
      if sector ≤ s ∧ s < sector + n then buffer (pos + (s - sector)) else logical d st s)
    (h : RwSpec d true st1 buffer (sector + n) (count - n) (pos + n) r done) :
    RwSpec d true st buffer sector count pos r (n + done) := by
  have hle := h.le
  refine ⟨h.ok, by omega, fun h0 => by have := h.all h0; omega, fun s hs => ?_, fun hw => absurd hw (by decide),
    fun i _ => h.keep i (.inl rfl)⟩
  rw [h.view s hs, hview s hs]
  by_cases h1 : sector ≤ s ∧ s < sector + n
  · rw [if_neg (by omega), if_pos h1, if_pos ⟨rfl, by omega⟩]
  rw [if_neg h1]
  by_cases h2 : sector + n ≤ s ∧ s < sector + n + done
  · rw [if_pos ⟨rfl, h2⟩, if_pos ⟨rfl, by omega⟩]
    congr 1
    omega
  · rw [if_neg (by omega), if_neg (by omega)]

theorem RwSpec.cons_read {data : Nat → α}
    (hn : n ≤ count) (hsame : Same d st st1) (hdata : ∀ i < n, data (off + i) = logical d st (sector + i))
    (h : RwSpec d false st1 (copySectors buffer data pos off n) (sector + n) (count - n) (pos + n) r done) :
    RwSpec d false st buffer sector count pos r (n + done) := by
  have hle := h.le
  refine ⟨h.ok, by omega, fun h0 => by have := h.all h0; omega, fun s hs => ?_, fun _ i hi => ?_, fun i hi => ?_⟩
  · rw [h.view s hs, if_neg (by simp), if_neg (by simp)]
    exact hsame.view s
  · by_cases hin : i < n
    · rw [h.keep _ (.inr (by omega)), copySectors, if_pos (by omega), Nat.add_sub_cancel_left]
      exact hdata i hin
    · have hrest := h.data rfl (i - n) (by omega)
      rw [hsame.view, show pos + n + (i - n) = pos + i by omega,
        show sector + n + (i - n) = sector + i by omega] at hrest
      exact hrest
  · have hi : i < pos := by simpa using hi
    rw [h.keep _ (.inr (by omega)), copySectors, if_neg (by omega)]

/-- The `i`-th round of a call covers a whole line. -/
def WholeLine (d : Disk) (sector count i : Nat) : Prop :=
  let head := (sector / d.span + i) * d.span
  sector ≤ head ∧ head < sector + count ∧ head + d.lineSize head ≤ sector + count

private theorem wholeLine_zero (h0 : count ≠ 0) (hoff : sector % d.span = 0)
    (hn : d.lineSize (sector - sector % d.span) ≤ roundCount d sector count) : WholeLine d sector count 0 := by
  have hle := (roundCount_pos d sector h0).2
  have hhead : sector / d.span * d.span = sector := Nat.div_mul_cancel (Nat.dvd_of_mod_eq_zero hoff)
  rw [hoff, Nat.sub_zero] at hn
  simp only [WholeLine, Nat.add_zero, hhead]
  omega

theorem WholeLine.succ {i : Nat} (hle : roundCount d sector count ≤ count)
    (h : WholeLine d (sector + roundCount d sector count) (count - roundCount d sector count) i) :
    WholeLine d sector count (i + 1) := by
  obtain ⟨h1, h2, h3⟩ := h
  have hn : roundCount d sector count = d.span - sector % d.span := by
    unfold roundCount at h1 h2 ⊢
    split_ifs at h1 h2 ⊢
    · omega
    · rfl
  have hnext : (sector + roundCount d sector count) / d.span = sector / d.span + 1 := by
    have hlt := Nat.mod_lt sector d.span_pos
    have hdiv := Nat.div_add_mod sector d.span
    refine Nat.div_eq_of_eq_mul_left d.span_pos ?_
    rw [hn, Nat.add_mul, Nat.one_mul, Nat.mul_comm]
    omega
  rw [hnext, Nat.add_assoc, Nat.add_comm 1 i] at h1 h2 h3
  simp only [WholeLine]
  omega

/-- Where a write covers a whole line, the page of the line can be mapped for the copy. -/
theorem rwLoop_spec {write : Bool} (h : CacheOk d st) (env : Nat → Env α) (buffer : Nat → α)
    (sector count pos : Nat) (hfit : sector + count ≤ d.sectors)
    (hmap : write = true → ∀ i, WholeLine d sector count i → (env i).kmapCopy = true) :
    ∃ done, RwSpec d write st buffer sector count pos (rwLoop d write st env buffer sector count pos) done := by
  induction hn : count using Nat.strongRecOn generalizing st env buffer sector count pos with
  | _ k ih =>
    subst hn
    by_cases h0 : count = 0
    · rw [rwLoop, dif_pos h0]
      exact ⟨0, RwSpec.stop (refl h) _ _ _ _ fun _ => h0⟩
    have hacq := acquireLine_spec h (env 0) (sector - sector % d.span)
      (Nat.dvd_sub_mod sector) (sector % d.span) (roundCount d sector count) write
    obtain ⟨hpos, hle⟩ := roundCount_pos d sector h0
    have hmap' := fun hw i hi => hmap hw (i + 1) (WholeLine.succ hle hi)
    rw [rwLoop, dif_neg h0]
    dsimp only
    generalize acquireLine d st (env 0) _ _ _ write = acq at hacq ⊢
    cases acq with
    | fail st' ret => exact ⟨0, RwSpec.stop hacq.1 _ _ _ _ fun h => absurd h hacq.2⟩
    | line st' line =>
      dsimp only
      have hready : LineReady d st _ _ _ write st' line := hacq
      by_cases hcopy : (env 0).kmapCopy = false
      · rw [if_pos hcopy]
        have hshow : Shows d st st' line := by
          refine hready.content.resolve_right fun ⟨hw, hoff, hn⟩ => ?_
          rw [hmap hw 0 (wholeLine_zero h0 hoff hn)] at hcopy
          cases hcopy
        exact ⟨0, RwSpec.stop (hready.read hshow).2 _ _ _ _ fun h => absurd h (by decide)⟩
      rw [if_neg hcopy]
      cases write with
      | true =>
        obtain ⟨hok, hview⟩ := hready.write buffer pos
        obtain ⟨done, hdone⟩ := ih (count - roundCount d sector count) (by omega) hok _ _ _ _ _ (by omega) hmap' rfl
        exact ⟨_, hdone.cons_write hle hview⟩
      | false =>
        have hshow : Shows d st st' line := hready.content.resolve_right fun h => absurd h.1 (by decide)
        obtain ⟨hsame, -⟩ := hready.read hshow
        obtain ⟨done, hdone⟩ := ih (count - roundCount d sector count)
          (by omega) hsame.ok _ _ _ _ _ (by omega) hmap' rfl
        refine ⟨_, hdone.cons_read hle hsame fun i hi => ?_⟩
        have hcov := round_covers count hready.sector (Nat.le_add_right sector i) (by omega) (by omega)
        rw [← hshow.2 _ hcov, value, hready.sector]
        have hmod := Nat.mod_le sector d.span
        congr 1
        omega

end Mos.FixedDisk
