import Mos.Lock.Rwlock

/-!
# Runs of readers-writer locks

The invariant of `rwlock_t` over every interleaving of fewer than `2 ^ 30` tasks.  The bit fields of the state word
count the tasks: readers, the writer, and the writers past the setting of `RW_PENDING`.  Two facts exclude lost
wakeups. While nobody holds the lock and a writer sleeps, some task is on its way to retry for a writer or to wake one
(`RwInv.wakeW`); while the gate is open and a reader sleeps, an unlocking writer is still waking readers
(`RwInv.wakeR`), since nobody else wakes them.
-/

namespace Mos.Lock

open Lib Function RwPc Rw Fintype

variable {p : RwPc}

namespace RwPc

/-- Holds `wait_lock`. -/
def critical : RwPc → Bool
  | rereadLoad | rereadCas _ | readPark | readEnqueued _ | readRet | lastCheck | lastWake | lastUnlock | writeCount
  | writePend | writeTry | writePark | writeEnqueued _ | writeDone | writeClear | writeRet | outClear | outCheck
  | outWakeWriter | outWakeReaders | outUnlock => true
  | _ => false

/-- Counted in the reader field. -/
def holdsRead : RwPc → Bool
  | readRet | readHeld | readSub => true
  | _ => false

/-- Owns the writer bit. -/
def holdsWrite : RwPc → Bool
  | writeDone | writeClear | writeRet | writeHeld | outSpin | outClear => true
  | _ => false

/-- Counted in `writers_waiting`. -/
def waits : RwPc → Bool
  | writePend | writeTry | writePark | writeEnqueued _ | writeAsleep _ | writeAgain | writeDone => true
  | _ => false

/-- Keeps `RW_PENDING` set. -/
def pends : RwPc → Bool
  | writeTry | writePark | writeEnqueued _ | writeAsleep _ | writeAgain | writeDone | writeClear => true
  | _ => false

def parkedR : RwPc → Bool
  | readEnqueued p | readAsleep p => p
  | _ => false

def parkedW : RwPc → Bool
  | writeEnqueued p | writeAsleep p => p
  | _ => false

/-- A reader that sleeps or is about to. -/
def needyR : RwPc → Bool
  | readPark => true
  | p => p.parkedR

/-- A writer that sleeps or is about to. -/
def needyW : RwPc → Bool
  | writePark => true
  | p => p.parkedW

/-- Bound to retry as a waiting writer or to wake one. -/
def activeW : RwPc → Bool
  | writeTry | writeAgain | lastSpin | lastCheck | lastWake | outCheck | outWakeWriter => true
  | writeEnqueued p | writeAsleep p => !p
  | _ => false

/-- Bound to empty the list of readers. -/
def wakesAll : RwPc → Bool
  | outCheck | outWakeReaders => true
  | _ => false

def clears : RwPc → Bool
  | writeClear => true
  | _ => false

/-- A value tried by `rwlock_try_read` shows an open gate. -/
def Sane : RwPc → Prop
  | readCas v | rereadCas v => v &&& (rwWriter ||| rwPending) = 0
  | dead => False
  | _ => True

/-- A move that concerns neither the counts nor the queues, and gives up no duty. -/
def keeps (a b : RwPc) : Bool :=
  a.holdsRead == b.holdsRead && a.holdsWrite == b.holdsWrite && a.waits == b.waits && a.pends == b.pends &&
    a.parkedR == b.parkedR && a.parkedW == b.parkedW && (!b.needyW || a.needyW) && (!a.activeW || b.activeW) &&
    (!b.needyR || a.needyR) && (!a.wakesAll || b.wakesAll) && !b.clears

private theorem waits_of_needyW (h : p.needyW = true) : p.waits = true := by
  cases p <;> first | rfl | cases h

private theorem pends_of_waits (h : p.waits = true) (hc : p.critical = false) : p.pends = true := by
  cases p with
  | writePend | writeTry | writePark | writeEnqueued | writeDone => cases hc
  | writeAsleep | writeAgain => rfl
  | _ => cases h

private theorem waits_of_pends (h : p.pends = true) (hc : p ≠ .writeClear) : p.waits = true := by
  cases p with
  | writeClear => exact absurd rfl hc
  | writeTry | writePark | writeEnqueued | writeAsleep | writeAgain | writeDone => rfl
  | _ => cases h

private theorem pends_of_needyW (h : p.needyW = true) : p.pends = true := by
  cases p <;> first | rfl | cases h

end RwPc

variable {T : Type} [Fintype T]

structure RwInv (s : Rw T) (r : Nat) (w p : Bool) : Prop where
  state : s.state = rwWord r w p
  readers : r = tally RwPc.holdsRead s.pc
  writer : Guards w RwPc.holdsWrite s.pc
  alone : w = true → r = 0
  waiting : s.writersWaiting = tally RwPc.waits s.pc
  pending : p = true ↔ 0 < tally RwPc.pends s.pc
  clearing : ∀ t, s.pc t = .writeClear → s.writersWaiting = 0
  critical : Guards s.waitLock RwPc.critical s.pc
  listedR : Listed RwPc.parkedR s.readerList s.pc
  listedW : Listed RwPc.parkedW s.writerList s.pc
  wakeW : r = 0 → w = false → 0 < tally RwPc.needyW s.pc → 0 < tally RwPc.activeW s.pc
  wakeR : w = false → p = false → 0 < tally RwPc.needyR s.pc → 0 < tally RwPc.wakesAll s.pc
  sane : ∀ t, (s.pc t).Sane

theorem RwInv.init : RwInv (Rw.init T) 0 false false where
  state := rfl
  readers := (tally_const rfl).symm
  writer := .free rfl
  alone := fun _ => rfl
  waiting := (tally_const rfl).symm
  pending := by rw [Rw.init, tally_const rfl]; simp
  clearing := nofun
  critical := .free rfl
  listedR := .nil rfl
  listedW := .nil rfl
  wakeW := by rw [Rw.init, tally_const rfl]; intro _ _ h; exact absurd h (lt_irrefl 0)
  wakeR := by rw [Rw.init, tally_const rfl]; intro _ _ h; exact absurd h (lt_irrefl 0)
  sane := fun _ => trivial

variable {t u : T} {st ww r' : Nat} {k w' p' : Bool}

section

variable {s : Rw T} {r : Nat} {w p : Bool} (hi : RwInv s r w p)

include hi

theorem RwInv.no_writer (hp : p = false) : tally needyW s.pc = 0 := by
  rw [tally_eq_zero]
  intro u
  rw [← Bool.not_eq_true]
  intro hu
  have := hi.pending.2 (tally_pos_of (pends_of_needyW hu))
  rw [hp] at this
  cases this

section

variable (hc : (s.pc t).critical = true)

include hc

/-- Seen from inside a `wait_lock` section in which it does not count itself, a waiting writer has set
`RW_PENDING`. -/
theorem RwInv.pending_of_waiting (ht : (s.pc t).waits = false) (hw : 0 < s.writersWaiting) : p = true := by
  rw [hi.waiting] at hw
  obtain ⟨u, hu⟩ := tally_pos.1 hw
  refine hi.pending.2 (tally_pos_of (pends_of_waits hu ?_))
  rw [← Bool.not_eq_true]
  intro hcu
  rw [hi.critical.unique hcu hc, ht] at hu
  cases hu

/-- A task that holds `wait_lock` and empties the list of readers sees no reader about to sleep. -/
theorem RwInv.no_reader (hn : (s.pc t).needyR = false) (he : s.readerList = []) : tally needyR s.pc = 0 := by
  refine hi.listedR.none_needy he hi.critical (fun a ha hp => ?_) hc hn
  cases a with
  | readPark => rfl
  | _ => simp_all [needyR]

theorem RwInv.no_parked_writer (hn : (s.pc t).needyW = false) (he : s.writerList = []) :
    tally needyW s.pc = 0 := by
  refine hi.listedW.none_needy he hi.critical (fun a ha hp => ?_) hc hn
  cases a with
  | writePark => rfl
  | _ => simp_all [needyW]

end

variable [DecidableEq T] {t : T} {a b : RwPc}

section

variable (ht : s.pc t = a)

include ht

section

variable {lr lw : List T} (hst : st = rwWord r' w' p') (hr : r' + a.holdsRead.toNat = r + b.holdsRead.toNat)
  (hw : w'.toNat + a.holdsWrite.toNat = w.toNat + b.holdsWrite.toNat) (hal : w' = true → r' = 0)
  (hww : ww + a.waits.toNat = s.writersWaiting + b.waits.toNat)
  (hp : p' = true ↔ 0 < tally pends (update s.pc t b))
  (hcl : b = .writeClear → ww = 0) (hcr : ww = s.writersWaiting ∨ a.critical = true)
  (hk : k.toNat + a.critical.toNat = s.waitLock.toNat + b.critical.toNat)
  (hW : r' = 0 → w' = false → 0 < tally needyW (update s.pc t b) → 0 < tally activeW (update s.pc t b))
  (hR : w' = false → p' = false → 0 < tally needyR (update s.pc t b) → 0 < tally wakesAll (update s.pc t b))
  (hb : b.Sane)

include hst hr hw hal hww hp hcl hcr hk hW hR hb

theorem RwInv.change (hlr : Listed parkedR lr (update s.pc t b)) (hlw : Listed parkedW lw (update s.pc t b)) :
    RwInv ⟨st, ww, k, lr, lw, update s.pc t b⟩ r' w' p' := by
  subst ht
  refine ⟨hst, eq_tally_update hi.readers hr, hi.writer.update hw, hal, eq_tally_update hi.waiting hww, hp, ?_,
    hi.critical.update hk, hlr, hlw, hW, hR, ?_⟩
  · intro u hu
    dsimp only at hu ⊢
    by_cases hut : u = t
    · rw [hut, update_self] at hu
      exact hcl hu
    rw [update_of_ne hut] at hu
    rcases hcr with h | h
    · rw [h]
      exact hi.clearing u hu
    · exact absurd (hi.critical.unique (by rw [hu]; rfl) h) hut
  · exact (forall_update_iff s.pc fun _ p => p.Sane).mpr ⟨hb, fun u _ => hi.sane u⟩

theorem RwInv.own (hpr : b.parkedR = a.parkedR) (hpw : b.parkedW = a.parkedW) :
    RwInv ({ s with state := st, writersWaiting := ww, waitLock := k }.go t b) r' w' p' :=
  hi.change ht hst hr hw hal hww hp hcl hcr hk hW hR hb (hi.listedR.keep (ht ▸ hpr)) (hi.listedW.keep (ht ▸ hpw))

end

theorem RwInv.pends (h : b.pends = a.pends) : p = true ↔ 0 < tally pends (update s.pc t b) := by
  rw [tally_update_of_eq (ht ▸ h)]
  exact hi.pending

theorem RwInv.keepW (hn : (!b.needyW || a.needyW) = true)
    (ha : (!a.activeW || b.activeW) = true) (hr : r = 0) (hw : w = false) :
    0 < tally needyW (update s.pc t b) → 0 < tally activeW (update s.pc t b) := by
  subst ht
  exact covered_update (hi.wakeW hr hw) (fun h => by simp_all) fun h => by simp_all

theorem RwInv.keepR (hn : (!b.needyR || a.needyR) = true)
    (ha : (!a.wakesAll || b.wakesAll) = true) (hw : w = false) (hp : p = false) :
    0 < tally needyR (update s.pc t b) → 0 < tally wakesAll (update s.pc t b) := by
  subst ht
  exact covered_update (hi.wakeR hw hp) (fun h => by simp_all) fun h => by simp_all

/-- A step that only moves its task and perhaps takes or releases `wait_lock`. -/
theorem RwInv.move (hm : a.keeps b = true)
    (hk : k.toNat + a.critical.toNat = s.waitLock.toNat + b.critical.toNat) (hb : b.Sane) :
    RwInv ({ s with waitLock := k }.go t b) r w p := by
  simp only [keeps, Bool.and_eq_true, beq_iff_eq] at hm
  obtain ⟨⟨⟨⟨⟨⟨⟨⟨⟨⟨h1, h2⟩, h3⟩, h4⟩, h5⟩, h6⟩, h7⟩, h8⟩, h9⟩, h10⟩, h11⟩ := hm
  refine hi.own ht hi.state (by rw [h1]) (by rw [h2]) hi.alone (by rw [h3]) (hi.pends ht h4.symm) ?_ (.inl rfl) hk
    (hi.keepW ht h7 h8) (hi.keepR ht h9 h10) hb h5.symm h6.symm
  rintro rfl
  cases h11

end

theorem RwInv.wakeTask (hu : u ∈ s.readerList ∨ u ∈ s.writerList) : RwInv (s.wakeTask u) r w p := by
  have hp : (s.pc u).parkedR = true ∨ (s.pc u).parkedW = true :=
    hu.imp (hi.listedR.mem_iff u).mp (hi.listedW.mem_iff u).mp
  -- the lists lose the task, and the positions of a sleeping reader or writer count the same after the wakeup
  have hsame : ∀ a, s.pc u = a → (a.parkedR = true ∨ a.parkedW = true) → RwInv (s.wakeTask u) r w p := by
    intro a ha hpa
    cases a with
    | readEnqueued q | readAsleep q | writeEnqueued q | writeAsleep q =>
      rw [Rw.wakeTask, ha]
      exact hi.change ha hi.state rfl rfl hi.alone rfl (hi.pends ha rfl) nofun (.inl rfl) rfl
        (hi.keepW ha rfl (by cases q <;> rfl)) (hi.keepR ha rfl rfl) trivial (hi.listedR.erase rfl)
        (hi.listedW.erase rfl)
    | _ => rcases hpa with hpa | hpa <;> cases hpa
  exact hsame _ rfl hp

/-- The two places that wake one writer under `wait_lock`: the task then has nothing left to do for the writers. -/
theorem RwInv.wakeWriter (ht : s.pc t = .lastWake ∧ b = .lastUnlock ∨ s.pc t = .outWakeWriter ∧ b = .outUnlock) :
    RwInv ((s.wakeOne s.writerList).go t b) r w p := by
  -- the general form, for the state before the move and the state after the wakeup
  have hmove : ∀ {s' : Rw T}, RwInv s' r w p → s'.pc t = s.pc t →
      (tally needyW s'.pc = 0 ∨ ∃ u, u ≠ t ∧ (s'.pc u).activeW = true) → RwInv (s'.go t b) r w p := by
    intro s' hi' hpc hact
    rw [← hpc] at ht
    have hW : r = 0 → w = false → 0 < tally needyW (update s'.pc t b) → 0 < tally activeW (update s'.pc t b) := by
      intro _ _ hn
      rcases hact with h0 | ⟨u, hut, hu⟩
      · have h1 := tally_update needyW s'.pc t b
        rcases ht with ⟨ht, rfl⟩ | ⟨ht, rfl⟩ <;> rw [ht] at h1 <;>
          simp [needyW, parkedW] at h1 <;> omega
      · exact tally_pos_of (by rw [update_of_ne hut]; exact hu)
    rcases ht with ⟨ht, rfl⟩ | ⟨ht, rfl⟩ <;>
      exact hi'.own ht hi'.state rfl rfl hi'.alone rfl (hi'.pends ht rfl) nofun (.inl rfl) rfl hW
        (hi'.keepR ht rfl rfl) trivial rfl rfl
  have hcrit : (s.pc t).critical = true ∧ (s.pc t).needyW = false ∧ (s.pc t).parkedW = false := by
    rcases ht with ⟨ht, -⟩ | ⟨ht, -⟩ <;> rw [ht] <;> exact ⟨rfl, rfl, rfl⟩
  cases hl : s.writerList with
  | nil => exact hmove hi rfl (.inl (hi.no_parked_writer hcrit.1 hcrit.2.1 hl))
  | cons u l =>
    have hu : u ∈ s.writerList := by rw [hl]; exact List.mem_cons_self
    have hpu := (hi.listedW.mem_iff u).mp hu
    have hut : u ≠ t := by
      rintro rfl
      rw [hcrit.2.2] at hpu
      cases hpu
    refine hmove (hi.wakeTask (.inr hu)) (update_of_ne hut.symm _ _) (.inr ⟨u, hut, ?_⟩)
    change (update s.pc u (s.pc u).woken u).activeW = true
    rw [update_self]
    cases h : s.pc u <;> rw [h] at hpu <;> first | rfl | cases hpu

/-! ### The steps -/

section

variable (hT : Fintype.card T < 2 ^ 30)

include hT

omit [DecidableEq T] in
theorem RwInv.readers_lt : r < 2 ^ 30 := by
  rw [hi.readers]
  exact Nat.lt_of_le_of_lt (tally_le_card _ _) hT

theorem RwInv.readers_succ_lt (ht : (s.pc t).holdsRead = false) : r + 1 < 2 ^ 30 := by
  have h1 := tally_update holdsRead s.pc t .readHeld
  have h2 := tally_le_card holdsRead (update s.pc t .readHeld)
  have h3 := hi.readers
  rw [ht] at h1
  simp [holdsRead] at h1
  omega

/-- The loop head of `rwlock_try_read` does not find the reader field full. -/
theorem RwInv.tryRead_eq (ht : (s.pc t).holdsRead = false) (closed : RwPc) (cas : Nat → RwPc) :
    (w = true ∨ p = true) ∧ tryRead s.state closed cas = closed ∨
      (w = false ∧ p = false) ∧ s.state &&& (rwWriter ||| rwPending) = 0 ∧
        tryRead s.state closed cas = cas s.state := by
  have hlt := hi.readers_succ_lt hT ht
  have hopen := rwWord_closed (w := w) (p := p) (show r < 2 ^ 30 by omega)
  unfold tryRead
  rw [hi.state]
  by_cases hg : w = false ∧ p = false
  · refine .inr ⟨hg, hopen.2 hg, ?_⟩
    rw [if_neg (not_not.2 (hopen.2 hg)), rwWord_readers (by omega), if_neg]
    unfold rwReaders rwWriter
    omega
  · refine .inl ⟨?_, if_pos (mt hopen.1 hg)⟩
    cases w <;> cases p <;> simp_all

end

theorem RwInv.readPark (ht : s.pc t = .readPark) :
    RwInv ({ s with readerList := s.readerList ++ [t] }.go t (.readEnqueued true)) r w p :=
  hi.change ht hi.state rfl rfl hi.alone rfl (hi.pends ht rfl) nofun (.inl rfl) rfl (hi.keepW ht rfl rfl)
    (hi.keepR ht rfl rfl) trivial (hi.listedR.push (by rw [ht]; rfl) rfl) (hi.listedW.keep (by rw [ht]; rfl))

theorem RwInv.writePark (ht : s.pc t = .writePark) :
    RwInv ({ s with writerList := s.writerList ++ [t] }.go t (.writeEnqueued true)) r w p :=
  hi.change ht hi.state rfl rfl hi.alone rfl (hi.pends ht rfl) nofun (.inl rfl) rfl (hi.keepW ht rfl rfl)
    (hi.keepR ht rfl rfl) trivial (hi.listedR.keep (by rw [ht]; rfl)) (hi.listedW.push (by rw [ht]; rfl) rfl)

/-- A reader leaves.  The last one before a pending writer sees `RW_PENDING | 1` and takes on the duty to wake it. -/
theorem RwInv.readSub (hT : card T < 2 ^ 30) (ht : s.pc t = .readSub)
    (hb : s.state ≠ rwPending ||| 1 ∧ b = .idle ∨ s.state = rwPending ||| 1 ∧ b = .lastSpin) :
    RwInv ({ s with state := subW 32 s.state 1 }.go t b) (r - 1) w p := by
  have hlt := hi.readers_lt hT
  have hpos : 0 < r := hi.readers ▸ tally_pos_at ht rfl
  have hw : w = false := by
    rw [← Bool.not_eq_true]
    intro hw
    have := hi.alone hw
    omega
  have hst : subW 32 s.state 1 = rwWord (r - 1) w p := by
    have h1 : r = r - 1 + 1 := by omega
    rw [hi.state, h1]
    exact rwWord_decr (by omega)
  have hr : r - 1 + RwPc.readSub.holdsRead.toNat = r + RwPc.idle.holdsRead.toNat := by
    simp [RwPc.holdsRead]
    omega
  have hal : w = true → r - 1 = 0 := by rw [hw]; nofun
  rcases hb with ⟨hne, rfl⟩ | ⟨-, rfl⟩
  swap
  · exact hi.own ht hst hr rfl hal rfl (hi.pends ht rfl) nofun (.inl rfl) rfl (fun _ _ _ => tally_pos_update rfl)
      (hi.keepR ht rfl rfl) trivial rfl rfl
  refine hi.own ht hst hr rfl hal rfl (hi.pends ht rfl) nofun (.inl rfl) rfl ?_ (hi.keepR ht rfl rfl) trivial rfl rfl
  -- no pending writer, so no writer sleeps
  intro hr0 _ hn
  have hp : p = false := by
    rw [← Bool.not_eq_true]
    rintro rfl
    refine hne ?_
    have hr1 : r = 1 := by omega
    rw [hi.state, hw, hr1]
    rfl
  rw [tally_update_of_eq (by rw [ht]; rfl), hi.no_writer hp] at hn
  exact absurd hn (lt_irrefl 0)

/-- The last reader finds that the word has changed: somebody holds the lock, or no writer is left. -/
theorem RwInv.lastTaken (ht : s.pc t = .lastCheck) (hne : s.state ≠ rwPending) :
    RwInv (s.go t .lastUnlock) r w p := by
  refine hi.own ht hi.state rfl rfl hi.alone rfl (hi.pends ht rfl) nofun (.inl rfl) rfl ?_ (hi.keepR ht rfl rfl)
    trivial rfl rfl
  intro hr hw hn
  have hp : p = false := by
    rw [← Bool.not_eq_true]
    rintro rfl
    refine hne ?_
    rw [hi.state, hr, hw]
    rfl
  rw [tally_update_of_eq (by rw [ht]; rfl), hi.no_writer hp] at hn
  exact absurd hn (lt_irrefl 0)

theorem RwInv.writeFast (hT : card T < 2 ^ 30) (ht : s.pc t = .writeCas)
    (h0 : s.state = 0) : RwInv ({ s with state := rwWriter }.go t .writeHeld) 0 true false := by
  obtain ⟨rfl, rfl, rfl⟩ : r = 0 ∧ w = false ∧ p = false := by
    rw [← rwWord_inj (hi.readers_lt hT) (Nat.two_pow_pos 30), ← hi.state, h0]
    rfl
  exact hi.own ht rfl rfl rfl (fun _ => rfl) rfl (hi.pends ht rfl) nofun (.inl rfl) rfl nofun nofun trivial rfl rfl

theorem RwInv.writeCount (ht : s.pc t = .writeCount) :
    RwInv ({ s with writersWaiting := s.writersWaiting + 1 }.go t .writePend) r w p :=
  hi.own ht hi.state rfl rfl hi.alone rfl (hi.pends ht rfl) nofun (.inr rfl) rfl (hi.keepW ht rfl rfl)
    (hi.keepR ht rfl rfl) trivial rfl rfl

theorem RwInv.writePend (hT : card T < 2 ^ 30) (ht : s.pc t = .writePend) :
    RwInv ({ s with state := s.state ||| rwPending }.go t .writeTry) r w true := by
  have hst : s.state ||| rwPending = rwWord r w true := by
    rw [hi.state]
    exact rwWord_setPending (hi.readers_lt hT)
  exact hi.own ht hst rfl rfl hi.alone rfl ⟨fun _ => tally_pos_update rfl, fun _ => rfl⟩ nofun (.inl rfl) rfl
    (fun _ _ _ => tally_pos_update rfl) nofun trivial rfl rfl

theorem RwInv.writeTake (hT : card T < 2 ^ 30) (ht : s.pc t = .writeTry)
    (heq : s.state = rwPending) : RwInv ({ s with state := rwPending ||| rwWriter }.go t .writeDone) 0 true true := by
  obtain ⟨rfl, rfl, rfl⟩ : r = 0 ∧ w = false ∧ p = true := by
    rw [← rwWord_inj (hi.readers_lt hT) (Nat.two_pow_pos 30), ← hi.state, heq]
    rfl
  exact hi.own ht rfl rfl rfl (fun _ => rfl) rfl (hi.pends ht rfl) nofun (.inl rfl) rfl nofun nofun trivial rfl rfl

/-- The retry of a waiting writer fails only while somebody holds the lock. -/
theorem RwInv.writeFail (ht : s.pc t = .writeTry) (hne : s.state ≠ rwPending) : RwInv (s.go t .writePark) r w p := by
  have hp : p = true := hi.pending.2 (tally_pos_at ht rfl)
  refine hi.own ht hi.state rfl rfl hi.alone rfl (hi.pends ht rfl) nofun (.inl rfl) rfl ?_ (by rw [hp]; nofun) trivial
    rfl rfl
  intro hr hw
  refine absurd ?_ hne
  rw [hi.state, hr, hw, hp]
  rfl

/-- The acquiring writer leaves the count; another waiting writer keeps the gate closed. -/
theorem RwInv.writeDone (ht : s.pc t = .writeDone) : RwInv ({ s with writersWaiting := s.writersWaiting - 1 }.go t
      (if s.writersWaiting - 1 = 0 then .writeClear else .writeRet)) r w p := by
  have hpos : 0 < s.writersWaiting := hi.waiting ▸ tally_pos_at ht rfl
  have hp : p = true := hi.pending.2 (tally_pos_at ht rfl)
  have hw : w = true := hi.writer.locked_at ht rfl
  have hww : s.writersWaiting - 1 + RwPc.writeDone.waits.toNat = s.writersWaiting + RwPc.writeRet.waits.toNat := by
    simp [RwPc.waits]
    omega
  by_cases h0 : s.writersWaiting - 1 = 0
  · rw [if_pos h0]
    exact hi.own ht hi.state rfl rfl hi.alone hww (hi.pends ht rfl) (fun _ => h0) (.inr rfl) rfl (by rw [hw]; nofun)
      (by rw [hw]; nofun) trivial rfl rfl
  rw [if_neg h0]
  refine hi.own ht hi.state rfl rfl hi.alone hww ?_ nofun (.inr rfl) rfl (by rw [hw]; nofun)
    (by rw [hw]; nofun) trivial rfl rfl
  -- one of the others still waits, outside the `wait_lock` section
  have h1 := tally_update RwPc.waits s.pc t .writeRet
  have h2 := hi.waiting
  rw [ht] at h1
  simp only [RwPc.waits, Bool.toNat_true, Bool.toNat_false] at h1
  obtain ⟨u, hu⟩ := tally_pos.1 (show 0 < tally RwPc.waits (update s.pc t .writeRet) by omega)
  have hut : u ≠ t := by
    rintro rfl
    rw [update_self] at hu
    cases hu
  rw [update_of_ne hut] at hu
  have hcu : (s.pc u).critical = false := by
    rw [← Bool.not_eq_true]
    intro hc
    exact hut (hi.critical.unique hc (by rw [ht]; rfl))
  refine ⟨fun _ => tally_pos_of (t := u) ?_, fun _ => hp⟩
  rw [update_of_ne hut]
  exact RwPc.pends_of_waits hu hcu

/-- The last waiting writer has got in and opens the gate behind it. -/
theorem RwInv.writeClear (hT : card T < 2 ^ 30) (ht : s.pc t = .writeClear) :
    RwInv ({ s with state := s.state &&& not32 rwPending }.go t .writeRet) r w false := by
  have hst : s.state &&& not32 rwPending = rwWord r w false := by
    rw [hi.state]
    exact rwWord_clearPending (hi.readers_lt hT)
  have hw : w = true := hi.writer.locked_at ht rfl
  refine hi.own ht hst rfl rfl hi.alone rfl ?_ nofun (.inl rfl) rfl (by rw [hw]; nofun)
    (by rw [hw]; nofun) trivial rfl rfl
  refine ⟨nofun, fun hpos => ?_⟩
  obtain ⟨u, hu⟩ := tally_pos.1 hpos
  have hut : u ≠ t := by
    rintro rfl
    rw [update_self] at hu
    cases hu
  rw [update_of_ne hut] at hu
  have hne : s.pc u ≠ .writeClear := fun hc => hut (hi.critical.unique (by rw [hc]; rfl) (by rw [ht]; rfl))
  have h1 := tally_pos_of (waits_of_pends hu hne)
  rw [← hi.waiting, hi.clearing t ht] at h1
  exact absurd h1 (lt_irrefl 0)

/-- The writer gives up the lock, and with it takes on both duties. -/
theorem RwInv.outClear (hT : card T < 2 ^ 30) (ht : s.pc t = .outClear) :
    RwInv ({ s with state := s.state &&& not32 rwWriter }.go t .outCheck) r false p := by
  have hst : s.state &&& not32 rwWriter = rwWord r false p := by
    rw [hi.state]
    exact rwWord_clearWriter (hi.readers_lt hT)
  have hw : w = true := hi.writer.locked_at ht rfl
  exact hi.own ht hst rfl (by rw [hw]; rfl) nofun rfl (hi.pends ht rfl) nofun (.inl rfl) rfl
    (fun _ _ _ => tally_pos_update rfl) (fun _ _ _ => tally_pos_update rfl) trivial rfl rfl

/-- With a waiting writer the readers have to wait for it; without one no writer sleeps. -/
theorem RwInv.outCheck (ht : s.pc t = .outCheck) :
    RwInv (s.go t (if s.writersWaiting > 0 then .outWakeWriter else .outWakeReaders)) r w p := by
  by_cases h0 : s.writersWaiting > 0
  · rw [if_pos h0]
    have hp := hi.pending_of_waiting (by rw [ht]; rfl) (by rw [ht]; rfl) h0
    exact hi.own ht hi.state rfl rfl hi.alone rfl (hi.pends ht rfl) nofun (.inl rfl) rfl
      (fun _ _ _ => tally_pos_update rfl) (by rw [hp]; nofun) trivial rfl rfl
  rw [if_neg h0]
  refine hi.own ht hi.state rfl rfl hi.alone rfl (hi.pends ht rfl) nofun (.inl rfl) rfl ?_
    (fun _ _ _ => tally_pos_update rfl) trivial rfl rfl
  intro _ _ hn
  rw [tally_update_of_eq (by rw [ht]; rfl)] at hn
  obtain ⟨u, hu⟩ := tally_pos.1 hn
  have h1 := tally_pos_of (waits_of_needyW hu)
  rw [← hi.waiting] at h1
  exact absurd h1 h0

theorem RwInv.outWokeReaders (ht : s.pc t = .outWakeReaders) (he : s.readerList = []) :
    RwInv (s.go t .outUnlock) r w p := by
  refine hi.own ht hi.state rfl rfl hi.alone rfl (hi.pends ht rfl) nofun (.inl rfl) rfl (hi.keepW ht rfl rfl) ?_
    trivial rfl rfl
  intro _ _ hn
  rw [tally_update_of_eq (by rw [ht]; rfl), hi.no_reader (by rw [ht]; rfl) (by rw [ht]; rfl) he] at hn
  exact absurd hn (lt_irrefl 0)

omit hi in
theorem RwStep.inv {s' : Rw T} {e : RwEvent T} (h : RwStep s e s') (hT : card T < 2 ^ 30)
    (hi : RwInv s r w p) : ∃ r' w' p', RwInv s' r' w' p' := by
  have hlt := hi.readers_lt hT
  cases h with
  | readLock ht | readResume ht | readUnlock ht | lastFree ht _ | writeLock ht | writeSlow ht _ | writeResume ht
  | writeUnlock ht => exact ⟨r, w, p, hi.move ht rfl rfl trivial⟩
  | readSpin ht hk | lastSpin ht hk | writeSpin ht hk | writeAgain ht hk | outSpin ht hk =>
    exact ⟨r, w, p, hi.move ht rfl (by rw [hk]; rfl) trivial⟩
  | readRet ht | lastUnlock ht | writeRet ht | outUnlock ht =>
    have hk := hi.critical.locked_at ht rfl
    exact ⟨r, w, p, hi.move ht rfl (by rw [hk]; rfl) trivial⟩
  | @readSleep t q ht | @writeSleep t q ht =>
    have hk := hi.critical.locked_at ht rfl
    exact ⟨r, w, p, hi.move ht (by cases q <;> rfl) (by rw [hk]; rfl) trivial⟩
  | @readLoad t ht | @readFail t _ ht =>
    rcases hi.tryRead_eq hT (by rw [ht]; rfl) .readSpin .readCas with ⟨-, heq⟩ | ⟨-, hs, heq⟩ <;> rw [heq]
    · exact ⟨r, w, p, hi.move ht rfl rfl trivial⟩
    · exact ⟨r, w, p, hi.move ht rfl rfl hs⟩
  | @rereadLoad t ht | @rereadFail t _ ht =>
    rcases hi.tryRead_eq hT (by rw [ht]; rfl) .readPark .rereadCas with ⟨hg, heq⟩ | ⟨-, hs, heq⟩ <;> rw [heq]
    · -- the gate is closed, and it cannot open before the reader releases `wait_lock`
      refine ⟨r, w, p, hi.own ht hi.state rfl rfl hi.alone rfl (hi.pends ht rfl) nofun (.inl rfl) rfl
        (hi.keepW ht rfl rfl) ?_ trivial rfl rfl⟩
      intro hw hp
      rw [hw, hp] at hg
      rcases hg with hg | hg <;> cases hg
    · exact ⟨r, w, p, hi.move ht rfl rfl hs⟩
  | @readAdmit t v ht hv | @rereadAdmit t v ht hv =>
    have hlt' := hi.readers_succ_lt hT (by rw [ht]; rfl)
    have hg : w = false ∧ p = false := by
      have := hi.sane t
      rw [ht] at this
      rw [← rwWord_closed hlt, ← hi.state, hv]
      exact this
    refine ⟨r + 1, w, p, hi.own ht ?_ rfl rfl ?_ rfl (hi.pends ht rfl) nofun (.inl rfl) rfl nofun
      (hi.keepR ht rfl rfl) trivial rfl rfl⟩
    · rw [← hv, hi.state]
      exact rwWord_incr hlt'
    · rw [hg.1]
      nofun
  | readPark ht => exact ⟨r, w, p, hi.readPark ht⟩
  | readSub ht hne => exact ⟨r - 1, w, p, hi.readSub hT ht (.inl ⟨hne, rfl⟩)⟩
  | readSubLast ht hlast => exact ⟨r - 1, w, p, hi.readSub hT ht (.inr ⟨hlast, rfl⟩)⟩
  | lastTaken ht hne => exact ⟨r, w, p, hi.lastTaken ht hne⟩
  | lastWake ht => exact ⟨r, w, p, hi.wakeWriter (.inl ⟨ht, rfl⟩)⟩
  | writeFast ht h0 => exact ⟨0, true, false, hi.writeFast hT ht h0⟩
  | writeCount ht => exact ⟨r, w, p, hi.writeCount ht⟩
  | writePend ht => exact ⟨r, w, true, hi.writePend hT ht⟩
  | writeTake ht heq => exact ⟨0, true, true, hi.writeTake hT ht heq⟩
  | writeFail ht hne => exact ⟨r, w, p, hi.writeFail ht hne⟩
  | writePark ht => exact ⟨r, w, p, hi.writePark ht⟩
  | writeDone ht => exact ⟨r, w, p, hi.writeDone ht⟩
  | writeClear ht => exact ⟨r, w, false, hi.writeClear hT ht⟩
  | outClear ht => exact ⟨r, false, p, hi.outClear hT ht⟩
  | outCheck ht => exact ⟨r, w, p, hi.outCheck ht⟩
  | outWakeWriter ht => exact ⟨r, w, p, hi.wakeWriter (.inr ⟨ht, rfl⟩)⟩
  | outWakeReader ht hne =>
    cases hl : s.readerList with
    | nil => exact absurd hl hne
    | cons u l => exact ⟨r, w, p, hi.wakeTask (.inl (by rw [hl]; exact List.mem_cons_self))⟩
  | outWokeReaders ht he => exact ⟨r, w, p, hi.outWokeReaders ht he⟩
  | wake hu => exact ⟨r, w, p, hi.wakeTask hu⟩

end

/-! ### The gate -/

/-- A waiting writer between the setting of `RW_PENDING` and its acquisition. -/
def RwPc.lingers : RwPc → Bool
  | .writeTry | .writePark | .writeEnqueued _ | .writeAsleep _ | .writeAgain => true
  | _ => false

variable {r : Nat} {w : Bool}

section

variable [DecidableEq T] {s s' : Rw T} {e : RwEvent T} {p : Bool}

private theorem tally_lingers_wakeTask (s : Rw T) (u : T) : tally lingers (s.wakeTask u).pc = tally lingers s.pc := by
  rw [wakeTask, tally_update_of_eq]
  cases s.pc u <;> rfl

private theorem tally_lingers_wakeOne (s : Rw T) (l : List T) :
    tally lingers (s.wakeOne l).pc = tally lingers s.pc := by
  cases l with
  | nil => rfl
  | cons u l => exact tally_lingers_wakeTask s u

/-- Only an acquisition takes a waiting writer away. -/
theorem RwStep.lingers (h : RwStep s e s') (he : ∀ t, e ≠ .acquired t) (hl : 0 < tally RwPc.lingers s.pc) :
    0 < tally RwPc.lingers s'.pc := by
  have own : ∀ {t : T} {b : RwPc} {f : T → RwPc}, 0 < tally RwPc.lingers f → (f t).lingers = b.lingers ∨
      b.lingers = true → 0 < tally RwPc.lingers (update f t b) := by
    rintro t b f hf (hb | hb)
    · rw [tally_update_of_eq hb.symm]
      exact hf
    · exact tally_pos_of (by rw [update_self]; exact hb)
  have plain : ∀ (st : Nat) {t : T} (closed : RwPc) (cas : Nat → RwPc), (s.pc t).lingers = false →
      closed.lingers = false → (∀ v, (cas v).lingers = false) →
      (s.pc t).lingers = (tryRead st closed cas).lingers := by
    intro st t closed cas ht hc hcas
    rw [ht]
    unfold tryRead
    split
    · exact hc.symm
    · split
      · rfl
      · exact (hcas st).symm
  cases h with
  | readLoad ht | readFail ht | rereadLoad ht | rereadFail ht =>
    exact own hl (.inl (plain _ _ _ (by rw [ht]; rfl) rfl fun _ => rfl))
  | writeTake _ _ => exact absurd rfl (he _)
  | @lastWake t ht | @outWakeWriter t ht =>
    refine own (by rw [tally_lingers_wakeOne]; exact hl) (.inl ?_)
    cases hw : s.writerList with
    | nil => simp only [wakeOne]; rw [ht]; rfl
    | cons u l =>
      by_cases hu : t = u
      · subst hu
        simp only [wakeOne, wakeTask, update_self, ht]
        rfl
      · simp only [wakeOne, wakeTask, update_of_ne hu, ht]
        rfl
  | outWakeReader _ _ =>
    rw [tally_lingers_wakeOne]
    exact hl
  | wake _ =>
    rw [tally_lingers_wakeTask]
    exact hl
  | writeDone ht | outCheck ht =>
    refine own hl (.inl ?_)
    rw [ht]
    split <;> rfl
  | writePend _ | writeFail _ _ | writePark _ | writeSleep _ | writeResume _ | writeAgain _ _ =>
    exact own hl (.inr rfl)
  | _ => exact own hl (.inl (by rw [‹s.pc _ = _›]; rfl))

theorem RwStep.admitted_open (h : RwStep s (.admitted t) s') (hi : RwInv s r w p)
    (hT : card T < 2 ^ 30) : tally RwPc.lingers s.pc = 0 := by
  have hp : p = false := by
    cases h with
    | readAdmit ht hv | rereadAdmit ht hv =>
      have hs := hi.sane t
      rw [ht] at hs
      refine ((rwWord_closed (w := w) (hi.readers_lt hT)).mp ?_).2
      rw [← hi.state, hv]
      exact hs
  rw [tally_eq_zero]
  intro u
  rw [← Bool.not_eq_true]
  intro hu
  have hpu : (s.pc u).pends = true := by
    cases h : s.pc u <;> rw [h] at hu <;> first | rfl | cases hu
  have := hi.pending.2 (tally_pos_of hpu)
  rw [hp] at this
  cases this

/-! ### Quiescence -/

theorem RwQuiet.unlocked (hq : RwQuiet s) (hi : RwInv s r w p) : s.waitLock = false := by
  by_contra hk
  rw [Bool.not_eq_false] at hk
  obtain ⟨t, ht⟩ := (hk ▸ hi.critical).holder
  cases hpc : s.pc t with
  | rereadLoad => exact hq.stuck (.rereadLoad hpc) rfl
  | rereadCas v => exact hq.stuck (.rereadFail hpc) rfl
  | readPark => exact hq.stuck (.readPark hpc) rfl
  | readEnqueued q => exact hq.stuck (.readSleep hpc) rfl
  | readRet => exact hq.stuck (.readRet hpc) rfl
  | lastCheck =>
    by_cases h : s.state = rwPending
    · exact hq.stuck (.lastFree hpc h) rfl
    · exact hq.stuck (.lastTaken hpc h) rfl
  | lastWake => exact hq.stuck (.lastWake hpc) rfl
  | lastUnlock => exact hq.stuck (.lastUnlock hpc) rfl
  | writeCount => exact hq.stuck (.writeCount hpc) rfl
  | writePend => exact hq.stuck (.writePend hpc) rfl
  | writeTry =>
    by_cases h : s.state = rwPending
    · exact hq.stuck (.writeTake hpc h) rfl
    · exact hq.stuck (.writeFail hpc h) rfl
  | writePark => exact hq.stuck (.writePark hpc) rfl
  | writeEnqueued q => exact hq.stuck (.writeSleep hpc) rfl
  | writeDone => exact hq.stuck (.writeDone hpc) rfl
  | writeClear => exact hq.stuck (.writeClear hpc) rfl
  | writeRet => exact hq.stuck (.writeRet hpc) rfl
  | outClear => exact hq.stuck (.outClear hpc) rfl
  | outCheck => exact hq.stuck (.outCheck hpc) rfl
  | outWakeWriter => exact hq.stuck (.outWakeWriter hpc) rfl
  | outWakeReaders =>
    by_cases h : s.readerList = []
    · exact hq.stuck (.outWokeReaders hpc h) rfl
    · exact hq.stuck (.outWakeReader hpc h) rfl
  | outUnlock => exact hq.stuck (.outUnlock hpc) rfl
  | _ => rw [hpc] at ht; cases ht

theorem RwQuiet.pc_eq (hq : RwQuiet s) (hi : RwInv s r w p) (t : T) :
    s.pc t = .idle ∨ s.pc t = .readHeld ∨ s.pc t = .writeHeld ∨ s.pc t = .readAsleep true ∨
      s.pc t = .writeAsleep true := by
  have hk := hq.unlocked hi
  have hout := (hk ▸ hi.critical).outside t
  cases hpc : s.pc t with
  | idle => exact .inl rfl
  | readHeld => exact .inr (.inl rfl)
  | writeHeld => exact .inr (.inr (.inl rfl))
  | readAsleep q =>
    cases q with
    | true => exact .inr (.inr (.inr (.inl rfl)))
    | false => exact hq.stuck (.readResume hpc) rfl
  | writeAsleep q =>
    cases q with
    | true => exact .inr (.inr (.inr (.inr rfl)))
    | false => exact hq.stuck (.writeResume hpc) rfl
  | readLoad => exact hq.stuck (.readLoad hpc) rfl
  | readCas v => exact hq.stuck (.readFail hpc) rfl
  | readSpin => exact hq.stuck (.readSpin hpc hk) rfl
  | readSub =>
    by_cases h : s.state = rwPending ||| 1
    · exact hq.stuck (.readSubLast hpc h) rfl
    · exact hq.stuck (.readSub hpc h) rfl
  | lastSpin => exact hq.stuck (.lastSpin hpc hk) rfl
  | writeCas =>
    by_cases h : s.state = 0
    · exact hq.stuck (.writeFast hpc h) rfl
    · exact hq.stuck (.writeSlow hpc h) rfl
  | writeSpin => exact hq.stuck (.writeSpin hpc hk) rfl
  | writeAgain => exact hq.stuck (.writeAgain hpc hk) rfl
  | outSpin => exact hq.stuck (.outSpin hpc hk) rfl
  | dead =>
    have := hi.sane t
    rw [hpc] at this
    exact this.elim
  | _ => rw [hpc] at hout; cases hout

/-- No lost wakeup: in a quiescent state with nobody holding the lock nobody sleeps. -/
theorem RwQuiet.lists_eq_nil (hq : RwQuiet s) (hi : RwInv s r w p)
    (hfree : ∀ t, s.pc t ≠ .readHeld ∧ s.pc t ≠ .writeHeld) : s.readerList = [] ∧ s.writerList = [] := by
  have hpos : ∀ t, s.pc t = .idle ∨ s.pc t = .readAsleep true ∨ s.pc t = .writeAsleep true := by
    intro t
    rcases hq.pc_eq hi t with h | h | h | h | h
    · exact .inl h
    · exact absurd h (hfree t).1
    · exact absurd h (hfree t).2
    · exact .inr (.inl h)
    · exact .inr (.inr h)
  have hr : r = 0 := by
    rw [hi.readers, tally_eq_zero]
    intro t
    rcases hpos t with h | h | h <;> rw [h] <;> rfl
  have hw : w = false := by
    rw [← Bool.not_eq_true]
    rintro rfl
    obtain ⟨t, ht⟩ := hi.writer.holder
    rcases hpos t with h | h | h <;> rw [h] at ht <;> cases ht
  -- a sleeping writer calls for a task that is on its way, but nobody is
  have hnoW : ∀ t, s.pc t ≠ .writeAsleep true := by
    intro t ht
    obtain ⟨u, hu⟩ := tally_pos.1 (hi.wakeW hr hw (tally_pos_at ht rfl))
    rcases hpos u with h | h | h <;> rw [h] at hu <;> cases hu
  have hp : p = false := by
    rw [← Bool.not_eq_true]
    intro hp
    obtain ⟨t, ht⟩ := tally_pos.1 (hi.pending.1 hp)
    rcases hpos t with h | h | h
    · rw [h] at ht; cases ht
    · rw [h] at ht; cases ht
    · exact hnoW t h
  have hnoR : ∀ t, s.pc t ≠ .readAsleep true := by
    intro t ht
    obtain ⟨u, hu⟩ := tally_pos.1 (hi.wakeR hw hp (tally_pos_at ht rfl))
    rcases hpos u with h | h | h <;> rw [h] at hu <;> cases hu
  have hidle : ∀ t, s.pc t = .idle := by
    intro t
    rcases hpos t with h | h | h
    · exact h
    · exact absurd h (hnoR t)
    · exact absurd h (hnoW t)
  exact ⟨hi.listedR.eq_nil fun t => by rw [hidle t]; rfl, hi.listedW.eq_nil fun t => by rw [hidle t]; rfl⟩

end

/-! ### Runs -/

variable {s : Rw T}

private theorem rw_inv [DecidableEq T] (hT : card T < 2 ^ 30) {tr : List (RwEvent T)}
    (h : Run RwStep (.init T) tr s) : ∃ r w p, RwInv s r w p := by
  refine h.invariant_state (fun s => ∃ r w p, RwInv s r w p) ⟨0, false, false, .init⟩ ?_
  rintro t e u ⟨r, w, p, hi⟩ hs
  exact hs.inv hT hi

/-- After `RW_PENDING` is set, a waiting writer gets in before any reader does. -/
theorem writer_first [DecidableEq T] (hT : card T < 2 ^ 30) {tr₁ mid tr₂ : List (RwEvent T)}
    (h : Run RwStep (.init T) (tr₁ ++ .pended t :: (mid ++ .admitted u :: tr₂)) s) :
    ∃ v, .acquired v ∈ mid := by
  obtain ⟨a, b, ha, hab, hb⟩ := h.split
  obtain ⟨c, d, hbc, hcd, -⟩ := hb.split
  by_contra hno
  have hpended : 0 < tally RwPc.lingers b.pc := by
    cases hab
    exact tally_pos_of (t := t) (by simp [go, RwPc.lingers])
  have hkeep : Run (fun s e s' => RwStep s e s' ∧ ∀ v, e ≠ .acquired v) b mid c :=
    hbc.imp fun s s' e he hs => ⟨hs, fun v hv => hno ⟨v, hv ▸ he⟩⟩
  have hlinger : 0 < tally RwPc.lingers c.pc :=
    hkeep.invariant_state (fun s => 0 < tally RwPc.lingers s.pc) hpended fun _ _ _ hl hs => hs.1.lingers hs.2 hl
  obtain ⟨r, w, p, hi⟩ := rw_inv hT ((ha.snoc hab).append hbc)
  have := hcd.admitted_open hi hT
  omega

/-- Every run of fewer than `2 ^ 30` tasks on a readers-writer lock. -/
theorem rwlock_runs (T : Type) [Fintype T] [DecidableEq T] (hT : Fintype.card T < 2 ^ 30) (tr : List (RwEvent T))
    (s : Rw T) (h : Run RwStep (.init T) tr s) :
    (∀ t, (s.pc t).holdsWrite = true → (∀ u, (s.pc u).holdsWrite = true → u = t) ∧ ∀ u, (s.pc u).holdsRead = false) ∧
    s.state &&& rwReaders = tally RwPc.holdsRead s.pc ∧
    (∀ tr₁ mid tr₂ t u, tr = tr₁ ++ .pended t :: (mid ++ .admitted u :: tr₂) → ∃ v, .acquired v ∈ mid) ∧
    (s.waitLock = false → (s.state &&& rwPending ≠ 0 ↔ 0 < s.writersWaiting)) ∧
    (RwQuiet s → (∀ t, s.pc t ≠ .readHeld ∧ s.pc t ≠ .writeHeld) → s.readerList = [] ∧ s.writerList = []) := by
  obtain ⟨r, w, p, hi⟩ := rw_inv hT h
  have hlt := hi.readers_lt hT
  refine ⟨fun t ht => ⟨fun u hu => hi.writer.unique hu ht, ?_⟩, ?_, ?_, ?_, fun hq hf => hq.lists_eq_nil hi hf⟩
  · have h0 := hi.alone (hi.writer.locked ht)
    rw [hi.readers] at h0
    exact tally_eq_zero.1 h0
  · rw [hi.state, rwWord_readers hlt]
    exact hi.readers
  · rintro tr₁ mid tr₂ t u rfl
    exact writer_first hT h
  · intro hk
    have hout := (hk ▸ hi.critical).outside
    rw [hi.state, rwWord_pending hlt, hi.pending, hi.waiting]
    constructor
    · intro hpos
      obtain ⟨t, ht⟩ := tally_pos.1 hpos
      refine tally_pos_of (waits_of_pends ht ?_)
      intro hc
      have := hout t
      rw [hc] at this
      cases this
    · intro hpos
      obtain ⟨t, ht⟩ := tally_pos.1 hpos
      exact tally_pos_of (pends_of_waits ht (hout t))

theorem rwlock_runs_pending :
    ∃ tr s, Run RwStep (.init Bool) tr s ∧ s.writerList = [true] ∧ s.state &&& rwReaders = 1 := by
  have h1 : Run RwStep (.init Bool) _ _ :=
    ((Run.nil.snoc (.readLock (t := false) rfl)).snoc (.readLoad (t := false) rfl)).snoc
      (.readAdmit (t := false) rfl rfl)
  have h2 := ((h1.snoc (.writeLock (t := true) rfl)).snoc (.writeSlow (t := true) rfl (by decide))).snoc
    (.writeSpin (t := true) rfl rfl)
  have h3 := (h2.snoc (.writeCount (t := true) rfl)).snoc (.writePend (t := true) rfl)
  have h4 := (h3.snoc (.writeFail (t := true) rfl (by decide))).snoc (.writePark (t := true) rfl)
  obtain ⟨-, hr, -⟩ := rwlock_runs Bool (by decide) _ _ h4
  exact ⟨_, _, h4, rfl, by rw [hr]; decide⟩

end Mos.Lock
