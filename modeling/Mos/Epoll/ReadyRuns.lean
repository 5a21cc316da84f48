import Mos.Epoll.Ready

/-!
# Runs of an eventpoll

What holds in every state of a run, with the callbacks of the watched files between any two steps of a call.  An
interest that is armed and ready is on the ready list, unless the call in progress has it in hand or its file still
owes a callback; for an edge-triggered interest this is so after a callback, or after `EPOLL_CTL_ADD` or
`EPOLL_CTL_MOD` found it ready, as long as it is not delivered.
-/

namespace Mos.Epoll

open Lib Function List Call State Option

/-- The interest that a call has in hand. -/
def Call.item : Call → Option Nat
  | adding i | check i | enqueue i | removing i _ | popped i _ | masked i _ _ | faulted i | disarm i _ | unqueue i _
  | requeue i _ | probed i _ | putBack i => some i
  | idle | releasing _ | loop _ | probe _ => none

/-! ### The ready list -/

def isQueued (it : Option Item) : Bool := it.any Item.queued

/-- The list holds the queued interests, each once, and the count is its length. -/
structure Queue (s : State) : Prop where
  listed : Listed isQueued s.ready s.items
  count : s.readyCount = s.ready.length

/-- Interest `j` is marked as queued or not, by `q`. -/
def mark (items : Nat → Option Item) (j : Nat) (q : Item → Bool) : Nat → Option Item :=
  update items j ((items j).map fun it => { it with queued := q it })

section mark

variable {items : Nat → Option Item} {i j : Nat} {q : Item → Bool} {it : Item}

private theorem mark_of_ne (h : i ≠ j) : mark items j q i = items i := update_of_ne h ..

private theorem mark_self (h : items j = some it) : mark items j q j = some { it with queued := q it } := by
  simp [mark, h]

private theorem mark_eq_none : mark items j q i = none ↔ items i = none := by
  by_cases h : i = j
  · subst h
    simp [mark]
  · rw [mark_of_ne h]

private theorem exists_mark (j : Nat) (q : Item → Bool) (h : items i = some it) :
    ∃ b, mark items j q i = some { it with queued := b } := by
  by_cases hij : i = j
  · subst hij
    exact ⟨_, mark_self h⟩
  · exact ⟨it.queued, (mark_of_ne hij).trans h⟩

private theorem of_mark (h : mark items j q i = some it) : ∃ b, items i = some { it with queued := b } := by
  cases hi : items i with
  | none =>
    rw [mark_eq_none.2 hi] at h
    cases h
  | some x =>
    obtain ⟨b, hb⟩ := exists_mark j q hi
    cases hb.symm.trans h
    exact ⟨x.queued, rfl⟩

private theorem mark_unchanged (h : ∀ it, items j = some it → q it = it.queued) : mark items j q = items := by
  apply update_eq_self_iff.2
  cases hj : items j with
  | none => rfl
  | some it => simp [h it hj]

end mark

/-- `s'` is `s` with interest `j` marked by `q`, and the ready list according to it. -/
structure Marks (j : Nat) (q : Item → Bool) (s s' : State) : Prop where
  queue : Queue s'
  items : s'.items = mark s.items j q
  next : s'.next = s.next
  masks : s'.masks = s.masks
  owed : s'.owed = s.owed
  call : s'.call = s.call

variable {s s' : State} {i : Nat}

namespace Queue

section

variable (h : Queue s)

include h

private theorem unmarked {q : Item → Bool} (hq : ∀ it, s.items i = some it → q it = it.queued) : Marks i q s s :=
  ⟨h, (mark_unchanged hq).symm, rfl, rfl, rfl, rfl⟩

private theorem link (i : Nat) (front : Bool) : Marks i (fun _ => true) s (s.link i front) := by
  unfold State.link
  cases hi : s.items i with
  | none => exact h.unmarked (by simp [hi])
  | some it =>
    dsimp only
    split_ifs with hq hfront
    · exact h.unmarked (by simp [hi, hq])
    all_goals
      have hnot : isQueued (s.items i) = false := by simp [isQueued, hi, hq]
      refine ⟨⟨?_, by simp [h.count]⟩, by simp [mark, hi], rfl, rfl, rfl, rfl⟩
    · exact h.listed.cons hnot rfl
    · exact h.listed.push hnot rfl

private theorem epollQueue (i : Nat) : Marks i (fun it => it.queued || it.armed) s (s.epollQueue i) := by
  unfold State.epollQueue
  cases hi : s.items i with
  | none => exact h.unmarked (by simp [hi])
  | some it =>
    dsimp only
    split_ifs with harmed
    · have hm := h.link i false
      exact { hm with items := hm.items.trans (by simp [mark, hi, harmed]) }
    · exact h.unmarked (by simp [hi, harmed])

private theorem epollUnqueue (i : Nat) : Marks i (fun _ => false) s (s.epollUnqueue i) := by
  unfold State.epollUnqueue
  cases hi : s.items i with
  | none => exact h.unmarked (by simp [hi])
  | some it =>
    dsimp only
    split_ifs with hq
    · have hmem : i ∈ s.ready := (h.listed.mem_iff i).mpr (by simp [isQueued, hi, hq])
      exact ⟨⟨h.listed.erase rfl, by simp [length_erase_of_mem hmem, h.count]⟩, by simp [mark, hi], rfl, rfl, rfl,
        rfl⟩
    · exact h.unmarked (by simp [hi, hq])

private theorem pop (hpop : s.epollPop = some (i, s')) :
    Marks i (fun _ => false) s s' ∧ ∃ it, s.items i = some it := by
  unfold epollPop at hpop
  split_ifs at hpop with hzero
  cases hready : s.ready with
  | nil => simp [hready] at hpop
  | cons j l =>
    rw [hready] at hpop
    cases hpop
    have hlisted := h.listed
    rw [hready] at hlisted
    have hqueued := (hlisted.mem_iff i).mp mem_cons_self
    have hcount := h.count
    rw [hready, length_cons] at hcount
    obtain ⟨it, hit, -⟩ := (any_eq_true _ _).mp hqueued
    have herase := hlisted.erase (t := i) (a := some { it with queued := false }) rfl
    rw [erase_cons_head] at herase
    refine ⟨⟨⟨?_, by dsimp only; omega⟩, rfl, rfl, rfl, rfl, rfl⟩, it, hit⟩
    simpa [hit] using herase

end

end Queue

variable {it it' : Item}

theorem Queue.setItem (h : Queue s) (hi : s.items i = some it) (hq : it'.queued = it.queued) :
    Queue (s.setItem i it') := by
  refine ⟨h.listed.keep ?_, h.count⟩
  simp [isQueued, hi, hq]

theorem Queue.drop (h : Queue s) (hq : isQueued (s.items i) = false) :
    Queue { s with items := update s.items i none } :=
  ⟨h.listed.keep (by rw [hq]; rfl), h.count⟩

/-! ### The interest in hand -/

/-- What is known of the interest that a call has in hand. -/
def Call.Holds (items : Nat → Option Item) : Call → Prop
  | adding i | check i | enqueue i | faulted i | putBack i => ∃ it, items i = some it ∧ it.armed = true
  | masked i mask _ => ∃ it, items i = some it ∧ it.armed = true ∧ mask ≠ 0
  | popped i _ | probed i _ | disarm i _ | requeue i _ => ∃ it, items i = some it
  | removing i _ | unqueue i _ => ∃ it, items i = some it ∧ it.armed = false
  | idle | releasing _ | loop _ | probe _ => True

structure Inv (s : State) : Prop where
  queue : Queue s
  fresh : ∀ i, s.next ≤ i → s.items i = none
  linked : ∀ i it, s.items i = some it → it.linked = false → s.call = .adding i
  holds : s.call.Holds s.items

variable {c : Call} {j : Nat} {q : Item → Bool}

theorem Call.Holds.mark {items : Nat → Option Item} (h : c.Holds items) (j : Nat) (q : Item → Bool) :
    c.Holds (mark items j q) := by
  cases c with
  | adding i | check i | enqueue i | faulted i | putBack i | removing i | unqueue i | masked i =>
    obtain ⟨it, hi, harmed⟩ := h
    obtain ⟨b, hb⟩ := exists_mark j q hi
    exact ⟨_, hb, harmed⟩
  | popped i | probed i | disarm i | requeue i =>
    obtain ⟨it, hi⟩ := h
    obtain ⟨b, hb⟩ := exists_mark j q hi
    exact ⟨_, hb⟩
  | idle | releasing | loop | probe => trivial

namespace Inv

section

variable (h : Inv s)

include h

private theorem linked_of (hcall : ∀ i, s.call ≠ .adding i) (hi : s.items i = some it) : it.linked = true := by
  cases hl : it.linked with
  | true => rfl
  | false => exact absurd (h.linked i it hi hl) (hcall i)

private theorem marked {t : State} {owed : Nat → Bool} (hm : Marks j q s t)
    (hcall : c = s.call ∨ ∀ i, s.call ≠ .adding i)
    (hholds : c.Holds t.items) : Inv { t with owed := owed, call := c } := by
  refine ⟨{ hm.queue with }, ?_, ?_, hholds⟩
  · intro i hi
    dsimp only
    rw [hm.items, mark_eq_none]
    exact h.fresh i (hm.next ▸ hi)
  · intro i it hi hl
    dsimp only at hi
    rw [hm.items] at hi
    obtain ⟨b, hb⟩ := of_mark hi
    have hadding := h.linked i _ hb hl
    rcases hcall with rfl | hcall
    · exact hadding
    · exact absurd hadding (hcall i)

private theorem go (hcall : ∀ i, s.call ≠ .adding i) (hholds : c.Holds s.items) : Inv (s.go c) :=
  ⟨{ h.queue with }, h.fresh, fun i it hi hl => absurd (h.linked i it hi hl) (hcall i), hholds⟩

private theorem set (hi : s.items i = some it) (hq : it'.queued = it.queued)
    (hl : it'.linked = true) (hcall : ∀ j, s.call = .adding j → j = i)
    (hholds : c.Holds (s.setItem i it').items) : Inv ((s.setItem i it').go c) := by
  have hqueue := h.queue.setItem hi hq
  refine ⟨{ hqueue with }, ?_, ?_, hholds⟩
  · intro j hj
    have hne : j ≠ i := by
      rintro rfl
      rw [h.fresh j hj] at hi
      cases hi
    exact (update_of_ne hne ..).trans (h.fresh j hj)
  · intro j x hx hlx
    by_cases hji : j = i
    · subst hji
      cases (update_self ..).symm.trans hx
      rw [hl] at hlx
      cases hlx
    · have hx' : s.items j = some x := (update_of_ne hji ..).symm.trans hx
      exact absurd (hcall j (h.linked j x hx' hlx)) hji

private theorem drop (hcall : ∀ j, s.call = .adding j → j = i) (hholds : ∀ items, c.Holds items) :
    Inv ({ s.epollUnqueue i with items := update (s.epollUnqueue i).items i none }.go c) := by
  have hm := h.queue.epollUnqueue i
  have hunqueued : isQueued ((s.epollUnqueue i).items i) = false := by
    rw [hm.items]
    cases hi : s.items i with
    | none => rw [mark_eq_none.2 hi]; rfl
    | some it => rw [mark_self hi]; rfl
  have hqueue := hm.queue.drop hunqueued
  refine ⟨{ hqueue with }, ?_, ?_, hholds _⟩
  · intro j hj
    by_cases hji : j = i
    · rw [hji]
      exact update_self ..
    · refine (update_of_ne hji ..).trans ?_
      rw [hm.items, mark_eq_none]
      exact h.fresh j (hm.next ▸ hj)
  · intro j x hx hlx
    by_cases hji : j = i
    · rw [hji] at hx
      cases (update_self ..).symm.trans hx
    · have hx' : (s.epollUnqueue i).items j = some x := (update_of_ne hji ..).symm.trans hx
      rw [hm.items, mark_of_ne hji] at hx'
      exact absurd (hcall j (h.linked j x hx' hlx)) hji

end

end Inv

theorem Inv.init (masks : Nat → Mask) : Inv (.init masks) := by
  refine ⟨⟨.nil rfl, rfl⟩, fun _ _ => rfl, ?_, trivial⟩
  intro i it hi
  cases hi

variable {e : Event} {mask mask' : Mask}

theorem Step.inv (h : Inv s) (hstep : Step s e s') : Inv s' := by
  have hholds := h.holds
  cases hstep with
  | change f mask => exact { h with queue := { h.queue with } }
  | @notify i it hi =>
    have hm := h.queue.epollQueue i
    refine h.marked hm (.inl hm.call) ?_
    rw [hm.call, hm.items]
    exact hholds.mark i _
  | addExists | addRefused | missing => exact h
  | add events data hidle hnew =>
    have hnone := h.fresh s.next le_rfl
    refine ⟨⟨h.queue.listed.keep ?_, h.queue.count⟩, ?_, ?_, ⟨_, update_self .., rfl⟩⟩
    · rw [hnone]
      rfl
    · intro i hi
      have hi : s.next + 1 ≤ i := hi
      refine (update_of_ne ?_ ..).trans (h.fresh i ?_)
      · omega
      · omega
    · intro i it hi hl
      by_cases hin : i = s.next
      · rw [hin]
        rfl
      · have hi' : s.items i = some it := (update_of_ne hin ..).symm.trans hi
        have := h.linked i it hi' hl
        rw [hidle] at this
        cases this
  | addUnsupported hcall => exact h.drop (by simp [hcall]) fun _ => trivial
  | addLinked hcall hi =>
    rw [hcall] at hholds
    obtain ⟨x, hx, harmed⟩ := hholds
    cases hx.symm.trans hi
    exact h.set hi rfl rfl (by simp [hcall]) ⟨_, update_self .., harmed⟩
  | modify events data hidle hfinds hi | delete hidle hfinds hi =>
    obtain ⟨x, hx, hlinked, -⟩ := hfinds
    cases hx.symm.trans hi
    exact h.set hi rfl hlinked (by simp [hidle]) ⟨_, update_self .., rfl⟩
  | releaseNext hcall hi hlinked =>
    exact h.set hi rfl hlinked (by simp [hcall]) ⟨_, update_self .., rfl⟩
  | checkReady hcall =>
    rw [hcall] at hholds
    exact h.go (by simp [hcall]) hholds
  | @removed i k hcall =>
    refine h.drop (by simp [hcall]) ?_
    intro items
    cases k <;> trivial
  | masked hcall hi harmed hmask => exact h.go (by simp [hcall]) ⟨_, hi, harmed, hmask⟩
  | fault hcall =>
    rw [hcall] at hholds
    obtain ⟨it, hi, harmed, -⟩ := hholds
    exact h.go (by simp [hcall]) ⟨it, hi, harmed⟩
  | @report i it mask l hcall hi =>
    refine h.go (by simp [hcall]) ?_
    unfold afterReport
    split_ifs
    · exact ⟨it, hi⟩
    · trivial
    · exact ⟨it, hi⟩
  | disarm hcall hi =>
    have hlinked := h.linked_of (by simp [hcall]) hi
    exact h.set hi rfl hlinked (by simp [hcall]) ⟨_, update_self .., rfl⟩
  | probeReady hcall hi harmed => exact h.go (by simp [hcall]) ⟨_, hi, harmed⟩
  | enqueue hcall | faulted hcall => exact h.marked (h.queue.epollQueue _) (.inr (by simp [hcall])) trivial
  | unqueue hcall => exact h.marked (h.queue.epollUnqueue _) (.inr (by simp [hcall])) trivial
  | requeue hcall | putBack hcall => exact h.marked (h.queue.link ..) (.inr (by simp [hcall])) trivial
  | loopPop hcall _ _ hpop | probePop hcall hpop =>
    obtain ⟨hm, it, hi⟩ := h.queue.pop hpop
    exact h.marked hm (.inr (by simp [hcall])) ⟨_, (congrFun hm.items _).trans (mark_self hi)⟩
  | _ =>
    have hcall := ‹s.call = _›
    exact h.go (by simp [hcall]) trivial

/-! ### Readiness is not lost -/

private theorem and_eq_zero_of_le (hle : mask' &&& ~~~mask = 0) {m : Mask} (hm : mask &&& m = 0) :
    mask' &&& m = 0 := by
  ext i hi
  have h1 := congrArg (fun x : Mask => x[i]) hle
  have h2 := congrArg (fun x : Mask => x[i]) hm
  simp only [BitVec.getElem_and, BitVec.getElem_not, BitVec.ofNat_eq_ofNat, BitVec.getElem_zero] at h1 h2 ⊢
  revert h1 h2
  cases mask'[i] <;> cases mask[i] <;> cases m[i] <;> simp

private theorem epollMask_ne_zero {events : Mask} (hle : mask' &&& ~~~mask = 0) (h : epollMask events mask' ≠ 0) :
    epollMask events mask ≠ 0 := by
  have hor : ∀ x y : Mask, x ||| y = 0 ↔ x = 0 ∧ y = 0 := fun _ _ => BitVec.or_eq_zero_iff
  have hterm : ∀ c x : Mask, (if mask &&& c ≠ 0 then x else 0) = 0 → (if mask' &&& c ≠ 0 then x else 0) = 0 := by
    intro c x hx
    by_cases hc : mask &&& c = 0
    · rw [if_neg (not_not.2 (and_eq_zero_of_le hle hc))]
    · rw [if_pos hc] at hx
      rw [hx, ite_self]
  intro hzero
  apply h
  simp only [epollMask, hor] at hzero ⊢
  obtain ⟨⟨⟨⟨⟨h1, h2⟩, h3⟩, h4⟩, h5⟩, h6⟩ := hzero
  exact ⟨⟨⟨⟨⟨hterm _ _ h1, hterm _ _ h2⟩, hterm _ _ h3⟩, hterm _ _ h4⟩, hterm _ _ h5⟩, hterm _ _ h6⟩

namespace Event

/-- A callback, or a look that finds the interest ready. -/
def Signals (i : Nat) : Event → Prop
  | notify j | found j => j = i
  | _ => False

def Delivers (i : Nat) : Event → Prop
  | report j _ _ _ => j = i
  | _ => False

/-- The interest is delivered with `EPOLLONESHOT`. -/
def Spends (i : Nat) : Event → Prop
  | report j _ _ oneshot => j = i ∧ oneshot = true
  | _ => False

end Event

/-- The interest was signalled since it was last delivered. -/
def Signalled (i : Nat) (tr : List Event) : Prop := Since (Event.Signals i) (Event.Delivers i) tr

/-- The interest was delivered with `EPOLLONESHOT`, and not modified since. -/
def Spent (i : Nat) (tr : List Event) : Prop := Since (Event.Spends i) (· = .modify i) tr

/-- An interest that is armed and ready, and signalled if it is edge-triggered, is on the ready list, unless its file
owes it a callback or the call in progress has it in hand. -/
def Pending (tr : List Event) (s : State) (i : Nat) : Prop :=
  ∀ it, s.items i = some it → it.armed = true → s.mask it ≠ 0 → it.edge = false ∨ Signalled i tr →
    it.queued = true ∨ s.owed i = true ∨ s.call.item = some i

section Pending

variable {tr : List Event} {e : Event}

theorem Pending.inHand (h : s.call.item = some i) : Pending tr s i := fun _ _ _ _ _ => .inr (.inr h)

theorem Pending.queued (h : ∀ it, s.items i = some it → it.armed = true → it.queued = true) :
    Pending tr s i :=
  fun it hi ha _ _ => .inl (h it hi ha)

theorem Pending.frame (h : Pending tr s i) (hitems : s'.items i = s.items i) (hmasks : s'.masks = s.masks)
    (howed : s'.owed i = s.owed i) (hcall : s.call.item = some i → s'.call.item = some i) (hsig : ¬e.Signals i) :
    Pending (tr ++ [e]) s' i := by
  intro it hi ha hm hs
  rw [hitems] at hi
  have hm : s.mask it ≠ 0 := by
    unfold mask at hm ⊢
    rw [hmasks] at hm
    exact hm
  have hs : it.edge = false ∨ Signalled i tr := by
    refine hs.imp_right fun hs => ?_
    rcases since_snoc.1 hs with hs | hs
    · exact absurd hs hsig
    · exact hs.2
  rcases h it hi ha hm hs with hq | ho | hc
  · exact .inl hq
  · exact .inr (.inl (howed.trans ho))
  · exact .inr (.inr (hcall hc))

section

variable (h : ∀ i, Pending tr s i)

include h

private theorem pending_step (hitems : ∀ i, i ≠ j → s'.items i = s.items i)
    (hmasks : s'.masks = s.masks) (howed : s'.owed = s.owed) (hcall : ∀ i, s.call.item = some i → i = j)
    (hsig : ∀ i, e.Signals i → i = j) (hj : Pending (tr ++ [e]) s' j) : ∀ i, Pending (tr ++ [e]) s' i := by
  intro i
  by_cases hij : i = j
  · rw [hij]
    exact hj
  · exact (h i).frame (hitems i hij) hmasks (congrFun howed i) (fun hc => absurd (hcall i hc) hij)
      (fun hs => hij (hsig i hs))

private theorem pending_mark {t : State} (hm : Marks i q s t) (hcall : ∀ j, s.call.item = some j → j = i)
    (hsig : ∀ j, ¬e.Signals j) (hq : ∀ it, s.items i = some it → it.armed = true → q it = true) :
    ∀ i, Pending (tr ++ [e]) (t.go c) i := by
  refine pending_step h ?_ hm.masks hm.owed hcall (fun j hj => absurd hj (hsig j)) (.queued ?_)
  · intro j hj
    exact (congrFun hm.items j).trans (mark_of_ne hj)
  · intro it hi ha
    have hi : mark s.items i q i = some it := hm.items ▸ hi
    obtain ⟨b, hb⟩ := of_mark hi
    have hqueued := congrArg Item.queued (some.inj ((mark_self hb).symm.trans hi))
    rw [← hqueued]
    exact hq _ hb ha

private theorem pending_go (hcall : s.call.item = none) (hsig : ∀ i, ¬e.Signals i) :
    ∀ i, Pending (tr ++ [e]) (s.go c) i := by
  intro i
  refine (h i).frame rfl rfl rfl ?_ (hsig i)
  rw [hcall]
  exact nofun

theorem Step.pending_change {f : Nat} {mask : Mask} (hstep : Step s (.change f mask) s') :
    ∀ i, Pending (tr ++ [.change f mask]) s' i := by
  cases hstep with
  | change =>
    intro i it hi ha hm hs
    by_cases hrise : it.file = f ∧ mask &&& ~~~(s.masks f) ≠ 0
    · -- the file owes a callback now
      have howed : (mask &&& ~~~(s.masks f) ≠ 0 && (s.items i).any fun it => it.file = f) = true := by
        refine Bool.and_eq_true_iff.2 ⟨decide_eq_true hrise.2, ?_⟩
        rw [show s.items i = some it from hi]
        exact decide_eq_true hrise.1
      refine .inr (.inl ?_)
      dsimp only
      rw [howed, Bool.or_true]
    · have hm' : s.mask it ≠ 0 := by
        by_cases hf : it.file = f
        · have hle : mask &&& ~~~(s.masks it.file) = 0 := by
            rw [hf]
            exact not_not.1 fun hne => hrise ⟨hf, hne⟩
          apply epollMask_ne_zero hle
          simpa [State.mask, hf] using hm
        · simpa [State.mask, update_of_ne hf] using hm
      have hs' : it.edge = false ∨ Signalled i tr := by
        refine hs.imp_right fun hs => ?_
        rcases since_snoc.1 hs with hs | hs
        · exact hs.elim
        · exact hs.2
      rcases h i it hi ha hm' hs' with hq | ho | hc
      · exact .inl hq
      · exact .inr (.inl (by simp [ho]))
      · exact .inr (.inr hc)

theorem Step.pending_notify (hinv : Inv s) (hstep : Step s (.notify j) s') :
    ∀ i, Pending (tr ++ [.notify j]) s' i := by
  cases hstep with
  | @notify _ x hj =>
    have hm := hinv.queue.epollQueue j
    intro i
    by_cases hij : i = j
    · subst hij
      refine .queued ?_
      intro it hi ha
      rw [hm.items, mark_self hj] at hi
      cases hi
      simp [show x.armed = true from ha]
    · refine (h i).frame ((congrFun hm.items i).trans (mark_of_ne hij)) hm.masks ?_ ?_ (fun hs => hij hs.symm)
      · exact (update_of_ne hij ..).trans (congrFun hm.owed i)
      · exact fun hc => (congrArg item hm.call).trans hc

/-- An interest that is not ready any more is let go. -/
theorem pending_stale {it : Item} (hcall : s.call.item = some i) (hi : s.items i = some it)
    (hstale : it.armed = false ∨ s.mask it = 0) : ∀ i, Pending (tr ++ [.internal]) (s.go c) i := by
  refine pending_step (j := i) h (fun _ _ => rfl) rfl rfl (by simp [hcall]) (fun _ => False.elim) ?_
  intro x hx ha hm
  cases hi.symm.trans hx
  rcases hstale with hstale | hstale
  · rw [hstale] at ha
    cases ha
  · exact absurd hstale hm

theorem Step.pending_report {mask : Mask} {data : BitVec 64} {oneshot : Bool}
    (hstep : Step s (.report i mask data oneshot) s') : ∀ j, Pending (tr ++ [.report i mask data oneshot]) s' j := by
  cases hstep with
  | @report _ it _ l hcall hi =>
    refine pending_step (j := i) h (fun _ _ => rfl) rfl rfl (by simp [hcall, item]) (fun _ => False.elim) ?_
    by_cases hloop : it.oneshot = false ∧ it.edge = true
    · -- an edge-triggered interest is let go, and has to be signalled anew
      intro x hx ha hm hs
      cases hi.symm.trans hx
      rcases hs with hs | hs
      · rw [hloop.2] at hs
        cases hs
      · rcases since_snoc.1 hs with hs | hs
        · exact hs.elim
        · exact absurd rfl hs.1
    · refine .inHand ?_
      show (afterReport it i _).item = some i
      unfold afterReport
      split_ifs with h1 h2
      · rfl
      · exact absurd ⟨by simpa using h1, h2⟩ hloop
      · rfl

end

theorem Step.pending (hinv : Inv s) (h : ∀ i, Pending tr s i) (hstep : Step s e s') :
    ∀ i, Pending (tr ++ [e]) s' i := by
  have hholds := hinv.holds
  cases hstep with
  | change => exact Step.pending_change h (.change ..)
  | notify hj => exact Step.pending_notify h hinv (.notify hj)
  | report hcall hi => exact Step.pending_report h (.report hcall hi)
  | stale hcall hi hstale | probeStale hcall hi hstale => exact pending_stale h (by rw [hcall]; rfl) hi hstale
  | addExists | addRefused | missing => exact fun i => (h i).frame rfl rfl rfl id id
  | add events data hidle hnew =>
    refine pending_step h (fun i hi => update_of_ne hi ..) rfl rfl ?_ (fun _ => False.elim) (.inHand rfl)
    simp [hidle, item]
  | release f hcall | deliver n hcall | poll hcall | releaseDone hcall | loopEnd hcall | loopEmpty hcall
  | probeEnd hcall => exact pending_go h (by rw [hcall]; rfl) fun _ => id
  | @addUnsupported i hcall | @removed i k hcall =>
    have hm := hinv.queue.epollUnqueue i
    refine pending_step (j := i) h ?_ hm.masks hm.owed (by simp [hcall, item]) (fun _ => False.elim) (.queued ?_)
    · intro j hj
      exact (update_of_ne hj ..).trans ((congrFun hm.items j).trans (mark_of_ne hj))
    · intro it hi
      cases (update_self ..).symm.trans hi
  | @addLinked i it hcall hi | @releaseNext f i it hcall hi | @disarm i it l hcall hi =>
    exact pending_step h (fun j hj => update_of_ne hj ..) rfl rfl (by simp [hcall, item])
      (fun _ => False.elim) (.inHand rfl)
  | @modify f fd i it events data hidle hfinds hi | @delete f fd i it hidle hfinds hi =>
    exact pending_step h (fun j hj => update_of_ne hj ..) rfl rfl (by simp [hidle, item])
      (fun _ => False.elim) (.inHand rfl)
  | @checkEmpty i it hcall hi hmask =>
    refine pending_step (j := i) h (fun _ _ => rfl) rfl rfl (by simp [hcall, item]) (fun _ => False.elim) ?_
    intro x hx _ hm
    cases hi.symm.trans hx
    exact absurd hmask hm
  | @checkReady i it hcall =>
    exact pending_step h (fun _ _ => rfl) rfl rfl (by simp [hcall, item]) (fun _ hs => hs.symm) (.inHand rfl)
  | @loopPop _ l i hcall _ _ hpop | @probePop _ b i hcall hpop =>
    obtain ⟨hm, -⟩ := hinv.queue.pop hpop
    refine pending_step h ?_ hm.masks hm.owed (by simp [hcall, item]) (fun _ => False.elim) (.inHand rfl)
    intro j hj
    exact (congrFun hm.items j).trans (mark_of_ne hj)
  | @masked i it l hcall | @fault i mask l hcall | @probeReady i it b hcall =>
    exact pending_step h (fun _ _ => rfl) rfl rfl (by simp [hcall, item]) (fun _ => False.elim) (.inHand rfl)
  | enqueue hcall | faulted hcall =>
    refine pending_mark h (hinv.queue.epollQueue _) (by simp [hcall, item]) (fun _ => id) ?_
    intro it _ ha
    rw [ha, Bool.or_true]
  | unqueue hcall =>
    refine pending_mark h (hinv.queue.epollUnqueue _) (by simp [hcall, item]) (fun _ => id) ?_
    -- the interest is disarmed
    intro it hi ha
    rw [hcall] at hholds
    obtain ⟨x, hx, harmed⟩ := hholds
    cases hx.symm.trans hi
    exact harmed.symm.trans ha
  | requeue hcall | putBack hcall =>
    exact pending_mark h (hinv.queue.link ..) (by simp [hcall, item]) (fun _ => id) fun _ _ _ => rfl

end Pending

/-! ### One report and no report after a removal -/

/-- What an interest was before a step. -/
structure Came (s : State) (e : Event) (s' : State) (i : Nat) (it it' : Item) : Prop where
  mem : s.items i = some it
  armed : it'.armed = true → e = .modify i ∨ it.armed = true ∧ ∀ l, s.call = .disarm i l → s'.call = .disarm i l
  removing : ∀ k, s.call = .removing i k → s'.call = .removing i k

section Came

variable {e : Event} {it it' : Item}

/-- A call that is about to disarm or to remove the interest goes on with it. -/
def Keeps (s s' : State) (i : Nat) : Prop :=
  (∀ l, s.call = .disarm i l → s'.call = .disarm i l) ∧ ∀ k, s.call = .removing i k → s'.call = .removing i k

theorem Came.marked {t : State} (hi : s'.items i = some it') (hm : Marks j q s t) (hitems : s'.items = t.items)
    (hkeep : Keeps s s' i) : ∃ it, Came s e s' i it it' := by
  rw [hitems, hm.items] at hi
  obtain ⟨b, hb⟩ := of_mark hi
  exact ⟨_, hb, fun ha => .inr ⟨ha, hkeep.1⟩, hkeep.2⟩

theorem Came.same (hi : s.items i = some it') (hkeep : Keeps s s' i) : ∃ it, Came s e s' i it it' :=
  ⟨it', hi, fun ha => .inr ⟨ha, hkeep.1⟩, hkeep.2⟩

theorem Came.set {x y : Item} (hj : s.items j = some x) (hi : ((s.setItem j y).go c).items i = some it')
    (harmed : y.armed = true → e = .modify j ∨ x.armed = true ∧ ∀ i l, s.call ≠ .disarm i l)
    (hdisarm : ∀ l, i ≠ j → s.call ≠ .disarm i l) (hremoving : ∀ k, s.call ≠ .removing i k) :
    ∃ it, Came s e ((s.setItem j y).go c) i it it' := by
  by_cases hij : i = j
  · subst hij
    cases (update_self ..).symm.trans hi
    refine ⟨x, hj, ?_, fun k hk => absurd hk (hremoving k)⟩
    intro ha
    exact (harmed ha).imp_right fun hx => ⟨hx.1, fun l hl => absurd hl (hx.2 i l)⟩
  · have hi' : s.items i = some it' := (update_of_ne hij ..).symm.trans hi
    exact ⟨it', hi', fun ha => .inr ⟨ha, fun l hl => absurd hl (hdisarm l hij)⟩, fun k hk => absurd hk (hremoving k)⟩

theorem Came.drop (hq : Queue s)
    (hi : ({ s.epollUnqueue j with items := update (s.epollUnqueue j).items j none }.go c).items i = some it')
    (hdisarm : ∀ l, s.call ≠ .disarm i l) (hremoving : ∀ k, i ≠ j → s.call ≠ .removing i k) :
    ∃ it, Came s e ({ s.epollUnqueue j with items := update (s.epollUnqueue j).items j none }.go c) i it it' := by
  have hij : i ≠ j := by
    rintro rfl
    cases (update_self ..).symm.trans hi
  have hi' : (s.epollUnqueue j).items i = some it' := (update_of_ne hij ..).symm.trans hi
  rw [(hq.epollUnqueue j).items, mark_of_ne hij] at hi'
  exact ⟨it', hi', fun ha => .inr ⟨ha, fun l hl => absurd hl (hdisarm l)⟩, fun k hk => absurd hk (hremoving k hij)⟩

open Came

theorem Step.came (hinv : Inv s) (hstep : Step s e s') (hi : s'.items i = some it') :
    i = s.next ∨ ∃ it, Came s e s' i it it' := by
  cases hstep with
  | change | addExists | addRefused | missing => exact .inr (same hi ⟨fun _ => id, fun _ => id⟩)
  | @notify j =>
    have hm := hinv.queue.epollQueue j
    exact .inr (marked hi hm rfl ⟨fun _ => hm.call.trans, fun _ => hm.call.trans⟩)
  | add events data hidle =>
    by_cases hin : i = s.next
    · exact .inl hin
    · exact .inr (same ((update_of_ne hin ..).symm.trans hi) (by simp [Keeps, hidle]))
  | addUnsupported hcall => exact .inr (drop hinv.queue hi (by simp [hcall]) (by simp [hcall]))
  | removed hcall =>
    refine .inr (drop hinv.queue hi (by simp [hcall]) ?_)
    intro k hne hk
    rw [hcall] at hk
    cases hk
    exact hne rfl
  | addLinked hcall hj =>
    exact .inr (set hj hi (fun ha => .inr ⟨ha, by simp [hcall]⟩) (by simp [hcall]) (by simp [hcall]))
  | modify events data hidle _ hj => exact .inr (set hj hi (fun _ => .inl rfl) (by simp [hidle]) (by simp [hidle]))
  | delete hcall _ hj | releaseNext hcall hj =>
    exact .inr (set hj hi nofun (by simp [hcall]) (by simp [hcall]))
  | @disarm j it l hcall hj =>
    refine .inr (set hj hi nofun ?_ (by simp [hcall]))
    intro l hne hl
    rw [hcall] at hl
    cases hl
    exact hne rfl
  | enqueue hcall | faulted hcall =>
    exact .inr (marked hi (hinv.queue.epollQueue _) rfl (by simp [Keeps, hcall]))
  | unqueue hcall => exact .inr (marked hi (hinv.queue.epollUnqueue _) rfl (by simp [Keeps, hcall]))
  | requeue hcall | putBack hcall =>
    exact .inr (marked hi (hinv.queue.link ..) rfl (by simp [Keeps, hcall]))
  | loopPop hcall _ _ hpop | probePop hcall hpop =>
    exact .inr (marked hi (hinv.queue.pop hpop).1 rfl (by simp [Keeps, hcall]))
  | _ =>
    have hcall := ‹s.call = _›
    exact .inr (same hi (by simp [Keeps, hcall]))

theorem Step.next_le (hinv : Inv s) (hstep : Step s e s') : s.next ≤ s'.next := by
  cases hstep with
  | add => exact Nat.le_succ _
  | addUnsupported | removed | unqueue => exact (hinv.queue.epollUnqueue _).next.ge
  | notify | enqueue | faulted => exact (hinv.queue.epollQueue _).next.ge
  | requeue | putBack => exact (hinv.queue.link ..).next.ge
  | loopPop _ _ _ hpop | probePop _ hpop => exact (hinv.queue.pop hpop).1.next.ge
  | _ => exact le_rfl

end Came

theorem Inv.lt_next (h : Inv s) (hi : s.items i = some it) : i < s.next := by
  by_contra hle
  rw [h.fresh i (by omega)] at hi
  cases hi

theorem Step.report_inv {data : BitVec 64} {oneshot : Bool} (h : Inv s)
    (hstep : Step s (.report i mask data oneshot) s') :
    ∃ it l, s.call = .masked i mask l ∧ s.items i = some it ∧ it.armed = true ∧ mask ≠ 0 ∧ it.oneshot = oneshot ∧
      s' = s.go (afterReport it i { l with count := l.count + 1 }) := by
  cases hstep with
  | @report _ it _ l hcall hi =>
    have hholds := h.holds
    rw [hcall] at hholds
    obtain ⟨x, hx, harmed, hmask⟩ := hholds
    cases hx.symm.trans hi
    exact ⟨it, l, hcall, hi, harmed, hmask, rfl, rfl⟩

theorem Step.remove_inv (h : Inv s) (hstep : Step s (.remove i) s') : i < s.next ∧ ∃ k, s'.call = .removing i k := by
  cases hstep with
  | delete _ _ hi | releaseNext _ hi => exact ⟨h.lt_next hi, _, rfl⟩

/-- What holds along a run: an interest that was delivered with `EPOLLONESHOT` is not armed until it is modified, and
one that was removed does not come back. -/
structure Kept (tr : List Event) (s : State) : Prop where
  inv : Inv s
  pending : ∀ i, Pending tr s i
  spent : ∀ i, Spent i tr → i < s.next ∧ ∀ it, s.items i = some it → it.armed = true → ∃ l, s.call = .disarm i l
  gone : ∀ i, .remove i ∈ tr → i < s.next ∧ ∀ it, s.items i = some it → ∃ k, s.call = .removing i k

theorem Kept.init (masks : Nat → Mask) : Kept [] (.init masks) := by
  refine ⟨.init masks, ?_, ?_, ?_⟩
  · intro i it hi
    cases hi
  · intro i hs
    exact absurd hs since_nil
  · intro i hi
    cases hi

variable {tr : List Event}

theorem Kept.step (h : Kept tr s) (hstep : Step s e s') : Kept (tr ++ [e]) s' := by
  have hle := hstep.next_le h.inv
  refine ⟨hstep.inv h.inv, hstep.pending h.inv h.pending, ?_, ?_⟩
  · intro i hs
    rcases since_snoc.1 hs with hspends | ⟨hmodify, hs⟩
    · cases e with
      | report j mask data oneshot =>
        obtain ⟨rfl, rfl⟩ := hspends
        obtain ⟨it, l, -, hi, -, -, honeshot, rfl⟩ := hstep.report_inv h.inv
        refine ⟨h.inv.lt_next hi, ?_⟩
        intro _ _ _
        exact ⟨_, if_pos honeshot⟩
      | _ => exact hspends.elim
    · obtain ⟨hlt, hspent⟩ := h.spent i hs
      refine ⟨by omega, ?_⟩
      intro it' hi' ha
      rcases hstep.came h.inv hi' with rfl | ⟨it, hcame⟩
      · omega
      · rcases hcame.armed ha with rfl | ⟨ha, hdisarm⟩
        · exact absurd rfl hmodify
        · obtain ⟨l, hl⟩ := hspent it hcame.mem ha
          exact ⟨l, hdisarm l hl⟩
  · intro i hmem
    rcases mem_append.1 hmem with hmem | hmem
    · obtain ⟨hlt, hgone⟩ := h.gone i hmem
      refine ⟨by omega, ?_⟩
      intro it' hi'
      rcases hstep.came h.inv hi' with rfl | ⟨it, hcame⟩
      · omega
      · obtain ⟨k, hk⟩ := hgone it hcame.mem
        exact ⟨k, hcame.removing k hk⟩
    · cases mem_singleton.1 hmem
      obtain ⟨hlt, hremoving⟩ := hstep.remove_inv h.inv
      exact ⟨by omega, fun _ _ => hremoving⟩

theorem Kept.of_run {masks : Nat → Mask} (h : Run Step (.init masks) tr s) : Kept tr s :=
  h.invariant Kept (.init masks) fun _ _ _ _ _ hkept hstep => hkept.step hstep

/-- **The ready list.**  In every run: the count is the length of the list, an interest is on the list exactly if it
is marked as queued; an interest that is armed and ready is on the list, for an edge-triggered one if it was signalled
since it was last delivered, unless its file owes it a callback or the call in progress has it in hand; an interest is
delivered once with `EPOLLONESHOT` until it is modified; and no delivery has an empty mask or a removed interest. -/
theorem epoll_runs {masks : Nat → Mask} {tr : List Event} (hrun : Run Step (.init masks) tr s) :
    s.readyCount = s.ready.length ∧ s.ready.Nodup ∧
    (∀ i, i ∈ s.ready ↔ ∃ it, s.items i = some it ∧ it.queued = true) ∧
    (∀ i it, s.items i = some it → it.armed = true → s.mask it ≠ 0 → it.edge = false ∨ Signalled i tr →
      s.owed i = false → s.call.item ≠ some i → i ∈ s.ready) ∧
    (∀ i tr₁ tr₂ tr₃ m d m' d' o, tr = tr₁ ++ .report i m d true :: (tr₂ ++ .report i m' d' o :: tr₃) →
      .modify i ∈ tr₂) ∧ ∀ i tr₁ tr₂ m d o, tr = tr₁ ++ .report i m d o :: tr₂ → m ≠ 0 ∧ .remove i ∉ tr₁ := by
  have hkept := Kept.of_run hrun
  have hqueue := hkept.inv.queue
  have hmem : ∀ i, i ∈ s.ready ↔ ∃ it, s.items i = some it ∧ it.queued = true := by
    intro i
    rw [hqueue.listed.mem_iff]
    exact any_eq_true _ _
  refine ⟨hqueue.count, hqueue.listed.nodup, hmem, ?_, ?_, ?_⟩
  · intro i it hi ha hm hs howed hcall
    rcases hkept.pending i it hi ha hm hs with hq | ho | hc
    · exact (hmem i).mpr ⟨it, hi, hq⟩
    · rw [howed] at ho
      cases ho
    · exact absurd hc hcall
  · intro i tr₁ tr₂ tr₃ m d m' d' o htr
    rw [htr, ← cons_append, ← append_assoc] at hrun
    obtain ⟨t, t', hrun, hstep, -⟩ := hrun.split
    have hkept := Kept.of_run hrun
    obtain ⟨it, l, hcall, hi, harmed, -⟩ := hstep.report_inv hkept.inv
    by_contra hno
    have hspent : Spent i (tr₁ ++ .report i m d true :: tr₂) :=
      ⟨tr₁, _, tr₂, rfl, ⟨rfl, rfl⟩, fun x hx hmodify => hno (hmodify ▸ hx)⟩
    obtain ⟨l', hl'⟩ := (hkept.spent i hspent).2 it hi harmed
    rw [hcall] at hl'
    cases hl'
  · intro i tr₁ tr₂ m d o htr
    rw [htr] at hrun
    obtain ⟨t, t', hrun, hstep, -⟩ := hrun.split
    have hkept := Kept.of_run hrun
    obtain ⟨it, l, hcall, hi, -, hmask, -⟩ := hstep.report_inv hkept.inv
    refine ⟨hmask, ?_⟩
    intro hremove
    obtain ⟨k, hk⟩ := (hkept.gone i hremove).2 it hi
    rw [hcall] at hk
    cases hk

private def reader : Item := ⟨7, 3, 1, 0, true, false, false⟩

/-- Every file can be read, and the interest is being added. -/
private def addingReader : State :=
  { (State.init fun _ => fsPollRead).setItem 0 reader with next := 1 }.go (.adding 0)

private def checkReader : State := (addingReader.setItem 0 { reader with linked := true }).go (.check 0)

theorem epoll_runs_added : ∃ s, Run Step (.init fun _ => fsPollRead) [.add 0, .internal, .found 0, .internal] s ∧
    0 ∈ s.ready := by
  have hadd : Step (.init fun _ => fsPollRead) (.add 0) addingReader := by
    refine .add 1 0 rfl ?_
    intro i h
    obtain ⟨it, hi, -⟩ := h
    cases hi
  have hlinked : Step addingReader .internal checkReader := .addLinked rfl rfl
  have hfound : Step checkReader (.found 0) (checkReader.go (.enqueue 0)) := .checkReady rfl rfl (by decide +kernel)
  have hqueue : Step (checkReader.go (.enqueue 0)) .internal
    (((checkReader.go (.enqueue 0)).epollQueue 0).go .idle) :=
    .enqueue rfl
  have hrun := (((Run.single hadd).snoc hlinked).snoc hfound).snoc hqueue
  refine ⟨_, hrun, ?_⟩
  obtain ⟨-, -, -, hready, -⟩ := epoll_runs hrun
  exact hready 0 _ rfl rfl (by decide +kernel) (.inl (by decide)) rfl nofun

end Mos.Epoll
