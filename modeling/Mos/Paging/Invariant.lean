import Mos.Lib.Assoc
import Mos.Paging.Protocol

/-!
# Reference counts and exclusive pages

The invariant of the page protocol: the counts are the numbers of references, the free pages are those that are
neither referenced nor in use without a reference, and a page that is mapped private and writable has one reference,
which is the entry.  Every small step keeps it.
-/

namespace Mos.Paging

open Lib Vm List Function State Pte Inv

variable {α : Type}

variable {p : Nat}

section Lookup

variable {κ : Type} [BEq κ] [LawfulBEq κ] [DecidableEq κ] {l : List (κ × Nat)} {k : κ}

private theorem perm_cons_erase_key (h : l.lookup k = some p) : l.Perm ((k, p) :: l.eraseP fun x => x.1 = k) := by
  obtain ⟨l1, l2, rfl, hno⟩ := lookup_eq_some_iff.1 h
  rw [eraseP_append_right _ fun y hy => by simpa using (bne_iff_ne.1 (hno y hy)).symm, eraseP_cons_of_pos (by simp)]
  exact perm_middle

theorem lookup_mem (h : l.lookup k = some p) : (k, p) ∈ l := (perm_cons_erase_key h).mem_iff.2 mem_cons_self

end Lookup

def Placed (l : List Pte) : Prop := l.Pairwise fun x y => ¬(x.space = y.space ∧ x.va = y.va)

variable {x : Pte} {l : List Pte}

section Places

variable {s : State α} {a va : Nat} {e : Pte}

theorem isAt_iff : x.isAt a va = true ↔ x.space = a ∧ x.va = va := by
  simp [isAt]

theorem pte_some (h : s.pte a va = some e) : e ∈ s.ptes ∧ e.space = a ∧ e.va = va :=
  ⟨mem_of_find?_eq_some h, isAt_iff.1 (find?_some h)⟩

theorem pte_none (h : s.pte a va = none) : ∀ x ∈ s.ptes, ¬(x.space = a ∧ x.va = va) := by
  intro x hx hat
  exact absurd (isAt_iff.2 hat) (by simpa using find?_eq_none.1 h x hx)

section

variable (h : Placed l)

include h

theorem Placed.mem_eraseP : x ∈ l.eraseP (isAt a va) ↔ x ∈ l ∧ ¬(x.space = a ∧ x.va = va) := by
  constructor
  · intro hx
    refine ⟨mem_of_mem_eraseP hx, fun hat => ?_⟩
    cases hf : l.find? (isAt a va) with
    | none =>
      exact absurd (isAt_iff.2 hat) (by simpa using find?_eq_none.1 hf x (mem_of_mem_eraseP hx))
    | some y =>
      -- `y` is the entry that was erased, and `x` would be a second one at its place
      have hp : Placed (y :: l.eraseP (isAt a va)) :=
        ((Assoc.perm_cons_eraseP hf).pairwise_iff fun {u v} huv hvu => huv ⟨hvu.1.symm, hvu.2.symm⟩).mp h
      obtain ⟨h1, h2⟩ := isAt_iff.1 (find?_some hf)
      exact (pairwise_cons.1 hp).1 x hx ⟨h1.trans hat.1.symm, h2.trans hat.2.symm⟩
  · rintro ⟨hx, hat⟩
    exact (mem_eraseP_of_neg (by simpa [isAt] using hat)).mpr hx

theorem Placed.clear : Placed (l.eraseP (isAt a va)) :=
  Pairwise.sublist eraseP_sublist h

theorem Placed.set : Placed (e :: l.eraseP (isAt e.space e.va)) := by
  refine pairwise_cons.2 ⟨fun x hx hat => ?_, h.clear⟩
  exact (h.mem_eraseP.1 hx).2 ⟨hat.1.symm, hat.2.symm⟩

theorem Placed.find?_eq (he : e ∈ l) : l.find? (isAt e.space e.va) = some e := by
  obtain ⟨l1, l2, rfl⟩ := append_of_mem he
  refine find?_eq_some_iff_append.2 ⟨isAt_iff.2 ⟨rfl, rfl⟩, l1, l2, rfl, fun y hy => ?_⟩
  have hne := (pairwise_append.1 h).2.2 y hy e mem_cons_self
  simpa [← isAt_iff] using hne

end

theorem Placed.pte_eq (h : Placed s.ptes) (he : e ∈ s.ptes) : s.pte e.space e.va = some e := h.find?_eq he

theorem Placed.eq_of_at {y : Pte} (h : Placed s.ptes) (hy : y ∈ s.ptes) (he : s.pte e.space e.va = some e)
    (hat : y.space = e.space ∧ y.va = e.va) : y = e := by
  have hfound := h.pte_eq hy
  rw [hat.1, hat.2, he] at hfound
  exact (Option.some.inj hfound).symm

theorem eraseP_absent (h : s.pte a va = none) : s.ptes.eraseP (isAt a va) = s.ptes :=
  eraseP_of_forall_not fun x hx => by simpa using find?_eq_none.1 h x hx

end Places

section Refs

variable {s : State α} {e x : Pte} {a va : Nat}

private theorem refs_set_absent (h : s.pte e.space e.va = none) (hd : e.direct = false) :
    (s.setPte e).refs = e.pfn :: s.refs := by
  simp [refs, mapped, setPte, eraseP_absent h, hd, shared]

private theorem refs_set_direct (h : s.pte e.space e.va = none) (hd : e.direct = true) :
    (s.setPte e).refs = s.refs := by
  simp [refs, mapped, setPte, eraseP_absent h, hd, shared]

private theorem refs_set (hd : e.direct = false) : (s.setPte e).refs = e.pfn :: (s.clearPte e.space e.va).refs := by
  simp [refs, mapped, setPte, clearPte, hd, shared]

private theorem mapped_clear (h : s.pte a va = some e) :
    s.mapped.Perm ((if e.direct then [] else [e.pfn]) ++ (s.clearPte a va).mapped) := by
  have := ((Assoc.perm_cons_eraseP h).filter fun e => !e.direct).map pfn
  cases hd : e.direct <;> simpa [mapped, clearPte, hd] using this

private theorem refs_clear (h : s.pte a va = some e) (hd : e.direct = false) :
    s.refs.Perm (e.pfn :: (s.clearPte a va).refs) := by
  have hp := mapped_clear h
  rw [hd] at hp
  exact hp.append_right _

private theorem refs_clear_direct (h : s.pte a va = some e) (hd : e.direct = true) :
    s.refs.Perm (s.clearPte a va).refs := by
  have hp := mapped_clear h
  rw [hd] at hp
  exact hp.append_right _

theorem mem_mapped (he : e ∈ s.ptes) (hd : e.direct = false) : e.pfn ∈ s.mapped :=
  mem_map_of_mem (mem_filter.2 ⟨he, by simp [hd]⟩)

private theorem two_le_count (hs : Placed s.ptes) (he : e ∈ s.ptes) (hx : x ∈ s.ptes) (hne : x ≠ e)
    (hed : e.direct = false) (hxd : x.direct = false) (hp : x.pfn = e.pfn) : 2 ≤ s.mapped.count e.pfn := by
  have hmem : x ∈ (s.clearPte e.space e.va).ptes :=
    hs.mem_eraseP.2 ⟨hx, fun hat => hne (hs.eq_of_at hx (hs.pte_eq he) hat)⟩
  have hcount : s.mapped.count e.pfn = (s.clearPte e.space e.va).mapped.count e.pfn + 1 := by
    simp [(mapped_clear (hs.pte_eq he)).count_eq, hed]
  have hpos : 0 < (s.clearPte e.space e.va).mapped.count e.pfn := by
    rw [count_pos_iff, ← hp]
    exact mem_mapped hmem hxd
  omega

end Refs

/-- An entry through which a store changes a page that belongs to this address space alone. -/
def Exclusive (s : State α) (e : Pte) : Prop :=
  e.writable = true ∧ e.direct = false ∧ ∃ t, s.attr e = some t ∧ isShared t.flag = false

def EntryOk (C : Config) (s : State α) (e : Pte) : Prop :=
  pageSize ∣ e.va ∧ ∃ t, s.attr e = some t ∧ e.direct = C.isDirect t.fp ∧
    (e.direct = true → e.writable = canWrite t.prot)

structure Inv (C : Config) (c : Cfg α) : Prop where
  pool : c.s.pool.Sound (c.pins ++ c.s.refs) (c.loose ++ (c.s.other ++ c.s.lost))
  mm : ∀ a, MmOk C.arch (c.s.mm a)
  placed : Placed c.s.ptes
  entry : ∀ e ∈ c.s.ptes, EntryOk C c.s e
  sole : ∀ e ∈ c.s.ptes, Exclusive c.s e → (c.pins ++ c.s.refs).count e.pfn = 1
  zero : C.zeroPage ∈ c.s.held

variable {C : Config}

variable {e : Pte} {s s' : State α}

theorem Exclusive.mem_refs {s : State α} (hx : Exclusive s e) (he : e ∈ s.ptes) : e.pfn ∈ s.refs :=
  mem_append_left _ (mem_mapped he hx.2.1)

section Sole

variable {c : Cfg α} (h : Inv C c) {e x : Pte} (he : e ∈ c.s.ptes) (hx : Exclusive c.s e)

include h he hx

theorem Inv.ne_of_shared (hp : p ∈ c.pins ∨ p ∈ c.s.shared ∨ 1 < c.s.pool.count p) : e.pfn ≠ p := by
  rintro rfl
  have hone := h.sole e he hx
  have hmap : 0 < c.s.mapped.count e.pfn := count_pos_iff.2 (mem_mapped he hx.2.1)
  rw [h.pool.count_eq] at hp
  rw [refs, count_append, count_append] at hone hp
  rcases hp with hp | hp | hp
  · have := count_pos_iff.2 hp
    omega
  · have := count_pos_iff.2 hp
    omega
  · omega

theorem Inv.ne_of_entry (hx' : x ∈ c.s.ptes) (hd : x.direct = false) (hne : x ≠ e) : e.pfn ≠ x.pfn := by
  intro hp
  have hone := h.sole e he hx
  have := two_le_count h.placed he hx' hne hx.2.1 hd hp.symm
  rw [refs, count_append, count_append] at hone
  omega

end Sole

/-! ### Steps that leave entries and regions alone -/

/-- What a step has to show if it keeps the attributes of the entries. -/
private theorem Inv.change {pins' loose' : List Nat}
    (hpool : s'.pool.Sound (pins' ++ s'.refs) (loose' ++ (s'.other ++ s'.lost))) (hmm : ∀ a, MmOk C.arch (s'.mm a))
    (hplaced : Placed s'.ptes) (hzero : C.zeroPage ∈ s'.held) (hattr : ∀ e ∈ s'.ptes, s'.attr e = s.attr e)
    (hentry : ∀ e ∈ s'.ptes, EntryOk C s e ∧ (Exclusive s e → (pins' ++ s'.refs).count e.pfn = 1)) :
    Inv C ⟨s', pins', loose'⟩ := by
  refine ⟨hpool, hmm, hplaced, fun e he => ?_, fun e he hx => (hentry e he).2 ?_, hzero⟩
  · have := (hentry e he).1
    unfold EntryOk at this ⊢
    rwa [hattr e he]
  · unfold Exclusive at hx ⊢
    rwa [hattr e he] at hx

section Update

variable {s s' : State α} {pins pins' loose loose' : List Nat} {p : Nat} (h : Inv C ⟨s, pins, loose⟩)
  (hptes : s'.ptes = s.ptes) (hmm : s'.mm = s.mm) (hzero : C.zeroPage ∈ s'.held)

include h hptes hmm hzero

private theorem Inv.update (hpool : s'.pool.Sound (pins' ++ s'.refs) (loose' ++ (s'.other ++ s'.lost)))
    (hcount : ∀ e ∈ s.ptes, Exclusive s e → (pins' ++ s'.refs).count e.pfn = (pins ++ s.refs).count e.pfn) :
    Inv C ⟨s', pins', loose'⟩ := by
  refine .change (s := s) hpool (hmm ▸ h.mm) (hptes ▸ h.placed) hzero (fun e _ => by rw [attr, attr, hmm])
    fun e he => ?_
  rw [hptes] at he
  exact ⟨h.entry e he, fun hx => (hcount e he hx).trans (h.sole e he hx)⟩

theorem Inv.get (hpool : s'.pool = s.pool.get p) (hrefs : (pins' ++ s'.refs).Perm (p :: (pins ++ s.refs)))
    (hidle : (loose ++ (s.other ++ s.lost)).Perm (loose' ++ (s'.other ++ s'.lost))) (hmem : p ∈ pins ++ s.refs)
    (hne : ∀ e ∈ s.ptes, Exclusive s e → e.pfn ≠ p) : Inv C ⟨s', pins', loose'⟩ := by
  refine h.update hptes hmm hzero (hpool ▸ (h.pool.get hmem).perm hrefs.symm hidle) fun e he hx => ?_
  rw [hrefs.count_eq, count_cons_of_ne (hne e he hx).symm]

theorem Inv.getLoose (hpool : s'.pool = s.pool.get p)
    (hrefs : (pins' ++ s'.refs).Perm (p :: (pins ++ s.refs)))
    (hidle : (loose ++ (s.other ++ s.lost)).Perm (p :: (loose' ++ (s'.other ++ s'.lost)))) :
    Inv C ⟨s', pins', loose'⟩ := by
  have hpool0 := h.pool.perm (Perm.refl _) hidle
  refine h.update hptes hmm hzero (hpool ▸ hpool0.get_idle.perm hrefs.symm (Perm.refl _)) fun e he hx => ?_
  have hne : p ≠ e.pfn := by
    rintro rfl
    exact hpool0.apart _ mem_cons_self (mem_append_right _ (hx.mem_refs he))
  rw [hrefs.count_eq, count_cons_of_ne hne]

theorem Inv.put (hpool : s'.pool = s.pool.put p) (hrefs : (pins ++ s.refs).Perm (p :: (pins' ++ s'.refs)))
    (hidle : (loose ++ (s.other ++ s.lost)).Perm (loose' ++ (s'.other ++ s'.lost)))
    (hp : p ∈ pins ∨ p ∈ s.shared) : Inv C ⟨s', pins', loose'⟩ := by
  have hpool0 := h.pool.perm hrefs hidle
  refine h.update hptes hmm hzero (hpool ▸ hpool0.put) fun e he hx => ?_
  have hne := h.ne_of_shared he hx (hp.imp_right .inl)
  rw [hrefs.count_eq, count_cons_of_ne hne.symm]

theorem Inv.idle (hrefs : (pins ++ s.refs).Perm (pins' ++ s'.refs))
    (hpool : s'.pool.Sound (pins ++ s.refs) (loose' ++ (s'.other ++ s'.lost))) : Inv C ⟨s', pins', loose'⟩ :=
  h.update hptes hmm hzero (hpool.perm hrefs (Perm.refl _)) fun _ _ _ => (hrefs.count_eq _).symm

end Update

variable {k : Key}

section Caches

variable {s : State α} {pins loose : List Nat} {p : Nat} (h : Inv C ⟨s, pins, loose⟩)

include h

theorem Inv.take (hf : s.pool.free p = true) {flag : Bool} : Inv C ⟨s.take p flag, pins, p :: loose⟩ :=
  h.idle rfl rfl h.zero (Perm.refl _) (h.pool.take hf)

theorem Inv.pin (hp : p ∈ s.shared ∨ 1 < s.pool.count p) : Inv C ⟨s.get p, p :: pins, loose⟩ := by
  refine get h rfl rfl h.zero rfl (Perm.refl _) (Perm.refl _) ?_ fun e he hx =>
    h.ne_of_shared he hx (.inr hp)
  rcases hp with hp | hp
  · exact mem_append_right _ (mem_append_right _ hp)
  · exact h.pool.count_pos.1 (Nat.lt_trans Nat.zero_lt_one hp)

/-- A cache takes a reference to a page that is mapped shared. -/
theorem Inv.getShared (s' : State α) {t : PageAttr} (hptes : s'.ptes = s.ptes) (hmm : s'.mm = s.mm)
    (hheld : s'.held = s.held) (hidle : s'.other = s.other ∧ s'.lost = s.lost) (hpool : s'.pool = s.pool.get e.pfn)
    (hrefs : s'.refs.Perm (e.pfn :: s.refs)) (he : e ∈ s.ptes) (ht : s.attr e = some t) (hsh : isShared t.flag = true)
    (hd : C.isDirect t.fp = false) : Inv C ⟨s', pins, loose⟩ := by
  have hdirect : e.direct = false := by
    obtain ⟨-, t', ht', hd', -⟩ := h.entry e he
    cases ht.symm.trans ht'
    rw [hd', hd]
  refine get h hptes hmm (hheld ▸ h.zero) hpool ((hrefs.append_left pins).trans perm_middle) ?_ ?_ ?_
  · rw [hidle.1, hidle.2]
  · exact mem_append_right _ (mem_append_left _ (mem_mapped he hdirect))
  · intro x hx hexcl
    refine h.ne_of_entry hx hexcl he hdirect ?_
    rintro rfl
    obtain ⟨-, -, t', ht', hpriv⟩ := hexcl
    cases ht.symm.trans ht'
    exact absurd hsh (by simp [hpriv])

theorem Inv.drop (hp : p ∈ s.held) (hz : p ≠ C.zeroPage) :
    Inv C ⟨{ s with held := s.held.erase p }.put p, pins, loose⟩ := by
  have hmem : p ∈ s.shared := by simp [State.shared, hp]
  refine put h rfl rfl ((mem_erase_of_ne hz.symm).mpr h.zero) rfl ?_ (Perm.refl _) (.inr hmem)
  refine perm_iff_count.2 fun q => ?_
  have := (perm_cons_erase hp).count_eq q
  simp [State.refs, State.mapped, State.shared, State.put, count_cons] at this ⊢
  omega

omit h in
theorem Inv.cacheInsert {q : Nat} (hl : Inv C ⟨s, pins, q :: loose⟩) :
    Inv C ⟨s.cacheInsert k q, pins, loose⟩ := by
  refine hl.getLoose rfl rfl hl.zero rfl ?_ (Perm.refl _)
  refine perm_iff_count.2 fun x => ?_
  simp [State.cacheInsert, State.get, State.refs, State.mapped, State.shared, count_cons]
  omega

theorem Inv.cacheRemove (hk : s.pageCache.lookup k = some p) : Inv C ⟨s.cacheRemove k p, pins, loose⟩ := by
  have hperm := (perm_cons_erase_key hk).map Prod.snd
  have hmem : p ∈ s.shared := mem_append_left _ (hperm.mem_iff.2 mem_cons_self)
  refine put h rfl rfl h.zero rfl ?_ (Perm.refl _) (.inr hmem)
  refine perm_iff_count.2 fun q => ?_
  have := hperm.count_eq q
  simp [State.cacheRemove, State.put, State.refs, State.mapped, State.shared, count_cons] at this ⊢
  omega

theorem Inv.dropAnon {k : Nat × UInt64} (hk : s.anonShared.lookup k = some p) :
    Inv C ⟨{ s with anonShared := s.anonShared.eraseP fun x => x.1 = k }.put p, pins, loose⟩ := by
  have hperm := (perm_cons_erase_key hk).map Prod.snd
  have hmem : p ∈ s.shared := by
    refine mem_append_right _ (mem_append_right _ (mem_append_left _ ?_))
    exact hperm.mem_iff.2 mem_cons_self
  refine put h rfl rfl h.zero rfl ?_ (Perm.refl _) (.inr hmem)
  refine perm_iff_count.2 fun q => ?_
  have := hperm.count_eq q
  simp [State.put, State.refs, State.mapped, State.shared, count_cons] at this ⊢
  omega

end Caches

/-! ### Steps of the entries -/

section Entries

variable {s s' : State α} {pins pins' loose loose' : List Nat} {p : Nat} {e : Pte} {t : PageAttr}
  (h : Inv C ⟨s, pins, loose⟩)

include h

private theorem Inv.setEntry (hptes : s'.ptes = (s.setPte e).ptes) (hmm : s'.mm = s.mm) (hheld : s'.held = s.held)
    (hok : EntryOk C s e) (hpool : s'.pool.Sound (pins' ++ s'.refs) (loose' ++ (s'.other ++ s'.lost)))
    (hself : Exclusive s e → (pins' ++ s'.refs).count e.pfn = 1)
    (hother : ∀ x ∈ s.ptes, ¬(x.space = e.space ∧ x.va = e.va) → Exclusive s x →
      (pins' ++ s'.refs).count x.pfn = (pins ++ s.refs).count x.pfn) : Inv C ⟨s', pins', loose'⟩ := by
  refine .change (s := s) hpool (hmm ▸ h.mm) (hptes ▸ h.placed.set) (hheld ▸ h.zero)
    (fun e _ => by rw [attr, attr, hmm]) fun x hx => ?_
  rw [hptes] at hx
  rcases mem_cons.1 hx with rfl | hx
  · exact ⟨hok, hself⟩
  · obtain ⟨hx, hne⟩ := h.placed.mem_eraseP.1 hx
    exact ⟨h.entry x hx, fun hexcl => (hother x hx hne hexcl).trans (h.sole x hx hexcl)⟩

omit h in
private theorem EntryOk.of_place (hp : Place C s e t) (hw : e.direct = true → e.writable = canWrite t.prot) :
    EntryOk C s e := ⟨hp.aligned, t, hp.attr, hp.direct, hw⟩

omit h in
private theorem EntryOk.with (h : EntryOk C s e) (hd : e.direct = false) (p : Nat) (w : Bool) :
    EntryOk C s { e with pfn := p, writable := w } := by
  obtain ⟨h1, t, h2, h3, -⟩ := h
  exact ⟨h1, t, h2, h3, fun hd' => absurd hd' (by simp [hd])⟩

omit h in
private theorem Place.refs (hp : Place C s e t) (hd : e.direct = false) :
    (pins ++ (s.mapPage e).refs).Perm (e.pfn :: (pins ++ s.refs)) := by
  rw [show (s.mapPage e).refs = (s.setPte e).refs from rfl, refs_set_absent hp.absent hd]
  exact perm_middle

private theorem Inv.mapCounted (hp : Place C s e t) (hd : e.direct = false) (hmem : e.pfn ∈ pins ++ s.refs)
    (hne : ∀ x ∈ s.ptes, Exclusive s x → x.pfn ≠ e.pfn) (hw : isShared t.flag = false → e.writable = false) :
    Inv C ⟨s.mapPage e, pins, loose⟩ := by
  refine h.setEntry rfl rfl rfl (.of_place hp fun hd' => absurd hd' (by simp [hd]))
    ((h.pool.get hmem).perm (hp.refs hd).symm (Perm.refl _)) (fun hexcl => ?_) fun x hx _ hexcl => ?_
  · obtain ⟨h1, -, t', ht', hpriv⟩ := hexcl
    cases hp.attr.symm.trans ht'
    exact absurd h1 (by simp [hw hpriv])
  · rw [(hp.refs hd).count_eq, count_cons_of_ne (hne x hx hexcl).symm]

theorem Inv.map (hp : Place C s e t) (hd : e.direct = false) (hsrc : e.pfn ∈ pins ∨ e.pfn ∈ s.shared)
    (hw : isShared t.flag = false → e.writable = false) : Inv C ⟨s.mapPage e, pins, loose⟩ := by
  refine h.mapCounted hp hd ?_ (fun x hx hexcl => ?_) hw
  · rcases hsrc with hsrc | hsrc
    · exact mem_append_left _ hsrc
    · exact mem_append_right _ (mem_append_right _ hsrc)
  · exact h.ne_of_shared hx hexcl (hsrc.imp_right .inl)

omit h in
theorem Inv.loose_notMem (h : Inv C ⟨s, pins, p :: loose⟩) : p ∉ pins ++ s.refs :=
  h.pool.apart p mem_cons_self

omit h in
private theorem Inv.setLoose (h : Inv C ⟨s, pins, e.pfn :: loose⟩) (hok : EntryOk C s e)
    (hrefs : (pins' ++ (s.mapPage e).refs).Perm (e.pfn :: (pins ++ s.refs))) : Inv C ⟨s.mapPage e, pins', loose⟩ := by
  refine h.setEntry rfl rfl rfl hok (h.pool.get_idle.perm hrefs.symm (Perm.refl _)) (fun _ => ?_)
    fun x hx _ hexcl => ?_
  · rw [hrefs.count_eq, count_cons_self, count_eq_zero.2 h.loose_notMem]
  · have hne : e.pfn ≠ x.pfn := fun heq => h.loose_notMem (heq ▸ mem_append_right _ (hexcl.mem_refs hx))
    rw [hrefs.count_eq, count_cons_of_ne hne]

omit h in
theorem Inv.mapLoose (h : Inv C ⟨s, pins, e.pfn :: loose⟩) (hp : Place C s e t) (hd : e.direct = false) :
    Inv C ⟨s.mapPage e, pins, loose⟩ :=
  h.setLoose (.of_place hp fun hd' => absurd hd' (by simp [hd])) (hp.refs hd)

theorem Inv.mapDirect (hp : Place C s e t) (hd : e.direct = true) (hw : e.writable = canWrite t.prot) :
    Inv C ⟨s.setPte e, pins, loose⟩ := by
  have hrefs := refs_set_direct hp.absent hd
  refine h.setEntry rfl rfl rfl (.of_place hp fun _ => hw) (hrefs ▸ h.pool) (fun hexcl => ?_) fun x _ _ _ => ?_
  · exact absurd hd (by simp [hexcl.2.1])
  · rw [hrefs]

theorem Inv.setWritable (he : s.pte e.space e.va = some e) (hd : e.direct = false) {w : Bool}
    (hw : w = true → e.writable = false → Exclusive s { e with writable := w } → s.pool.count e.pfn ≤ 1) :
    Inv C ⟨s.setPte { e with writable := w }, pins, loose⟩ := by
  have hmem := (pte_some he).1
  have hperm : (pins ++ s.refs).Perm (pins ++ (s.setPte { e with writable := w }).refs) := by
    have hset := refs_set (s := s) (e := { e with writable := w }) hd
    exact ((refs_clear he hd).trans (Perm.of_eq hset.symm)).append_left _
  refine h.setEntry rfl rfl rfl ((h.entry e hmem).with hd e.pfn w) (h.pool.perm hperm (Perm.refl _))
    (fun hexcl => ?_) fun x _ _ _ => ?_
  · show (pins ++ (s.setPte { e with writable := w }).refs).count e.pfn = 1
    rw [← hperm.count_eq]
    by_cases hold : e.writable = true
    · exact h.sole e hmem ⟨hold, hd, hexcl.2.2⟩
    have hle := hw hexcl.1 (by simpa using hold) hexcl
    have hcount : s.pool.count e.pfn = (pins ++ s.refs).count e.pfn := h.pool.count_eq _
    have hpos : 0 < (pins ++ s.refs).count e.pfn :=
      count_pos_iff.2 (mem_append_right _ (mem_append_left _ (mem_mapped hmem hd)))
    omega
  · exact (hperm.count_eq _).symm

omit h in
theorem Inv.replace (h : Inv C ⟨s, pins, p :: loose⟩) (he : s.pte e.space e.va = some e) (hd : e.direct = false) :
    Inv C ⟨s.mapPage { e with pfn := p, writable := true }, e.pfn :: pins, loose⟩ := by
  have hmem := (pte_some he).1
  have hrefs : (e.pfn :: pins ++ (s.mapPage { e with pfn := p, writable := true }).refs).Perm
      (p :: (pins ++ s.refs)) := by
    have h1 := refs_set (s := s) (e := { e with pfn := p, writable := true }) hd
    rw [show (s.mapPage { e with pfn := p, writable := true }).refs =
      (s.setPte { e with pfn := p, writable := true }).refs from rfl, h1]
    refine perm_iff_count.2 fun q => ?_
    have := (refs_clear he hd).count_eq q
    simp [count_cons] at this ⊢
    omega
  exact h.setLoose ((h.entry e hmem).with hd p true) hrefs

theorem Inv.unmap (he : s.pte e.space e.va = some e) : Inv C ⟨(s.clearPte e.space e.va).release e, pins, loose⟩ := by
  obtain ⟨hmem, -, -⟩ := pte_some he
  -- what is left after the entry is gone
  have key : ∀ s' : State α, s'.ptes = (s.clearPte e.space e.va).ptes → s'.mm = s.mm → s'.held = s.held →
      s'.pool.Sound (pins ++ s'.refs) (loose ++ (s'.other ++ s'.lost)) →
      (∀ x ∈ s.ptes, x ≠ e → Exclusive s x → (pins ++ s'.refs).count x.pfn = (pins ++ s.refs).count x.pfn) →
      Inv C ⟨s', pins, loose⟩ := by
    intro s' hptes hmm hheld hpool hcount
    refine .change (s := s) hpool (hmm ▸ h.mm) (hptes ▸ h.placed.clear) (hheld ▸ h.zero)
      (fun e _ => by rw [attr, attr, hmm]) fun x hx => ?_
    rw [hptes] at hx
    obtain ⟨hx, hat⟩ := h.placed.mem_eraseP.1 hx
    have hne : x ≠ e := fun hxe => hat ⟨by rw [hxe], by rw [hxe]⟩
    exact ⟨h.entry x hx, fun hexcl => (hcount x hx hne hexcl).trans (h.sole x hx hexcl)⟩
  unfold release
  by_cases hd : e.direct = true
  · rw [if_pos hd]
    have hperm := (refs_clear_direct he hd).append_left pins
    exact key _ rfl rfl rfl (h.pool.perm hperm (Perm.refl _)) fun x _ _ _ => (hperm.count_eq _).symm
  have hd' : e.direct = false := by simpa using hd
  have hperm : (pins ++ s.refs).Perm (e.pfn :: (pins ++ (s.clearPte e.space e.va).refs)) :=
    ((refs_clear he hd').append_left pins).trans perm_middle
  have hin : e.pfn ∈ pins ++ s.refs := hperm.mem_iff.2 mem_cons_self
  have hown : (s.clearPte e.space e.va).pool.owns e.pfn = true := h.pool.owned _ (.inl hin)
  have hpos : 0 < (s.clearPte e.space e.va).pool.count e.pfn := h.pool.count_pos.2 hin
  rw [if_neg hd, if_pos (by simp [hown, hpos])]
  refine key _ rfl rfl rfl (h.pool.perm hperm (Perm.refl _)).put fun x hx hne hexcl => ?_
  have hpfn := h.ne_of_entry hx hexcl hmem hd' hne.symm
  rw [hperm.count_eq, count_cons_of_ne hpfn.symm]
  rfl

theorem Inv.clone {c : Nat} {r : VmRegion} (he : s.pte e.space e.va = some e) (hc : s.pte c e.va = none)
    (ht : s.attr e = some t) (htc : (s.mm c).view e.va = some t) (hflag : r.flag = t.flag) (hfp : r.fp = t.fp) :
    Inv C ⟨cloneEntry C c r s e, pins, loose⟩ := by
  have hmem := (pte_some he).1
  obtain ⟨hva, t', ht', hdirect, hwrite⟩ := h.entry e hmem
  cases ht.symm.trans ht'
  have hcne : e.space ≠ c := by
    rintro rfl
    rw [he] at hc
    cases hc
  -- the place of the child is still empty after the entry of the parent has been written
  have hplace : ∀ w, Place C (s.setPte { e with writable := w }) { e with space := c, writable := w } t := by
    intro w
    refine ⟨?_, hva, htc, hdirect⟩
    show (s.setPte { e with writable := w }).pte c e.va = none
    refine find?_eq_none.2 fun x hx => ?_
    rcases mem_cons.1 hx with rfl | hx
    · simp [isAt, hcne]
    · simpa using find?_eq_none.1 hc x (mem_of_mem_eraseP hx)
  unfold cloneEntry
  rw [hflag, hfp]
  by_cases hd : C.isDirect t.fp = true
  · have hed : e.direct = true := hdirect.trans hd
    have hset : Inv C ⟨s.setPte e, pins, loose⟩ := by
      have hperm : (pins ++ s.refs).Perm (pins ++ (s.setPte e).refs) := by
        refine Perm.append_left _ ?_
        have hrefs : (s.setPte e).refs = (s.clearPte e.space e.va).refs := by
          simp [refs, mapped, setPte, clearPte, hed, shared]
        rw [hrefs]
        exact refs_clear_direct he hed
      refine h.setEntry rfl rfl rfl (h.entry e hmem) (h.pool.perm hperm (Perm.refl _)) (fun hexcl => ?_)
        fun x _ _ _ => (hperm.count_eq _).symm
      exact absurd hed (by simp [hexcl.2.1])
    simp only [hd, Bool.not_true, Bool.false_and, Bool.false_eq_true, if_false]
    exact hset.mapDirect (hplace e.writable) hed (hwrite hed)
  · have hd' : C.isDirect t.fp = false := by simpa using hd
    have hed : e.direct = false := hdirect.trans hd'
    have hin : e.pfn ∈ pins ++ s.refs := mem_append_right _ (mem_append_left _ (mem_mapped hmem hed))
    have hown : s.pool.owns e.pfn = true := h.pool.owned _ (.inl hin)
    obtain ⟨w, hw, hpriv⟩ : ∃ w, (if (!isShared t.flag) = true then { e with writable := false } else e) =
        { e with writable := w } ∧ (isShared t.flag = false → w = false) := by
      cases hs : isShared t.flag with
      | true => exact ⟨e.writable, by simp, by simp⟩
      | false => exact ⟨false, by simp, by simp⟩
    simp only [hd', hown, Bool.not_false, Bool.true_and, if_true, hw]
    have hno : ¬Exclusive s { e with writable := w } := by
      rintro ⟨hw1, -, t', ht'', hp⟩
      cases ht.symm.trans ht''
      exact absurd hw1 (by simp [hpriv hp])
    have hset : Inv C ⟨s.setPte { e with writable := w }, pins, loose⟩ :=
      h.setWritable he hed fun _ _ hexcl => absurd hexcl hno
    have hmem' : { e with writable := w } ∈ (s.setPte { e with writable := w }).ptes := mem_cons_self
    have hmapped := mem_mapped hmem' hed
    have hne : ∀ x ∈ (s.setPte { e with writable := w }).ptes, Exclusive (s.setPte { e with writable := w }) x →
        x.pfn ≠ e.pfn := by
      intro x hx hexcl
      refine hset.ne_of_entry (x := { e with writable := w }) hx hexcl hmem' hed ?_
      rintro rfl
      exact hno hexcl
    exact hset.mapCounted (hplace w) hed (mem_append_right _ (mem_append_left _ hmapped)) hne hpriv

end Entries

/-! ### Steps of the regions and of the contents -/

theorem setMm_self (s : State α) (a : Nat) (mm : MmStruct) : (s.setMm a mm).mm a = mm := update_self _ _ _

variable {a : Nat}

theorem setMm_of_ne (s : State α) {b : Nat} (mm : MmStruct) (h : b ≠ a) : (s.setMm a mm).mm b = s.mm b :=
  update_of_ne h _ _

section Rest

variable {s : State α} {pins loose : List Nat} (h : Inv C ⟨s, pins, loose⟩)

include h

omit h in
theorem attr_setMm {mm : MmStruct} (hview : ∀ e ∈ s.ptes, e.space = a → mm.view e.va = (s.mm a).view e.va) (e : Pte)
    (he : e ∈ s.ptes) : (s.setMm a mm).attr e = s.attr e := by
  unfold attr
  by_cases hea : e.space = a
  · rw [hea, setMm_self, hview e he hea]
  · rw [setMm_of_ne s mm hea]

theorem Inv.remap {mm : MmStruct} (hok : MmOk C.arch mm)
    (hview : ∀ e ∈ s.ptes, e.space = a → mm.view e.va = (s.mm a).view e.va) : Inv C ⟨s.setMm a mm, pins, loose⟩ := by
  refine .change h.pool (fun b => ?_) h.placed h.zero (attr_setMm hview) fun e he => ⟨h.entry e he, h.sole e he⟩
  by_cases hb : b = a
  · rw [hb, setMm_self]
    exact hok
  · rw [setMm_of_ne s mm hb]
    exact h.mm b

theorem Inv.contents {bytes : Nat → Nat → Byte α} {dirty : Nat → Bool} {log : List (Event α)} {clock : Nat} :
    Inv C ⟨{ s with bytes := bytes, dirty := dirty, log := log, clock := clock }, pins, loose⟩ :=
  { h with }

end Rest

theorem writePage_eq (s : State α) (file : Nat) (offset : UInt64) (data : Nat → Byte α) :
    s.writePage C file offset data =
      { s with bytes := (s.writePage C file offset data).bytes, log := .writePage file offset data :: s.log } := by
  unfold writePage fsPageCacheUpdate fill
  dsimp only
  split_ifs
  · split <;> rfl
  · split <;> split <;> rfl
  · rfl

/-- A store changes one byte, and is logged in a region that is written back. -/
theorem userStore_spec {addr : Nat} {v : α} (h : userStore C s a addr v = some s') :
    ∃ e, s.pte a (pageOf addr) = some e ∧ e.writable = true ∧ s' = { s with
        bytes := update s.bytes e.pfn (update (s.bytes e.pfn) (addr % pageSize) ⟨s.clock + 1, v⟩)
        clock := s.clock + 1
        log := s'.log } ∧
      ((s'.log = s.log ∧ ∀ r, regionAt s a (pageOf addr) = some r → C.flushes r.flag r.fp = false) ∨
        ∃ r f, regionAt s a (pageOf addr) = some r ∧ r.fp = some f ∧ C.flushes r.flag r.fp = true ∧
          s'.log = .store a (pageOf addr) (addr % pageSize) (C.fileId f)
            (r.attrAt (pageOf addr)).offset (s.clock + 1) :: s.log) := by
  unfold userStore at h
  dsimp only at h
  split at h
  · cases h
  rename_i e he
  split_ifs at h with hw
  refine ⟨e, he, hw, ?_⟩
  split at h
  swap
  · rename_i hr
    cases h
    exact ⟨rfl, .inl ⟨rfl, fun r' hr' => by cases hr.symm.trans hr'⟩⟩
  rename_i r hr
  split at h
  · rename_i f hf
    split_ifs at h with hfl <;> cases h
    · exact ⟨rfl, .inr ⟨r, f, hr, hf, hfl, rfl⟩⟩
    · refine ⟨rfl, .inl ⟨rfl, fun r' hr' => ?_⟩⟩
      cases hr.symm.trans hr'
      simpa using hfl
  · rename_i hf
    cases h
    refine ⟨rfl, .inl ⟨rfl, fun r' hr' => ?_⟩⟩
    cases hr.symm.trans hr'
    simp [Config.flushes, Config.kindOf, hf]

variable {c c' : Cfg α} {A : Allowed α}

theorem Inv.micro (h : Inv C c) (hm : Micro C A c c') : Inv C c' := by
  cases hm with
  | perm hpins hloose =>
    exact { h with pool := h.pool.perm (hpins.append_right _) (hloose.append_right _), sole :=
      fun e he hx => by rw [← (hpins.append_right _).count_eq]; exact h.sole e he hx }
  | take hf => exact h.take hf
  | give => exact h.idle rfl rfl h.zero (Perm.refl _) h.pool.give
  | fill | mark => exact h.contents
  | lose =>
    refine h.idle rfl rfl h.zero (Perm.refl _) (h.pool.perm (Perm.refl _) ?_)
    refine perm_iff_count.2 fun q => ?_
    simp [State.lose, count_cons]
    omega
  | keep =>
    refine h.idle rfl rfl h.zero (Perm.refl _) (h.pool.perm (Perm.refl _) ?_)
    exact perm_middle.symm
  | unkeep hp =>
    refine h.idle rfl rfl h.zero (Perm.refl _) (Pool.Sound.give (h.pool.perm (Perm.refl _) ?_))
    refine perm_iff_count.2 fun q => ?_
    have := (perm_cons_erase hp).count_eq q
    simp [State.freeUser, count_cons] at this ⊢
    omega
  | hold =>
    refine h.getLoose rfl rfl (mem_cons_of_mem _ h.zero) rfl ?_ (Perm.refl _)
    refine perm_iff_count.2 fun q => ?_
    simp [State.get, State.refs, State.mapped, State.shared, count_cons]
    omega
  | drop hp hz => exact h.drop hp hz
  | pin hp => exact h.pin hp
  | pinLoose => exact h.getLoose rfl rfl h.zero rfl (Perm.refl _) (Perm.refl _)
  | unpin =>
    exact put h rfl rfl h.zero rfl (Perm.refl _) (Perm.refl _) (.inl mem_cons_self)
  | insert hk => exact h.cacheInsert
  | evict hk => exact h.cacheRemove hk
  | @addFile s pins loose e t f he ht hsh hf hkind =>
    refine getShared h (({ s with fileShared := _ :: s.fileShared } : State α).get e.pfn) rfl rfl rfl
      ⟨rfl, rfl⟩ rfl ?_ he ht hsh ?_
    · refine perm_iff_count.2 fun q => ?_
      simp [State.get, State.refs, State.mapped, State.shared, count_cons]
      omega
    · simp [Config.isDirect, Config.kindOf, hf, hkind]
  | @addAnon s pins loose e t k he ht hsh hf =>
    refine getShared h (({ s with anonShared := _ :: s.anonShared } : State α).get e.pfn) rfl rfl rfl
      ⟨rfl, rfl⟩ rfl ?_ he ht hsh ?_
    · refine perm_iff_count.2 fun q => ?_
      simp [State.get, State.refs, State.mapped, State.shared, count_cons]
      omega
    · simp [Config.isDirect, Config.kindOf, hf]
  | dropAnon hk => exact h.dropAnon hk
  | map hp hd hsrc hw hb => exact h.map hp hd hsrc hw
  | mapLoose hp hd hk => exact mapLoose h hp hd
  | mapDirect hp hd hw => exact h.mapDirect hp hd hw
  | replace he hd ht hpriv => exact replace h he hd
  | writable he hd ht hw =>
    refine h.setWritable he hd fun _ _ hexcl => ?_
    obtain ⟨-, -, t', ht', hpriv⟩ := hexcl
    cases ht.symm.trans ht'
    rcases hw with hw | hw
    · exact absurd hw (by simp [hpriv])
    · exact hw
  | unmap he hf => exact h.unmap he
  | clone he hc ht htc hflag hfp => exact h.clone he hc ht htc hflag hfp
  | @flush s pins loose e t f he ht hf hfl =>
    rw [State.clearDirty, writePage_eq]
    exact h.contents
  | store hs _ =>
    obtain ⟨e, -, -, heq, -⟩ := userStore_spec hs
    rw [heq]
    exact h.contents
  | remap hok hview _ => exact h.remap hok hview

abbrev Reach (C : Config) (A : Allowed α) : Cfg α → Cfg α → Prop := Relation.ReflTransGen (Micro C A)

theorem Inv.reach (h : Inv C c) (hr : Reach C A c c') : Inv C c' := by
  induction hr with
  | refl => exact h
  | tail _ hm ih => exact ih.micro hm

end Mos.Paging
